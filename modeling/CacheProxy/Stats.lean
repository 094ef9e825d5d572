/-
**Statistics that two threads share.**

Every metric of a pool and of a server is kept three times.  The thread that serves the connections
updates `current`.  Now and then it swaps `current` with `shadow` and says so in the flag
`aggregate`; the other thread then adds `shadow` to `sum`, which is what is shown, and clears the
flag.  A swap is skipped while the flag is set, and while nothing was updated; what is in `shadow`
after it was added is left there until the next swap.

Main definitions:

* `Stats`, `statsSwap`, `statsAggregate`, `Stats.update` — the three copies and what the threads do;
* `Copies` — the three copies of one metric, and the same steps on them;
* `net`, `lastSet` — what was done to one metric.

Main results:

* `Stats.Has.step` — a step of the whole is a step of each metric;
* `stats_conserved` — **nothing is lost or counted twice**, in every interleaving.
-/

import Mathlib.Data.BitVec

namespace CacheProxy

/-! ### Metrics -/

/-- `stats_type_t` -/
inductive StatsType where
  | counter
  | gauge
  | timestamp
  deriving DecidableEq, Repr

/-- `struct stats_metric`; the value is an `int64_t`. -/
structure StatsMetric where
  type : StatsType
  value : BitVec 64
  deriving DecidableEq, Repr

/-- `struct stats_pool`: the metrics of a pool, and those of its servers. -/
structure StatsPool where
  metric : List StatsMetric
  server : List (List StatsMetric)
  deriving DecidableEq, Repr

/-- `stats_metric_init` -/
def statsMetricInit (m : StatsMetric) : StatsMetric := { m with value := 0 }

/-- `stats_metric_reset` -/
def statsMetricReset (ms : List StatsMetric) : List StatsMetric := ms.map statsMetricInit

/-- `stats_pool_reset` -/
def statsPoolReset (ps : List StatsPool) : List StatsPool :=
  ps.map fun p => { metric := statsMetricReset p.metric, server := p.server.map statsMetricReset }

/-- The body of the loop of `stats_aggregate_metric`. -/
def aggregateOne (dst src : StatsMetric) : StatsMetric :=
  match src.type with
  | .counter => { dst with value := dst.value + src.value }
  | .gauge => { dst with value := dst.value + src.value }
  | .timestamp => if src.value ≠ 0 then { dst with value := src.value } else dst

/-- The loop over the elements of `src`, each of which changes the element of `dst` at its place. -/
def arrayMerge {α : Type} (f : α → α → α) : List α → List α → List α
  | d :: ds, s :: ss => f d s :: arrayMerge f ds ss
  | ds, [] => ds
  | [], _ :: _ => []

/-- `stats_aggregate_metric` -/
def statsAggregateMetric : List StatsMetric → List StatsMetric → List StatsMetric :=
  arrayMerge aggregateOne

/-- The body of the loop of `stats_aggregate`. -/
def statsAggregatePool (dst src : StatsPool) : StatsPool :=
  { metric := statsAggregateMetric dst.metric src.metric
    server := arrayMerge statsAggregateMetric dst.server src.server }

/-- `struct stats` -/
structure Stats where
  current : List StatsPool
  shadow : List StatsPool
  sum : List StatsPool
  aggregate : Bool := false
  updated : Bool := false
  deriving DecidableEq, Repr

/-- `stats_aggregate` -/
def statsAggregate (st : Stats) : Stats :=
  if st.aggregate = false then st
  else { st with sum := arrayMerge statsAggregatePool st.sum st.shadow, aggregate := false }

/-- `stats_swap` -/
def statsSwap (st : Stats) : Stats :=
  if st.aggregate = true then st
  else if st.updated = false then st
  else
    { st with
      current := statsPoolReset st.shadow, shadow := st.current, updated := false, aggregate :=
        true }

/-! ### Updates -/

/-- Which metric: of a pool, or of a server of a pool. -/
inductive StatsField where
  | pool (pidx fidx : ℕ)
  | server (pidx sidx fidx : ℕ)
  deriving DecidableEq, Repr

namespace StatsField

/-- The metric in an array of pools. -/
def get (ps : List StatsPool) : StatsField → Option StatsMetric
  | pool pidx fidx => ps[pidx]?.bind fun p => p.metric[fidx]?
  | server pidx sidx fidx => ps[pidx]?.bind fun p => p.server[sidx]?.bind fun ms => ms[fidx]?

/-- The array with the metric changed. -/
def modify (ps : List StatsPool) (f : StatsMetric → StatsMetric) : StatsField → List StatsPool
  | pool pidx fidx => ps.modify pidx fun p => { p with metric := p.metric.modify fidx f }
  | server pidx sidx fidx => ps.modify pidx fun p =>
      { p with server := p.server.modify sidx fun ms => ms.modify fidx f }

end StatsField

/-- What `_stats_pool_incr`, ..., `_stats_server_set_ts` do to a metric. -/
inductive StatsUpdate where
  | incr
  | decr
  | incrBy (val : BitVec 64)
  | decrBy (val : BitVec 64)
  | setTs (val : BitVec 64)
  deriving DecidableEq, Repr

namespace StatsUpdate

/-- The new value. -/
def apply (m : StatsMetric) : StatsUpdate → StatsMetric
  | incr => { m with value := m.value + 1 }
  | decr => { m with value := m.value - 1 }
  | incrBy val => { m with value := m.value + val }
  | decrBy val => { m with value := m.value - val }
  | setTs val => { m with value := val }

/-- The assertion on the type. -/
def Allowed (t : StatsType) : StatsUpdate → Prop
  | incr | incrBy _ => t = .counter ∨ t = .gauge
  | decr | decrBy _ => t = .gauge
  | setTs _ => t = .timestamp

/-- The change of a counter or a gauge. -/
def delta : StatsUpdate → BitVec 64
  | incr => 1
  | decr => -1
  | incrBy val => val
  | decrBy val => -val
  | setTs _ => 0

end StatsUpdate

/-- `stats_pool_to_metric` or `stats_server_to_metric`, and the change of the metric. -/
def Stats.update (st : Stats) (field : StatsField) (u : StatsUpdate) : Stats :=
  { st with current := field.modify st.current u.apply, updated := true }

/-- **A step of one of the two threads.** -/
inductive StatsStep where
  | update (field : StatsField) (u : StatsUpdate)
  | swap
  | aggregate
  deriving DecidableEq, Repr

/-- What a step does. -/
def Stats.step (st : Stats) : StatsStep → Stats
  | .update field u => st.update field u
  | .swap => statsSwap st
  | .aggregate => statsAggregate st

/-- The state after the steps. -/
def Stats.run (st : Stats) (steps : List StatsStep) : Stats := steps.foldl Stats.step st

/-- `stats_create`: three arrays for the same pools, with all values zero. -/
def statsCreate (ps : List StatsPool) : Stats :=
  { current := statsPoolReset ps, shadow := statsPoolReset ps, sum := statsPoolReset ps }

/-- The steps meet the assertions of the source for the pools `ps`: the metric is there, and its
type admits the update. -/
def StatsStep.Valid (ps : List StatsPool) : StatsStep → Prop
  | .update field u => ∃ m, field.get ps = some m ∧ u.Allowed m.type
  | _ => True

/-! ### Arrays -/

section Arrays

variable {α : Type}

/-- The merged array, at a place where both have an element. -/
theorem arrayMerge_getElem? (f : α → α → α) : ∀ (ds ss : List α) {i : ℕ} {d s : α},
    ds[i]? = some d → ss[i]? = some s → (arrayMerge f ds ss)[i]? = some (f d s)
  | d :: ds, s :: ss, 0, _, _, hd, hs => by
      cases hd
      cases hs
      rfl
  | d :: ds, s :: ss, i + 1, _, _, hd, hs => arrayMerge_getElem? f ds ss hd hs
  | [], _, _, _, _, hd, _ => by cases hd
  | _ :: _, [], _, _, _, _, hs => by cases hs

end Arrays

namespace StatsField

theorem get_reset (ps : List StatsPool) (field : StatsField) :
    field.get (statsPoolReset ps) = (field.get ps).map statsMetricInit := by
  cases field with
  | pool pidx =>
    simp only [get, statsPoolReset, List.getElem?_map]
    cases ps[pidx]? with
    | none => rfl
    | some => simp [statsMetricReset]
  | server pidx sidx =>
    simp only [get, statsPoolReset, List.getElem?_map]
    cases ps[pidx]? with
    | none => rfl
    | some p =>
      simp only [Option.map_some, Option.bind_some, List.getElem?_map]
      cases p.server[sidx]? with
      | none => rfl
      | some => simp [statsMetricReset]

/-- The metric that was changed. -/
theorem get_modify_self (ps : List StatsPool) (f : StatsMetric → StatsMetric) (field : StatsField) :
    field.get (field.modify ps f) = (field.get ps).map f := by
  cases field with
  | pool pidx =>
    simp only [get, modify, List.getElem?_modify_eq]
    cases ps[pidx]? with
    | none => rfl
    | some => simp
  | server pidx sidx =>
    simp only [get, modify, List.getElem?_modify_eq]
    cases ps[pidx]? with
    | none => rfl
    | some p =>
      simp only [Option.map_eq_map, Option.map_some, Option.bind_some, List.getElem?_modify_eq]
      cases p.server[sidx]? with
      | none => rfl
      | some => simp

/-- **The other metrics are as they were.** -/
theorem get_modify_ne (ps : List StatsPool) (f : StatsMetric → StatsMetric)
    {field other : StatsField}
    (h : other ≠ field) : other.get (field.modify ps f) = other.get ps := by
  cases field with
  | pool pidx fidx =>
    cases other with
    | pool p' f' =>
      simp only [get, modify, List.getElem?_modify]
      by_cases hp : pidx = p'
      · have hf : fidx ≠ f' := fun hf => h (by rw [hp, hf])
        cases ps[p']? with
        | none => simp
        | some => simp [hp, hf]
      · cases ps[p']? <;> simp [hp]
    | server p' =>
      simp only [get, modify, List.getElem?_modify]
      cases ps[p']? with
      | none => rfl
      | some =>
        by_cases hp : pidx = p' <;> simp [hp]
  | server pidx sidx fidx =>
    cases other with
    | pool p' =>
      simp only [get, modify, List.getElem?_modify]
      cases ps[p']? with
      | none => rfl
      | some =>
        by_cases hp : pidx = p' <;> simp [hp]
    | server p' s' f' =>
      simp only [get, modify, List.getElem?_modify]
      cases ps[p']? with
      | none => rfl
      | some p =>
        by_cases hp : pidx = p'
        · simp only [hp, if_true, Option.map_eq_map, Option.map_some, Option.bind_some,
            List.getElem?_modify]
          cases p.server[s']? with
          | none => rfl
          | some =>
            by_cases hs : sidx = s'
            · have hf : fidx ≠ f' := fun hf => h (by rw [hp, hs, hf])
              simp [hs, hf]
            · simp [hs]
        · simp [hp]

/-- Every metric is aggregated. -/
theorem get_aggregate {ds ss : List StatsPool} {field : StatsField} {d m : StatsMetric}
    (hd : field.get ds = some d) (hm : field.get ss = some m) :
    field.get (arrayMerge statsAggregatePool ds ss) = some (aggregateOne d m) := by
  cases field with
  | pool =>
    simp only [get, Option.bind_eq_some_iff] at hd hm ⊢
    obtain ⟨p, hp, hd⟩ := hd
    obtain ⟨q, hq, hm⟩ := hm
    exact ⟨_, arrayMerge_getElem? _ ds ss hp hq, arrayMerge_getElem? _ p.metric q.metric hd hm⟩
  | server =>
    simp only [get, Option.bind_eq_some_iff] at hd hm ⊢
    obtain ⟨p, hp, ms, hms, hd⟩ := hd
    obtain ⟨q, hq, ns, hns, hm⟩ := hm
    exact ⟨_, arrayMerge_getElem? _ ds ss hp hq, _, arrayMerge_getElem? _ p.server q.server hms hns,
      arrayMerge_getElem? _ ms ns hd hm⟩

end StatsField

/-! ### One metric -/

/-- **The three copies of a metric**, and the flags. -/
structure Copies where
  type : StatsType
  current : BitVec 64
  shadow : BitVec 64
  sum : BitVec 64
  aggregate : Bool
  updated : Bool

/-- The statistics have these copies of the metric. -/
structure Stats.Has (st : Stats) (field : StatsField) (k : Copies) : Prop where
  current : field.get st.current = some ⟨k.type, k.current⟩
  shadow : field.get st.shadow = some ⟨k.type, k.shadow⟩
  sum : field.get st.sum = some ⟨k.type, k.sum⟩
  aggregate : st.aggregate = k.aggregate
  updated : st.updated = k.updated

namespace Copies

/-- What a step does to the copies of the metric `field`. -/
def step (field : StatsField) (k : Copies) : StatsStep → Copies
  | .update other u =>
      if other = field
        then { k with current := (u.apply ⟨k.type, k.current⟩).value, updated := true }
      else { k with updated := true }
  | .swap =>
      if k.aggregate = true then k
      else if k.updated = false then k
      else { k with current := 0, shadow := k.current, updated := false, aggregate := true }
  | .aggregate =>
      if k.aggregate = false then k
      else { k with
        sum := (aggregateOne ⟨k.type, k.sum⟩ ⟨k.type, k.shadow⟩).value, aggregate := false }

/-- What the metric is worth: `shadow` counts until it is added. -/
def total (k : Copies) : BitVec 64 := k.sum + (if k.aggregate then k.shadow else 0) + k.current

/-- The first value that is not zero. -/
def latest (k : Copies) : BitVec 64 :=
  if k.current ≠ 0 then k.current
  else if k.aggregate = true ∧ k.shadow ≠ 0 then k.shadow else k.sum

end Copies

/-- An update keeps the type. -/
theorem StatsUpdate.apply_eq (u : StatsUpdate) (m : StatsMetric) :
    u.apply m = ⟨m.type, (u.apply m).value⟩ := by
  cases u <;> rfl

theorem aggregateOne_eq (dst src : StatsMetric) :
    aggregateOne dst src = ⟨dst.type, (aggregateOne dst src).value⟩ := by
  unfold aggregateOne
  split
  · rfl
  · rfl
  · split <;> rfl

/-- **A step of the whole is a step of each metric.** -/
theorem Stats.Has.step {st : Stats} {field : StatsField} {k : Copies} (h : st.Has field k)
    (s : StatsStep) :
    (st.step s).Has field (k.step field s) := by
  cases s with
  | update other u =>
    by_cases hf : other = field
    · subst hf
      rw [Copies.step, if_pos rfl]
      refine ⟨?_, h.shadow, h.sum, h.aggregate, rfl⟩
      change other.get (other.modify st.current u.apply) = _
      rw [StatsField.get_modify_self, h.current, Option.map_some, u.apply_eq]
    · rw [Copies.step, if_neg hf]
      refine ⟨?_, h.shadow, h.sum, h.aggregate, rfl⟩
      change field.get (other.modify st.current u.apply) = _
      rw [StatsField.get_modify_ne _ _ (Ne.symm hf), h.current]
  | swap =>
    simp only [Stats.step, statsSwap, Copies.step, h.aggregate, h.updated]
    split
    · exact h
    · split
      · exact h
      · refine ⟨?_, h.current, h.sum, rfl, rfl⟩
        change field.get (statsPoolReset st.shadow) = _
        rw [StatsField.get_reset, h.shadow]
        rfl
  | aggregate =>
    simp only [Stats.step, statsAggregate, Copies.step, h.aggregate]
    split
    · exact h
    · refine ⟨h.current, h.shadow, ?_, rfl, h.updated⟩
      change field.get (arrayMerge statsAggregatePool st.sum st.shadow) = _
      rw [StatsField.get_aggregate h.sum h.shadow, aggregateOne_eq]

/-! ### What was done to a metric -/

/-- The change of the metric in a step. -/
def StatsStep.deltaAt (field : StatsField) : StatsStep → BitVec 64
  | .update other u => if other = field then u.delta else 0
  | _ => 0

/-- **The net of all updates** of the metric. -/
def net (field : StatsField) (steps : List StatsStep) : BitVec 64 :=
  (steps.map (StatsStep.deltaAt field)).sum

/-- The value set in a step, or the one before. -/
def StatsStep.setAt (field : StatsField) (before : BitVec 64) : StatsStep → BitVec 64
  | .update other (.setTs val) => if other = field then val else before
  | _ => before

/-- **The last value set**, zero if there was none. -/
def lastSet (field : StatsField) (steps : List StatsStep) : BitVec 64 :=
  steps.foldl (StatsStep.setAt field) 0

/-- The step sets the metric to a value other than zero, if it sets it. -/
def StatsStep.Nonzero (field : StatsField) (s : StatsStep) : Prop :=
  ∀ val, s = .update field (.setTs val) → val ≠ 0

/-- The step meets the assertion on the type, for a metric of type `t`. -/
def StatsStep.Admits (field : StatsField) (t : StatsType) (s : StatsStep) : Prop :=
  ∀ u, s = .update field u → u.Allowed t

namespace Copies

variable {field : StatsField} {k : Copies} {s : StatsStep}

theorem step_type : (k.step field s).type = k.type := by
  cases s with
  | update =>
    simp only [step]
    split <;> rfl
  | swap =>
    simp only [step]
    split
    · rfl
    · split <;> rfl
  | aggregate =>
    simp only [step]
    split <;> rfl

/-- **A step changes what a counter or a gauge is worth by its change.** -/
theorem step_total (ht : k.type ≠ .timestamp) (hs : s.Admits field k.type) :
    (k.step field s).total = k.total + s.deltaAt field := by
  cases s with
  | update other u =>
    by_cases hf : other = field
    · simp only [step, if_pos hf, StatsStep.deltaAt]
      have hallowed := hs u (by rw [hf])
      cases u with
      | incr => simp [total, StatsUpdate.apply, StatsUpdate.delta, BitVec.add_assoc]
      | decr => simp [total, StatsUpdate.apply, StatsUpdate.delta, BitVec.add_assoc,
          BitVec.sub_eq_add_neg]
      | incrBy => simp [total, StatsUpdate.apply, StatsUpdate.delta, BitVec.add_assoc]
      | decrBy =>
        simp [total, StatsUpdate.apply, StatsUpdate.delta, BitVec.add_assoc, BitVec.sub_eq_add_neg]
      | setTs => exact absurd hallowed ht
    · simp [step, if_neg hf, StatsStep.deltaAt, total]
  | swap =>
    simp only [step, StatsStep.deltaAt]
    split
    · simp
    · next hagg =>
      split
      · simp
      · simp [total, hagg]
  | aggregate =>
    simp only [step, StatsStep.deltaAt]
    split
    · simp
    · next hagg =>
      have hone : (aggregateOne ⟨k.type, k.sum⟩ ⟨k.type, k.shadow⟩).value = k.sum + k.shadow := by
        unfold aggregateOne
        split
        · rfl
        · rfl
        · next h => exact absurd h ht
      simp [total, hone, Bool.eq_true_of_not_eq_false hagg]

/-- **A step leaves the latest value of a timestamp**, unless it sets it. -/
theorem step_latest (ht : k.type = .timestamp) (hs : s.Admits field k.type)
    (hne : s.Nonzero field) :
    (k.step field s).latest = s.setAt field k.latest := by
  cases s with
  | update other u =>
    by_cases hf : other = field
    · have hallowed := hs u (by rw [hf])
      rw [ht] at hallowed
      cases u with
      | setTs val =>
        have hval := hne val (by rw [hf])
        simp only [step, StatsStep.setAt, latest, StatsUpdate.apply, if_pos hf, if_pos hval]
      | incr => rcases hallowed with h | h <;> cases h
      | incrBy => rcases hallowed with h | h <;> cases h
      | decr => cases hallowed
      | decrBy => cases hallowed
    · cases u <;> simp [step, if_neg hf, StatsStep.setAt, latest]
  | swap =>
    simp only [step, StatsStep.setAt]
    split
    · rfl
    · next hagg =>
      split
      · rfl
      · simp [latest, hagg]
  | aggregate =>
    simp only [step, StatsStep.setAt]
    split
    · rfl
    · next hagg =>
      have htrue := Bool.eq_true_of_not_eq_false hagg
      have hone : (aggregateOne ⟨k.type, k.sum⟩ ⟨k.type, k.shadow⟩).value =
          if k.shadow ≠ 0 then k.shadow else k.sum := by
        simp only [aggregateOne, ht]
        split <;> rfl
      simp [latest, hone, htrue]

end Copies

/-! ### Runs -/

/-- What holds of a metric after the steps. -/
structure Tallied (field : StatsField) (t : StatsType) (steps : List StatsStep) (k : Copies) :
    Prop where
  type : k.type = t
  total : t ≠ .timestamp → k.total = net field steps
  latest : t = .timestamp → (∀ s ∈ steps, s.Nonzero field) → k.latest = lastSet field steps

theorem Tallied.step {field : StatsField} {t : StatsType} {steps : List StatsStep} {k : Copies}
    {s : StatsStep} (h : Tallied field t steps k) (hs : s.Admits field t) :
    Tallied field t (steps ++ [s]) (k.step field s) where
  type := Copies.step_type.trans h.type
  total ht := by
    rw [Copies.step_total (h.type ▸ ht) (h.type ▸ hs), h.total ht]
    simp [net]
  latest ht hne := by
    rw [Copies.step_latest (h.type.trans ht) (h.type ▸ hs) (hne s (by simp)),
      h.latest ht fun x hx => hne x (by simp [hx])]
    simp [lastSet]

/-- **Nothing is lost and nothing is counted twice**: in every interleaving of the two threads, for
every metric of every pool and server, `sum`, `shadow` until it is added, and `current` are together
the net of all updates; and of a timestamp that is never set to zero the first value that is not
zero is the last one set. -/
theorem stats_conserved {ps : List StatsPool} {field : StatsField} {m : StatsMetric}
    (there : field.get ps = some m) {steps : List StatsStep} (valid : ∀ s ∈ steps, s.Valid ps) :
    ∃ k, ((statsCreate ps).run steps).Has field k ∧ k.type = m.type ∧
      (m.type ≠ .timestamp → k.sum + (if k.aggregate then k.shadow else 0) + k.current =
        net field steps) ∧
      (m.type = .timestamp → (∀ s ∈ steps, s.Nonzero field) → k.latest = lastSet field steps) := by
  suffices h : ∃ k, ((statsCreate ps).run steps).Has field k ∧ Tallied field m.type steps k by
    obtain ⟨k, hk, htallied⟩ := h
    exact ⟨k, hk, htallied.type, htallied.total, htallied.latest⟩
  induction steps using List.reverseRecOn with
  | nil =>
    have hzero : field.get (statsPoolReset ps) = some ⟨m.type, 0⟩ := by
      rw [StatsField.get_reset, there]
      rfl
    refine ⟨⟨m.type, 0, 0, 0, false, false⟩, ⟨hzero, hzero, hzero, rfl, rfl⟩, rfl, fun _ => ?_,
      fun _ _ => ?_⟩
    · simp [Copies.total, net]
    · simp [Copies.latest, lastSet]
  | append_singleton steps s ih =>
    obtain ⟨k, hk, htallied⟩ := ih fun x hx => valid x (by simp [hx])
    have hadmits : s.Admits field m.type := by
      rintro u rfl
      obtain ⟨m', hm', hallowed⟩ := valid (.update field u) (by simp)
      cases there.symm.trans hm'
      exact hallowed
    refine ⟨k.step field s, ?_, htallied.step hadmits⟩
    rw [Stats.run, List.foldl_append]
    exact hk.step s

/-- A gauge that is raised, put aside, lowered before it is added, and raised again. -/
theorem stats_conserved_gauge :
    ∃ k, ((statsCreate [⟨[⟨.gauge, 0⟩], []⟩]).run
        [.update (.pool 0 0) .incr, .swap, .update (.pool 0 0) .decr, .aggregate,
          .update (.pool 0 0) (.incrBy 5)]).Has (.pool 0 0) k ∧
      k.sum + (if k.aggregate then k.shadow else 0) + k.current = 5 := by
  obtain ⟨k, hk, -, htotal, -⟩ := stats_conserved (m := ⟨.gauge, 0⟩)
    (show StatsField.get [⟨[⟨.gauge, 0⟩], []⟩] (.pool 0 0) = _ from rfl)
    (show ∀ s ∈ [.update (.pool 0 0) .incr, .swap, .update (.pool 0 0) .decr,
      .aggregate, .update (.pool 0 0) (.incrBy 5)], StatsStep.Valid _ s by
      simp [StatsStep.Valid, StatsField.get, StatsUpdate.Allowed])
  exact ⟨k, hk, htotal (by decide)⟩

end CacheProxy
