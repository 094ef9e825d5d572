/-
**Keys that move when a server goes.**

The ring of the distribution ketama is sorted by the values of its points, and a hash belongs to the
first point that is not smaller, or to the first of all if there is none: its successor on a circle.
When a server goes, its points are taken out of the ring and the others stay; a hash whose successor
was another server's point still has that point for its successor.

Main definitions:

* `clockwise` — the successor of a hash on a sorted ring;
* `ketamaPoints` — the points of the live servers, before they are sorted.

Main results:

* `ketamaDispatch_eq`, `ketamaDispatch_clockwise` — the binary search with its wrap finds the
  successor;
* `clockwise_filter` — the successor after other points are taken out;
* `ketama_moves` — **only the keys of the server that goes are moved**.
-/

import CacheProxy.ServerPool
import Mathlib.Data.List.Sort

namespace CacheProxy

/-! ### Successors on a circle -/

section Circle

variable {ring : List RingEntry} {hash : ℕ}

/-- **The successor of a hash** on a sorted ring. -/
def clockwise (hash : ℕ) (ring : List RingEntry) : Option RingEntry :=
  (ring.find? fun e => hash ≤ e.value).or ring.head?

/-- The ring is sorted by the values. -/
def SortedRing (ring : List RingEntry) : Prop := ring.Pairwise fun e f => e.value ≤ f.value

/-- A successor that is not taken out stays the successor. -/
theorem clockwise_filter {e : RingEntry} (keep : RingEntry → Bool)
    (h : clockwise hash ring = some e)
    (he : keep e = true) : clockwise hash (ring.filter keep) = some e := by
  rw [clockwise] at h ⊢
  rw [List.find?_filter]
  cases hf : ring.find? fun e => decide (hash ≤ e.value) with
  | some f =>
    rw [hf, Option.some_or, Option.some.injEq] at h
    subst h
    have hfind : ring.find? (fun a => decide (keep a = true ∧ decide (hash ≤ a.value) = true)) =
      some f := by
      obtain ⟨hp, i, hi, hget, hbefore⟩ := List.find?_eq_some_iff_getElem.mp hf
      refine List.find?_eq_some_iff_getElem.mpr
        ⟨by simp [he, of_decide_eq_true hp], i, hi, hget, fun j hj => ?_⟩
      have hj := hbefore j hj
      simp only [Bool.not_eq_eq_eq_not, Bool.not_true, decide_eq_false_iff_not] at hj ⊢
      exact fun hboth => hj (of_decide_eq_true hboth.2)
    rw [hfind, Option.some_or]
  | none =>
    rw [hf, Option.none_or] at h
    have hfind : ring.find? (fun a => decide (keep a = true ∧ decide (hash ≤ a.value) = true)) =
      none := by
      rw [List.find?_eq_none] at hf ⊢
      intro x hx hboth
      exact hf x hx (of_decide_eq_true hboth).2
    cases ring with
    | nil => cases h
    | cons =>
      cases h
      rw [hfind, Option.none_or, List.filter_cons_of_pos he, List.head?_cons]

/-- Sorted rings with the same points, no two of the same value, are the same. -/
theorem SortedRing.eq_of_perm {ring' : List RingEntry} (h : SortedRing ring) (h' : SortedRing ring')
    (hperm : ring.Perm ring') (hnodup : (ring.map RingEntry.value).Nodup) : ring = ring' := by
  refine hperm.eq_of_pairwise (fun a b ha hb hab hba => ?_) h h'
  exact List.inj_on_of_nodup_map hnodup ha (hperm.mem_iff.mpr hb) (le_antisymm hab hba)

end Circle

/-! ### Binary search -/

section Search

variable {mem : List (Option RingEntry)} {ring : List RingEntry} {hash : ℕ}

/-- The memory holds the ring. -/
theorem getElem?_of_take (hmem : mem.take ring.length = ring.map some) {i : ℕ}
    (hi : i < ring.length) :
    mem[i]? = some (some ring[i]) := by
  have hget : (mem.take ring.length)[i]? = mem[i]? := List.getElem?_take_of_lt hi
  rw [← hget, hmem, List.getElem?_map, List.getElem?_eq_getElem hi, Option.map_some]

/-- **A run of the loop of `ketama_dispatch`** that comes to its end, with the value of `right`
there; every entry that it reads is written. -/
inductive KetamaLoop (mem : List (Option RingEntry)) (hash : ℕ) : ℕ → ℕ → ℕ → Prop
  | done {left right : ℕ} : ¬left < right → KetamaLoop mem hash left right right
  | up {left right last : ℕ} {e : RingEntry} : left < right →
      mem[left + (right - left) / 2]? = some (some e) →
      e.value < hash → KetamaLoop mem hash (left + (right - left) / 2 + 1) right last →
      KetamaLoop mem hash left right last
  | down {left right last : ℕ} {e : RingEntry} : left < right →
      mem[left + (right - left) / 2]? = some (some e) →
      ¬e.value < hash → KetamaLoop mem hash left (left + (right - left) / 2) last →
      KetamaLoop mem hash left right last

/-- Every point before the first that is not smaller, and none behind it, is smaller than the
hash. -/
theorem SortedRing.value_lt_iff (hs : SortedRing ring) {i : ℕ} (hi : i < ring.length) :
    ring[i].value < hash ↔ i < ring.findIdx fun e => hash ≤ e.value := by
  constructor
  · intro hval
    by_contra hle
    have hidx : (ring.findIdx fun e => hash ≤ e.value) < ring.length := by omega
    have hfound : hash ≤ ring[ring.findIdx fun e => hash ≤ e.value].value := by
      simpa using List.findIdx_getElem (p := fun e : RingEntry => decide (hash ≤ e.value))
        (w := hidx)
    rcases Nat.lt_or_eq_of_le (not_lt.mp hle) with hcmp | heq
    · have := List.pairwise_iff_getElem.mp hs _ _ hidx hi hcmp
      omega
    · simp only [heq] at hfound
      omega
  · intro hlt
    have hbefore := List.not_of_lt_findIdx hlt
    simp only [decide_eq_false_iff_not] at hbefore
    omega

/-- **The loop** comes to its end, at the first point that is not smaller. -/
theorem ketamaLoop_findIdx (hmem : mem.take ring.length = ring.map some) (hs : SortedRing ring)
    {width : ℕ} :
    ∀ {left right : ℕ}, right - left ≤ width → left ≤ (ring.findIdx fun e => hash ≤ e.value) →
      (ring.findIdx fun e => hash ≤ e.value) ≤ right → right ≤ ring.length →
      KetamaLoop mem hash left right (ring.findIdx fun e => hash ≤ e.value) := by
  induction width with
  | zero =>
    intro left right hwidth hl hr hlen
    have heq : (ring.findIdx fun e => hash ≤ e.value) = right := by omega
    rw [heq]
    exact .done (by omega)
  | succ width ih =>
    intro left right hwidth hl hr hlen
    by_cases hlt : left < right
    · have hmiddle : left + (right - left) / 2 < ring.length := by omega
      have hread := getElem?_of_take hmem hmiddle
      by_cases hval : ring[left + (right - left) / 2].value < hash
      · have hbelow := (hs.value_lt_iff hmiddle).mp hval
        exact .up hlt hread hval (ih (by omega) hbelow hr hlen)
      · have habove := mt (hs.value_lt_iff hmiddle).mpr hval
        exact .down hlt hread hval (ih (by omega) hl (not_lt.mp habove) (by omega))
    · have heq : (ring.findIdx fun e => hash ≤ e.value) = right := by omega
      rw [heq]
      exact .done hlt

/-- A run of the loop is what the function computes with as many rounds as there are entries. -/
theorem KetamaLoop.search {left right last : ℕ} (h : KetamaLoop mem hash left right last) :
    ∀ {fuel : ℕ}, right ≤ left + fuel → ketamaSearch mem hash fuel left right = some last := by
  induction h with
  | done hend =>
    intro fuel _
    cases fuel with
    | zero => rfl
    | succ => rw [ketamaSearch, if_neg hend]
  | up hlt hread hval _ ih =>
    intro fuel hfuel
    cases fuel with
    | zero => omega
    | succ =>
      rw [ketamaSearch, if_pos hlt]
      dsimp only
      rw [hread]
      dsimp only
      rw [if_pos hval]
      exact ih (by omega)
  | down hlt hread hval _ ih =>
    intro fuel hfuel
    cases fuel with
    | zero => omega
    | succ =>
      rw [ketamaSearch, if_pos hlt]
      dsimp only
      rw [hread]
      dsimp only
      rw [if_neg hval]
      exact ih (by omega)

/-- **`ketama_dispatch` finds the successor.** -/
theorem ketamaDispatch_eq (hmem : mem.take ring.length = ring.map some) (hs : SortedRing ring) :
    ketamaDispatch mem ring.length hash = (clockwise hash ring).map RingEntry.index := by
  cases hring : ring with
  | nil => rfl
  | cons =>
  rw [← hring]
  have hpos : 0 < ring.length := by simp [hring]
  have hle : (ring.findIdx fun e => hash ≤ e.value) ≤ ring.length := List.findIdx_le_length
  have hloop : KetamaLoop mem hash 0 ring.length _ :=
    ketamaLoop_findIdx hmem hs (le_refl _) (Nat.zero_le _) hle (le_refl _)
  rw [ketamaDispatch, if_neg hpos.ne', hloop.search (by omega), clockwise,
    List.find?_eq_getElem?_findIdx]
  dsimp only
  by_cases hend : (ring.findIdx fun e => hash ≤ e.value) = ring.length
  · rw [if_pos hend, hend, List.getElem?_eq_none (le_refl _), Option.none_or,
      getElem?_of_take hmem hpos,
      List.head?_eq_getElem?, List.getElem?_eq_getElem hpos]
    rfl
  · have hlt : (ring.findIdx fun e => hash ≤ e.value) < ring.length := by omega
    rw [if_neg hend, getElem?_of_take hmem hlt, List.getElem?_eq_getElem hlt]
    rfl

/-- **`ketama_dispatch` is the clockwise successor.**  On every array that holds a sorted ring and
nothing else, for every hash, the loop comes to its end, reads only entries of the array, and the
index is that of the first entry whose value is at least the hash, or of the first entry of all. -/
theorem ketamaDispatch_clockwise (hne : ring ≠ []) (hs : SortedRing ring) (hash : ℕ) :
    (∃ last, KetamaLoop (ring.map some) hash 0 ring.length last ∧
      ketamaSearch (ring.map some) hash ring.length 0 ring.length = some last) ∧
      ∃ e, clockwise hash ring = some e ∧
        ketamaDispatch (ring.map some) ring.length hash = some e.index := by
  have hmem : (ring.map some).take ring.length = ring.map some := List.take_of_length_le (by simp)
  have hloop : KetamaLoop (ring.map some) hash 0 ring.length _ :=
    ketamaLoop_findIdx hmem hs (le_refl _) (Nat.zero_le _) List.findIdx_le_length (le_refl _)
  refine ⟨⟨_, hloop, hloop.search (by omega)⟩, ?_⟩
  cases hc : clockwise hash ring with
  | none =>
    rw [clockwise, Option.or_eq_none_iff, List.head?_eq_none_iff] at hc
    exact absurd hc.2 hne
  | some e => exact ⟨e, rfl, by rw [ketamaDispatch_eq hmem hs, hc, Option.map_some]⟩

/-- Two points of one value: the leftmost is found, and a hash above all of them wraps. -/
theorem ketamaDispatch_clockwise_twins :
    (∃ e, clockwise 5 [⟨2, 3⟩, ⟨0, 7⟩, ⟨1, 7⟩] = some e ∧ e.index = 0) ∧
      ∃ e, clockwise 8 [⟨2, 3⟩, ⟨0, 7⟩, ⟨1, 7⟩] = some e ∧
        ketamaDispatch ([⟨2, 3⟩, ⟨0, 7⟩, ⟨1, 7⟩].map some) 3 8 = some e.index :=
  ⟨⟨_, rfl, rfl⟩, (ketamaDispatch_clockwise (by decide) (by unfold SortedRing; decide) 8).2⟩

end Search

/-! ### Rebuilding a ketama ring -/

/-- `qsort` sorts. -/
structure Sorts (env : Hashing) : Prop where
  perm : ∀ es, (env.qsort es).Perm es
  sorted : ∀ es, SortedRing (env.qsort es)

/-- The values of the points that a server would have in a rebuild. -/
def ServerPool.values (env : Hashing) (p : ServerPool) (now : ℤ) (s : PoolServer) : List ℕ :=
  pointValues env (liveWeight p.autoEjectHosts now p.server % 2 ^ 32)
    (p.server.countP (IsLive p.autoEjectHosts now)) s

/-- **The points of the live servers**, before they are sorted. -/
def ketamaPoints (env : Hashing) (p : ServerPool) (now : ℤ) : List RingEntry :=
  ringOf p.autoEjectHosts now (fun i s => (p.values env now s).map fun v => ⟨i, v⟩) 0 p.server

/-- What is the same for all rings of a pool. -/
structure SamePool (p₀ p : ServerPool) : Prop where
  distType : p.distType = p₀.distType
  autoEjectHosts : p.autoEjectHosts = p₀.autoEjectHosts
  servers : p.server.length = p₀.server.length
  lt : p.continuum.length < 2 ^ 32

/-- What a rebuild with a live server leaves. -/
structure KetamaBuilt (env : Hashing) (es : List RingEntry) (p' : ServerPool) : Prop where
  ncontinuum : p'.ncontinuum = es.length
  take : p'.continuum.take p'.ncontinuum = (env.qsort es).map some

section Rebuilding

variable {env : Hashing} {p₀ p p' : ServerPool} {sys : Sys}

/-- The second half of a rebuild. -/
theorem ketama_rebuild (hk : p.distType = .ketama) (hsort : Sorts env) {total : ℕ} {now : ℤ}
    {st : RStatus}
    (hlen : p.continuum.length < 2 ^ 32) (h : rebuild env p total now = some (st, p')) :
    KetamaBuilt env (ringOf p.autoEjectHosts now
        (fun i s => (pointValues env total p.nliveServer s).map fun v => ⟨i, v⟩) 0 p.server) p' ∧
      SamePool p p' := by
  generalize hes : ringOf p.autoEjectHosts now
    (fun i s => (pointValues env total p.nliveServer s).map fun v => ⟨i, v⟩) 0 p.server = es
  have hplace := place_eq p.autoEjectHosts now
    (fun i s => DistType.ketama.entries env total p.nliveServer i s) p.server 0 hlen (Nat.zero_le _)
  simp only [DistType.entries, hes, Nat.zero_add] at hplace
  simp only [rebuild, hk, DistType.entries, hplace] at h
  split at h
  · cases h
  · next hsome =>
    split at hsome
    · next hfit =>
      cases hsome
      cases h
      have htake : (overwrite p.continuum 0 es).take es.length = es.map some := by simp [overwrite]
      have hperm := (hsort.perm es).length_eq
      have hover : (overwrite p.continuum 0 es).length = p.continuum.length :=
        length_overwrite (by omega)
      have hfinish : DistType.ketama.finish env (overwrite p.continuum 0 es) es.length =
          (env.qsort es).map some ++ (overwrite p.continuum 0 es).drop es.length := by
        simp only [DistType.finish, htake, List.filterMap_map, Function.comp_def, id,
          List.filterMap_some]
      refine ⟨⟨rfl, ?_⟩, ⟨hk.symm, rfl, rfl, ?_⟩⟩
      · simp only [hfinish]
        rw [List.take_left' (by simp [hperm])]
      · simp only [hfinish, List.length_append, List.length_map, List.length_drop, hover, hperm]
        omega
    · cases hsome

theorem SamePool.trans {p'' : ServerPool} (h : SamePool p₀ p) (h' : SamePool p p'') :
    SamePool p₀ p'' :=
  ⟨h'.distType.trans h.distType, h'.autoEjectHosts.trans h.autoEjectHosts,
    h'.servers.trans h.servers, h'.lt⟩

theorem pointValues_settle {eject : Bool} {now : ℤ} (total live : ℕ) (s : PoolServer) :
    pointValues env total live (settle eject now s) = pointValues env total live s := by
  simp only [pointValues, settle_weight, settle_name]

theorem points_settle {eject : Bool} {now : ℤ} (hnow : 0 ≤ now) (total live k : ℕ)
    (ss : List PoolServer) :
    ringOf eject now (fun i s => (pointValues env total live s).map fun v => ⟨i, v⟩) k
        (ss.map (settle eject now)) =
      ringOf eject now (fun i s => (pointValues env total live s).map fun v => ⟨i, v⟩) k ss := by
  induction ss generalizing k with
  | nil => rfl
  | cons s ss ih =>
      rw [List.map_cons, ringOf_cons, ringOf_cons, ih, live_settle hnow, pointValues_settle]

/-- **A rebuild of a ketama ring.** -/
theorem ketama_run (hk : p.distType = .ketama) (hsort : Sorts env)
    (hlen : p.continuum.length < 2 ^ 32)
    {st : RStatus} (h : serverPoolRun env p sys = some (st, p')) :
    SamePool p p' ∧ (st = .ok → p.server.any (IsLive p.autoEjectHosts sys.now) = true →
      KetamaBuilt env (ketamaPoints env p sys.now) p') := by
  rw [serverPoolRun] at h
  split at h
  · cases h
    exact ⟨⟨rfl, rfl, rfl, hlen⟩, fun h => by cases h⟩
  · next hnow =>
    obtain ⟨hserver, hlive, htotal⟩ := scan_eq p.autoEjectHosts (not_lt.mp hnow) p.server
    have hsame : p.server.length = (p.server.map (settle p.autoEjectHosts sys.now)).length := by
      simp
    simp only [hserver, hlive, htotal] at h
    split at h
    · next hzero =>
      cases h
      refine ⟨⟨rfl, rfl, hsame.symm, hlen⟩, fun _ hany => ?_⟩
      exact absurd hzero (List.countP_pos_iff.mpr (List.any_eq_true.mp hany)).ne'
    · split at h
      · split at h
        · have hlt : (ncRealloc p.continuum
            ((p.distType.needed (scanServers p.autoEjectHosts sys.now p.server) +
              continuumAddition) % 2 ^ 32 * p.distType.pointsPerServer % 2 ^ 32)).length <
                2 ^ 32 := by
            rw [length_ncRealloc]
            exact Nat.mod_lt _ (by norm_num)
          obtain ⟨hbuilt, hpool⟩ := ketama_rebuild (by exact hk) hsort (by exact hlt) h
          refine ⟨⟨hpool.distType, hpool.autoEjectHosts, hpool.servers.trans hsame.symm, hpool.lt⟩,
            fun _ _ => ?_⟩
          simp only [points_settle (not_lt.mp hnow)] at hbuilt
          exact hbuilt
        · cases h
          exact ⟨⟨rfl, rfl, hsame.symm, hlen⟩, fun h => by cases h⟩
      · obtain ⟨hbuilt, hpool⟩ := ketama_rebuild (by exact hk) hsort (by exact hlen) h
        refine ⟨⟨hpool.distType, hpool.autoEjectHosts, hpool.servers.trans hsame.symm, hpool.lt⟩,
          fun _ _ => ?_⟩
        simp only [points_settle (not_lt.mp hnow)] at hbuilt
        exact hbuilt

/-- **A step of a history** leaves the pool the same. -/
theorem SamePool.step (hk : p₀.distType = .ketama) (hsort : Sorts env) (h : SamePool p₀ p)
    {step : RingStep}
    (hstep : p.ringStep env step = some p') : SamePool p₀ p' := by
  cases step with
  | retry =>
    cases hstep
    exact ⟨h.distType, h.autoEjectHosts, by simpa using h.servers, h.lt⟩
  | run =>
    obtain ⟨⟨st, q⟩, hrun, rfl⟩ := Option.map_eq_some_iff.mp hstep
    exact h.trans (ketama_run (h.distType.trans hk) hsort h.lt hrun).1

theorem SamePool.ringRun (hk : p₀.distType = .ketama) (hsort : Sorts env) (hf : Fresh p₀)
    {steps : List RingStep} (h : p₀.ringRun env steps = some p) : SamePool p₀ p :=
  foldlM_preserves (SamePool p₀) (fun _ _ _ hq hstep => hq.step hk hsort hstep) steps
    ⟨rfl, rfl, rfl, by rw [hf.continuum]; norm_num⟩ h

end Rebuilding

/-! ### A server goes -/

/-- The points of the others, when a server goes. -/
theorem filter_points {eject eject' : Bool} {now now' : ℤ} {values values' : PoolServer → List ℕ}
    {s : ℕ}
    (ss ts : List PoolServer) (k : ℕ) (hlen : ss.length = ts.length)
    (gone : ∀ (i : ℕ) a b, ss[i]? = some a → ts[i]? = some b →
      (IsLive eject' now' b = true ↔ IsLive eject now a = true ∧ k + i ≠ s))
    (same : ∀ (i : ℕ) a b, ss[i]? = some a → ts[i]? = some b → IsLive eject' now' b = true →
      values a = values' b) :
    (ringOf eject now (fun i a => (values a).map fun v => ⟨i, v⟩) k ss).filter
      (fun e => e.index ≠ s) =
      ringOf eject' now' (fun i b => (values' b).map fun v => ⟨i, v⟩) k ts := by
  induction ss generalizing ts k with
  | nil =>
    cases ts with
    | nil => rfl
    | cons => cases hlen
  | cons a ss ih =>
    cases ts with
    | nil => cases hlen
    | cons b ts =>
      rw [ringOf_cons, ringOf_cons, List.filter_append, ih ts (k + 1) (Nat.succ.inj hlen)
        (fun i x y hx hy => by
          rw [gone (i + 1) x y (by simpa using hx) (by simpa using hy)]
          simp [Nat.add_assoc, Nat.add_comm 1])
        (fun i x y hx hy => same (i + 1) x y (by simpa using hx) (by simpa using hy))]
      congr 1
      have hgone := gone 0 a b rfl rfl
      rw [Nat.add_zero] at hgone
      by_cases hb : IsLive eject' now' b = true
      · obtain ⟨ha, hne⟩ := hgone.mp hb
        rw [if_pos ha, if_pos hb, same 0 a b rfl rfl hb]
        refine List.filter_eq_self.mpr fun e he => ?_
        obtain ⟨v, -, rfl⟩ := List.mem_map.mp he
        simpa using hne
      · rw [if_neg hb]
        split
        · next ha =>
          have hk : k = s := by
            by_contra hne
            exact hb (hgone.mpr ⟨ha, hne⟩)
          refine List.filter_eq_nil_iff.mpr fun e he => ?_
          obtain ⟨v, -, rfl⟩ := List.mem_map.mp he
          simp [hk]
        · rfl

/-- **Only the keys of the server that goes are moved.**  In two rebuilds of a pool, with the same
points of every server that is live in the second and all values different, a hash that belongs to
another server than `s` in the first belongs to the same server in the second. -/
theorem ketama_moves {env : Hashing} (sorts : Sorts env) {p₀ p q p₁ q₁ : ServerPool}
    (fresh : Fresh p₀)
    (ketama : p₀.distType = .ketama) {steps steps' : List RingStep}
    (hp : p₀.ringRun env steps = some p)
    (hq : p₀.ringRun env steps' = some q) {sys sys' : Sys}
    (first : serverPoolRun env p sys = some (.ok, p₁))
    (second : serverPoolRun env q sys' = some (.ok, q₁))
    {s : ℕ} (gone : ∀ (i : ℕ) a b, p.server[i]? = some a → q.server[i]? = some b →
      (IsLive q.autoEjectHosts sys'.now b = true ↔ IsLive p.autoEjectHosts sys.now a = true ∧
        i ≠ s))
    (left : q.server.any (IsLive q.autoEjectHosts sys'.now) = true)
    (same : ∀ (i : ℕ) a b, p.server[i]? = some a → q.server[i]? = some b →
      IsLive q.autoEjectHosts sys'.now b = true → p.values env sys.now a = q.values env sys'.now b)
    (distinct : ((ketamaPoints env p sys.now).map RingEntry.value).Nodup) {hash i : ℕ}
    (h : ketamaDispatch p₁.continuum p₁.ncontinuum hash = some i) (hi : i ≠ s) :
    ketamaDispatch q₁.continuum q₁.ncontinuum hash = some i := by
  have hsame := SamePool.ringRun ketama sorts fresh hp
  have hsame' := SamePool.ringRun ketama sorts fresh hq
  have hlen : p.server.length = q.server.length := hsame.servers.trans hsame'.servers.symm
  -- A server that is live in the second rebuild is live in the first.
  have hany : p.server.any (IsLive p.autoEjectHosts sys.now) = true := by
    obtain ⟨b, hb, hlive⟩ := List.any_eq_true.mp left
    obtain ⟨j, hj, rfl⟩ := List.mem_iff_getElem.mp hb
    exact List.any_eq_true.mpr ⟨p.server[j], List.getElem_mem _,
      ((gone j _ _ (List.getElem?_eq_getElem (hlen ▸ hj)) (List.getElem?_eq_getElem hj)).mp
        hlive).1⟩
  have hbuilt := (ketama_run (hsame.distType.trans ketama) sorts hsame.lt first).2 rfl hany
  have hbuilt' := (ketama_run (hsame'.distType.trans ketama) sorts hsame'.lt second).2 rfl left
  have hpoints : (ketamaPoints env p sys.now).filter (fun e => e.index ≠ s) =
    ketamaPoints env q sys'.now :=
    filter_points p.server q.server 0 hlen (by simpa using gone) same
  have hperm := sorts.perm (ketamaPoints env p sys.now)
  have hperm' := sorts.perm (ketamaPoints env q sys'.now)
  -- The second ring is the first without the points of `s`.
  have hring : (env.qsort (ketamaPoints env p sys.now)).filter (fun e => e.index ≠ s) =
      env.qsort (ketamaPoints env q sys'.now) := by
    refine SortedRing.eq_of_perm (List.Pairwise.filter _ (sorts.sorted _)) (sorts.sorted _) ?_ ?_
    · rw [← hpoints] at hperm' ⊢
      exact (hperm.filter _).trans hperm'.symm
    · exact (((hperm.map _).nodup_iff).mpr distinct).sublist (List.filter_sublist.map _)
  have hn := hbuilt.ncontinuum.trans hperm.length_eq.symm
  have hn' := hbuilt'.ncontinuum.trans hperm'.length_eq.symm
  rw [hn, ketamaDispatch_eq (hn ▸ hbuilt.take) (sorts.sorted _)] at h
  obtain ⟨e, he, rfl⟩ := Option.map_eq_some_iff.mp h
  rw [hn', ketamaDispatch_eq (hn' ▸ hbuilt'.take) (sorts.sorted _), ← hring,
    clockwise_filter _ he (by simpa using hi)]
  rfl

/-- Points that are made of a number and the length of the name, and a sort by insertion. -/
def insertionHashing : Hashing :=
  { keyHash := List.length
    ketamaHash := fun name j x => 100 * j + 10 * x + name.length
    ketamaHosts := fun _ _ _ => 1
    qsort := List.insertionSort fun e f => e.value ≤ f.value }

theorem insertionHashing_sorts : Sorts insertionHashing where
  perm es := List.perm_insertionSort _ es
  sorted es := by
    have : Std.Total fun e f : RingEntry => e.value ≤ f.value := ⟨fun e f => Nat.le_total _ _⟩
    have : IsTrans RingEntry fun e f => e.value ≤ f.value := ⟨fun e f g => Nat.le_trans⟩
    exact List.pairwise_insertionSort (fun e f : RingEntry => e.value ≤ f.value) es

/-- Two servers, with names of different lengths. -/
def ketamaPair : ServerPool :=
  { server := [{ name := [65], weight := 1 }, { name := [66, 66], weight := 1 }],
    distType := .ketama }

/-- Both servers are live, and a hash belongs to the second. -/
theorem ketamaPair_run : ∃ p₁, serverPoolRun insertionHashing ketamaPair ⟨1, true⟩ = some
    (.ok, p₁) ∧
    ketamaDispatch p₁.continuum p₁.ncontinuum 2 = some 1 := by
  have hrun : ((serverPoolRun insertionHashing ketamaPair ⟨1, true⟩).map fun m =>
      (m.1, ketamaDispatch m.2.continuum m.2.ncontinuum 2)) = some (.ok, some 1) := by
        decide +kernel
  obtain ⟨⟨st, p₁⟩, hp₁, heq⟩ := Option.map_eq_some_iff.mp hrun
  simp only [Prod.mk.injEq] at heq
  exact ⟨p₁, by rw [hp₁, heq.1], heq.2⟩

/-- The first server goes, and a key of the second stays. -/
theorem ketama_moves_pair :
    ∃ q q₁, ketamaPair.ringRun insertionHashing [.retry fun i => if i = 0 then 9 else 0] = some q ∧
      serverPoolRun insertionHashing q ⟨1, true⟩ = some (.ok, q₁) ∧
      ketamaDispatch q₁.continuum q₁.ncontinuum 2 = some 1 := by
  obtain ⟨p₁, hp₁, hdispatch⟩ := ketamaPair_run
  obtain ⟨q, hq⟩ : ∃ q, ketamaPair.ringRun insertionHashing
    [.retry fun i => if i = 0 then 9 else 0] = some q :=
    ⟨_, rfl⟩
  obtain ⟨q₁, hq₁⟩ : ∃ q₁, serverPoolRun insertionHashing q ⟨1, true⟩ = some (.ok, q₁) := by
    cases hq
    have hrun : ((serverPoolRun insertionHashing
        { ketamaPair with server := ketamaPair.server.mapIdx fun i s =>
            { s with nextRetry := if i = 0 then 9 else 0 } } ⟨1, true⟩).map Prod.fst) =
            some .ok := by
      decide +kernel
    obtain ⟨⟨st, q₁⟩, hq₁, rfl⟩ := Option.map_eq_some_iff.mp hrun
    exact ⟨q₁, hq₁⟩
  refine ⟨q, q₁, hq, hq₁, ketama_moves insertionHashing_sorts
    (show Fresh ketamaPair from ⟨rfl, rfl, rfl⟩) rfl
    (show ketamaPair.ringRun insertionHashing [] = some ketamaPair from rfl) hq hp₁ hq₁ (s := 0)
    ?_ ?_ ?_ (by decide) hdispatch (by decide)⟩
  · cases hq
    intro i a b ha hb
    match i with
    | 0 => cases ha; cases hb; decide
    | 1 => cases ha; cases hb; decide
    | i + 2 => cases ha
  · cases hq
    rfl
  · cases hq
    intro i a b ha hb hlive
    match i with
    | 0 => cases hb; exact absurd hlive (by decide)
    | 1 => cases ha; cases hb; rfl
    | i + 2 => cases ha

end CacheProxy
