/-
**Points of the servers on a ketama ring.**

A live server gets four points for each of `floorf(pct * 160 / 4 * nlive + 1e-10)` texts, where
`pct` is its share of the weight of the live servers.  All of it is computed in single precision,
but for the sum. The result is zero for a server whose weight is less than about a fortieth of the
mean, and such a server has no keys although it is live.

Main definitions:

* `f32`, `f64` — the results of operations in the two formats;
* `pointHosts` — the number of texts of a server, as the source computes it;
* `Owns` — a server has a point on the ring.

Main results:

* `within_scaled` — the relative error of the computation;
* `pointHosts_pos`, `pointHosts_eq_zero` — a share above a fortieth gives a point, a share below
  gives none;
* `ketama_owners` — **a server owns a point exactly if it is live and has a text**;
* `ketama_shares` — a live server has one if its weight is at least a fortieth of the mean, up to a
  millionth;
* `ketama_starved` — a live server without a point.
-/

import CacheProxy.BinaryRounding
import CacheProxy.Ketama

namespace CacheProxy

open BinaryRounding

/-! ### The computation -/

/-- The result of an operation on numbers of type `float`; none of the results here overflows or is
subnormal. -/
def f32 (x : ℚ) : ℚ := roundBits 23 x

/-- The result of an operation on numbers of type `double`. -/
def f64 (x : ℚ) : ℚ := roundBits 52 x

/-- `pct * KETAMA_POINTS_PER_SERVER / 4 * (float)nlive_server`. -/
def scaledShare (weight totalWeight nlive : ℕ) : ℚ :=
  let pct := f32 (f32 weight / f32 totalWeight)
  f32 (f32 (f32 (pct * 160) / 4) * f32 nlive)

/-- The argument of `floorf`: the sum is one of type `double`, because the constant is. -/
def rounded (weight totalWeight nlive : ℕ) : ℚ :=
  f32 (f64 (scaledShare weight totalWeight nlive + f64 (1 / 10 ^ 10)))

/-- **The number of texts of a server**, `pointer_per_server / pointer_per_hash`; the total weight
is not zero. -/
def pointHosts (weight totalWeight nlive : ℕ) : ℕ :=
  ⌊rounded weight totalWeight nlive⌋₊ * 4 % 2 ^ 32 / 4

/-! ### Its error -/

section Error

variable {x : ℚ} {weight totalWeight nlive : ℕ}

theorem within_f32 (hx : 0 < x) : Within (1 - 1 / 2 ^ 24) (1 + 1 / 2 ^ 24) x (f32 x) :=
  within_roundBits 23 hx

theorem within_f64 (hx : 0 < x) : Within (1 - 1 / 2 ^ 53) (1 + 1 / 2 ^ 53) x (f64 x) :=
  within_roundBits 52 hx

theorem f32_pos (hx : 0 < x) : 0 < f32 x := (within_f32 hx).pos (by norm_num) hx

/-- **The relative error of the scaled share.** -/
theorem within_scaled (hw : 0 < weight) (ht : 0 < totalWeight) (hn : 0 < nlive) :
    Within (1 - 1 / 2 ^ 21) (1 + 1 / 2 ^ 21) (40 * nlive * weight / totalWeight)
      (scaledShare weight totalWeight nlive) := by
  have hw' : (0 : ℚ) < weight := by exact_mod_cast hw
  have ht' : (0 : ℚ) < totalWeight := by exact_mod_cast ht
  have hn' : (0 : ℚ) < nlive := by exact_mod_cast hn
  have hquot := (within_f32 hw').div (within_f32 ht') (by norm_num) (by norm_num) (by norm_num)
    (by norm_num)
    hw'.le ht'
  have hpct := hquot.trans (within_f32 (div_pos (f32_pos hw') (f32_pos ht'))) (by norm_num)
    (by norm_num)
  have hpctpos := f32_pos (div_pos (f32_pos hw') (f32_pos ht'))
  have hpoints :=
    (hpct.mul (Within.refl 160) (by norm_num) (by norm_num) (by norm_num) (by positivity)
    (by norm_num)).trans (within_f32 (mul_pos hpctpos (by norm_num))) (by norm_num) (by norm_num)
  have hpointspos := f32_pos (mul_pos hpctpos (show (0 : ℚ) < 160 by norm_num))
  have hquarter :=
    (hpoints.div (Within.refl 4) (by norm_num) (by norm_num) (by norm_num) (by norm_num)
    (by positivity) (by norm_num)).trans (within_f32 (div_pos hpointspos (by norm_num)))
    (by norm_num) (by norm_num)
  have hquarterpos := f32_pos (div_pos hpointspos (show (0 : ℚ) < 4 by norm_num))
  have hall := (hquarter.mul (within_f32 hn') (by norm_num) (by norm_num) (by norm_num)
    (by positivity)
    hn'.le).trans (within_f32 (mul_pos hquarterpos (f32_pos hn'))) (by norm_num) (by norm_num)
  have hexact : (weight : ℚ) / totalWeight * 160 / 4 * nlive =
    40 * nlive * weight / totalWeight := by ring
  rw [hexact] at hall
  exact hall.mono (by norm_num) (by norm_num) (by positivity)

/-- The constant that is added, as a number of type `double`. -/
theorem addend_bounds : 0 < f64 (1 / 10 ^ 10) ∧ f64 (1 / 10 ^ 10) ≤ 2 / 10 ^ 10 := by
  have h := within_f64 (show (0 : ℚ) < 1 / 10 ^ 10 by norm_num)
  exact ⟨h.pos (by norm_num) (by norm_num), h.upper.trans (by norm_num)⟩

/-- The sum and its conversion add little to the error. -/
theorem rounded_bounds (hs : 0 < scaledShare weight totalWeight nlive) :
    (1 - 1 / 2 ^ 23) * scaledShare weight totalWeight nlive ≤ rounded weight totalWeight nlive ∧
      rounded weight totalWeight nlive ≤ (1 + 1 / 2 ^ 23) *
        (scaledShare weight totalWeight nlive + 2 / 10 ^ 10) := by
  obtain ⟨hpos, hle⟩ := addend_bounds
  have hsum : 0 < scaledShare weight totalWeight nlive + f64 (1 / 10 ^ 10) := add_pos hs hpos
  have hdouble := within_f64 hsum
  have hall := (hdouble.trans (within_f32 (hdouble.pos (by norm_num) hsum)) (by norm_num)
    (by norm_num)).mono
    (show (1 - 1 / 2 ^ 23 : ℚ) ≤ _ by norm_num) (show _ ≤ (1 + 1 / 2 ^ 23 : ℚ) by norm_num) hsum.le
  constructor
  · refine le_trans ?_ hall.lower
    exact mul_le_mul_of_nonneg_left (by linarith) (by norm_num)
  · refine le_trans hall.upper ?_
    gcongr

/-- The value that is rounded down, compared with the exact one. -/
theorem rounded_within (hw : 0 < weight) (ht : 0 < totalWeight) (hn : 0 < nlive) :
    (1 - 3 / 2 ^ 22) * (40 * nlive * weight / totalWeight : ℚ) ≤ rounded weight totalWeight nlive ∧
      rounded weight totalWeight nlive ≤ (1 + 3 / 2 ^ 22) *
        (40 * nlive * weight / totalWeight) + 3 / 10 ^ 10 := by
  have hw' : (0 : ℚ) < weight := by exact_mod_cast hw
  have ht' : (0 : ℚ) < totalWeight := by exact_mod_cast ht
  have hn' : (0 : ℚ) < nlive := by exact_mod_cast hn
  have hexact : (0 : ℚ) < 40 * nlive * weight / totalWeight := by positivity
  have hscaled := within_scaled hw ht hn
  obtain ⟨hlow, hhigh⟩ := rounded_bounds (hscaled.pos (by norm_num) hexact)
  generalize (40 * nlive * weight / totalWeight : ℚ) = exact at hexact hscaled ⊢
  have hlower := hscaled.lower
  have hupper := hscaled.upper
  constructor
  · nlinarith
  · nlinarith

theorem pointHosts_eq (h : rounded weight totalWeight nlive < 2 ^ 30) :
    pointHosts weight totalWeight nlive = ⌊rounded weight totalWeight nlive⌋₊ := by
  have hlt : ⌊rounded weight totalWeight nlive⌋₊ < 2 ^ 30 := by
    refine (Nat.floor_lt' (by norm_num)).mpr ?_
    exact_mod_cast h
  rw [pointHosts]
  omega

/-- At most `2 ^ 24` live servers: the number is in range. -/
theorem rounded_lt (hw : 0 < weight) (hwt : weight ≤ totalWeight) (hn : 0 < nlive)
    (hmax : nlive ≤ 2 ^ 24) :
    rounded weight totalWeight nlive < 2 ^ 30 := by
  have hw' : (0 : ℚ) < weight := by exact_mod_cast hw
  have ht' : (0 : ℚ) < totalWeight := by exact_mod_cast hw.trans_le hwt
  have hwt' : (weight : ℚ) ≤ totalWeight := by exact_mod_cast hwt
  have hmax' : (nlive : ℚ) ≤ 2 ^ 24 := by exact_mod_cast hmax
  have hexact : (40 * nlive * weight / totalWeight : ℚ) ≤ 40 * 2 ^ 24 := by
    rw [div_le_iff₀ ht']
    have hn' : (0 : ℚ) ≤ nlive := Nat.cast_nonneg _
    have hprod : (nlive : ℚ) * weight ≤ 2 ^ 24 * totalWeight := by gcongr
    linarith
  have hupper := (rounded_within hw (hw.trans_le hwt) hn).2
  refine lt_of_le_of_lt
    (hupper.trans (add_le_add_left (mul_le_mul_of_nonneg_left hexact (by norm_num)) _)) ?_
  norm_num

/-- **A share above a fortieth of the mean gives a text**, up to a millionth. -/
theorem pointHosts_pos (hw : 0 < weight) (hwt : weight ≤ totalWeight) (hn : 0 < nlive)
    (hmax : nlive ≤ 2 ^ 24)
    (h : (2 ^ 20 + 1) * totalWeight ≤ 2 ^ 20 * (40 * nlive * weight)) :
    0 < pointHosts weight totalWeight nlive := by
  have ht : (0 : ℚ) < totalWeight := by exact_mod_cast hw.trans_le hwt
  rw [pointHosts_eq (rounded_lt hw hwt hn hmax), Nat.floor_pos]
  have hexact : (2 ^ 20 + 1) / 2 ^ 20 ≤ (40 * nlive * weight / totalWeight : ℚ) := by
    have h' : ((2 ^ 20 + 1) * totalWeight : ℚ) ≤ 2 ^ 20 * (40 * nlive * weight) := by
      exact_mod_cast h
    rw [div_le_div_iff₀ (by norm_num) ht]
    linarith
  refine le_trans ?_ (rounded_within hw (hw.trans_le hwt) hn).1
  calc (1 : ℚ) ≤ (1 - 3 / 2 ^ 22) * ((2 ^ 20 + 1) / 2 ^ 20) := by norm_num
    _ ≤ _ := mul_le_mul_of_nonneg_left hexact (by norm_num)

/-- **A share below a fortieth of the mean gives none**, up to a millionth. -/
theorem pointHosts_eq_zero (hw : 0 < weight) (hwt : weight ≤ totalWeight) (hn : 0 < nlive)
    (hmax : nlive ≤ 2 ^ 24)
    (h : (2 ^ 20 + 1) * (40 * nlive * weight) ≤ 2 ^ 20 * totalWeight) :
    pointHosts weight totalWeight nlive = 0 := by
  have ht : (0 : ℚ) < totalWeight := by exact_mod_cast hw.trans_le hwt
  rw [pointHosts_eq (rounded_lt hw hwt hn hmax), Nat.floor_eq_zero]
  have hexact : (40 * nlive * weight / totalWeight : ℚ) ≤ 2 ^ 20 / (2 ^ 20 + 1) := by
    have h' : ((2 ^ 20 + 1) * (40 * nlive * weight) : ℚ) ≤ 2 ^ 20 * totalWeight := by
      exact_mod_cast h
    rw [div_le_div_iff₀ ht (by norm_num)]
    linarith
  refine lt_of_le_of_lt (rounded_within hw (hw.trans_le hwt) hn).2 ?_
  calc (1 + 3 / 2 ^ 22) * (40 * nlive * weight / totalWeight : ℚ) + 3 / 10 ^ 10 ≤
        (1 + 3 / 2 ^ 22) * (2 ^ 20 / (2 ^ 20 + 1)) + 3 / 10 ^ 10 :=
        add_le_add_left (mul_le_mul_of_nonneg_left hexact (by norm_num)) _
    _ < 1 := by norm_num

end Error

/-! ### All points together -/

section Sums

theorem sum_le_linear {α : Type} {f g : α → ℕ} {a c : ℚ} (xs : List α) :
    (∀ x ∈ xs, (f x : ℚ) ≤ a * g x + c) →
    ((xs.map f).sum : ℚ) ≤ a * (xs.map g).sum + c * xs.length := by
  induction xs with
  | nil =>
    intro _
    simp
  | cons x xs ih =>
    intro h
    have hx := h x List.mem_cons_self
    have hxs := ih fun y hy => h y (List.mem_cons_of_mem _ hy)
    simp only [List.map_cons, List.sum_cons, List.length_cons]
    push_cast at hxs ⊢
    linarith

/-- **The live servers have at most forty texts each, on average.** -/
theorem sum_pointHosts_le {ss : List PoolServer} (hpos : ∀ s ∈ ss, 0 < s.weight)
    (hcount : ss.length ≤ 2 ^ 15) :
    (ss.map fun s => pointHosts s.weight (ss.map PoolServer.weight).sum ss.length).sum ≤
      40 * ss.length := by
  rcases List.eq_nil_or_concat ss with rfl | ⟨_, _, hne⟩
  · rfl
  have hlen : 0 < ss.length := by simp [hne]
  generalize htotal : (ss.map PoolServer.weight).sum = total
  have hle : ∀ s ∈ ss, s.weight ≤ total := fun s hs => by
    rw [← htotal]
    exact List.single_le_sum (fun _ _ => Nat.zero_le _) _ (List.mem_map_of_mem hs)
  have ht : 0 < total := by
    obtain ⟨s, hs⟩ := List.exists_mem_of_length_pos hlen
    exact (hpos s hs).trans_le (hle s hs)
  have ht' : (0 : ℚ) < total := by exact_mod_cast ht
  have hbound : ∀ s ∈ ss, (pointHosts s.weight total ss.length : ℚ) ≤
      (1 + 3 / 2 ^ 22) * (40 * ss.length / total) * s.weight + 3 / 10 ^ 10 := by
    intro s hs
    obtain ⟨hlow, hhigh⟩ := rounded_within (hpos s hs) ht hlen
    rw [pointHosts_eq (rounded_lt (hpos s hs) (hle s hs) hlen (hcount.trans (by norm_num)))]
    have hnonneg : 0 ≤ rounded s.weight total ss.length := le_trans (by positivity) hlow
    calc (⌊rounded s.weight total ss.length⌋₊ : ℚ) ≤ rounded s.weight total ss.length :=
      Nat.floor_le hnonneg
      _ ≤ _ := hhigh
      _ = _ := by ring
  have hsum := sum_le_linear ss hbound
  rw [htotal] at hsum
  have hcancel : (1 + 3 / 2 ^ 22) * (40 * ss.length / total) * (total : ℚ) = (1 + 3 / 2 ^ 22) *
    (40 * ss.length) := by
    field_simp
  rw [hcancel] at hsum
  -- The errors of all of them together are less than one text.
  have hcount' : (ss.length : ℚ) ≤ 2 ^ 15 := by exact_mod_cast hcount
  have hlt : ((ss.map fun s => pointHosts s.weight total ss.length).sum : ℚ) <
    (40 * ss.length + 1 : ℕ) := by
    push_cast at hsum ⊢
    linarith
  exact Nat.le_of_lt_succ (by exact_mod_cast hlt)

end Sums

/-! ### Rebuilding -/

/-- **What every step keeps**: the servers are not too many and not too heavy, and the array has a
place for each point of as many servers as it was made for. -/
structure Spacious (p : ServerPool) : Prop where
  ketama : p.distType = .ketama
  weights : ∀ s ∈ p.server, 0 < s.weight
  total : (p.server.map PoolServer.weight).sum < 2 ^ 32
  count : p.server.length ≤ 2 ^ 15
  room : p.nserverContinuum * 160 ≤ p.continuum.length
  small : p.continuum.length < 2 ^ 32

section Rebuild

variable {env : Hashing} {p p' : ServerPool} {sys : Sys} {now : ℤ}

theorem length_pointValues (total live : ℕ) (s : PoolServer) :
    (pointValues env total live s).length = 4 * env.ketamaHosts s.weight total live := by
  simp [pointValues, Nat.mul_comm]

theorem length_points (eject : Bool) (now : ℤ) (total live : ℕ) (ss : List PoolServer) : ∀ k,
    (ringOf eject now (fun i s => (pointValues env total live s).map fun v => ⟨i, v⟩) k ss).length =
      4 * ((ss.filter (IsLive eject now)).map fun s =>
        env.ketamaHosts s.weight total live).sum := by
  induction ss with
  | nil =>
    intro k
    rfl
  | cons s ss ih =>
    intro k
    rw [ringOf_cons, List.length_append, ih, List.filter_cons]
    split
    · rw [List.length_map, length_pointValues, List.map_cons, List.sum_cons, Nat.mul_add]
    · rw [List.length_nil, Nat.zero_add]

theorem Spacious.liveWeight_lt (h : Spacious p) (eject : Bool) (now : ℤ) :
    liveWeight eject now p.server < 2 ^ 32 :=
  lt_of_le_of_lt ((List.filter_sublist.map _).sum_le_sum fun _ _ => Nat.zero_le _) h.total

/-- **The points fit** into a place for each live server. -/
theorem Spacious.length_ketamaPoints (h : Spacious p) (hfloat : env.ketamaHosts = pointHosts)
    (now : ℤ) :
    (ketamaPoints env p now).length ≤ 160 * p.server.countP (IsLive p.autoEjectHosts now) := by
  have hweights : ∀ s ∈ p.server.filter (IsLive p.autoEjectHosts now), 0 < s.weight := fun s hs =>
    h.weights s (List.mem_filter.1 hs).1
  have hsum := sum_pointHosts_le hweights ((List.length_filter_le _ _).trans h.count)
  have hlive := h.liveWeight_lt p.autoEjectHosts now
  simp only [ketamaPoints, ServerPool.values]
  rw [length_points, hfloat, Nat.mod_eq_of_lt hlive, List.countP_eq_length_filter, liveWeight]
  omega

/-- The second half of a rebuild, when the points fit. -/
theorem rebuild_of_fits (now : ℤ) (hk : p.distType = .ketama) (hsort : Sorts env) {total : ℕ}
    {es : List RingEntry}
    (hes : ringOf p.autoEjectHosts now
      (fun i s => (pointValues env total p.nliveServer s).map fun v => ⟨i, v⟩) 0
      p.server = es)
    (hlen : p.continuum.length < 2 ^ 32) (hfit : es.length ≤ p.continuum.length) :
    ∃ ring,
      rebuild env p total now = some (.ok, { p with continuum := ring, ncontinuum := es.length }) ∧
      ring.length = p.continuum.length := by
  have hplace := place_eq p.autoEjectHosts now
    (fun i s => DistType.ketama.entries env total p.nliveServer i s) p.server 0 hlen (Nat.zero_le _)
  simp only [DistType.entries, hes, Nat.zero_add, if_pos hfit] at hplace
  refine ⟨DistType.ketama.finish env (overwrite p.continuum 0 es) es.length,
    by simp only [rebuild, hk, DistType.entries, hplace], ?_⟩
  have htake : (overwrite p.continuum 0 es).take es.length = es.map some := by simp [overwrite]
  have hperm := (hsort.perm es).length_eq
  have hover : (overwrite p.continuum 0 es).length = p.continuum.length :=
    length_overwrite (by omega)
  simp only [DistType.finish, htake, List.filterMap_map, Function.comp_def, id, List.filterMap_some,
    List.length_append, List.length_map, List.length_drop, hover, hperm]
  omega

theorem Spacious.settle (h : Spacious p) (eject : Bool) (now next : ℤ) (n : ℕ) :
    Spacious { p with
      server := p.server.map (settle eject now), nextRebuild := next, nliveServer := n } := by
  refine ⟨h.ketama, fun s hs => ?_, ?_, by simpa using h.count, h.room, h.small⟩
  · obtain ⟨t, ht, rfl⟩ := List.mem_map.1 hs
    rw [settle_weight]
    exact h.weights t ht
  · have hmap : (p.server.map (CacheProxy.settle eject now)).map PoolServer.weight =
      p.server.map PoolServer.weight := by
      rw [List.map_map]
      exact List.map_congr_left fun s _ => settle_weight s
    simp only [hmap]
    exact h.total

/-- The array that a rebuild uses has a place for each point of the live servers. -/
theorem Spacious.rebuild (h : Spacious p) (hfloat : env.ketamaHosts = pointHosts)
    (hsort : Sorts env)
    (hnow : 0 ≤ now) (next : ℤ) (ring : List (Option RingEntry)) (n : ℕ)
    (hlive : p.server.countP (IsLive p.autoEjectHosts now) ≤ n) (hroom : n * 160 ≤ ring.length)
    (hsmall : ring.length < 2 ^ 32) :
    ∃ p', CacheProxy.rebuild env
        { p with
          server := p.server.map (CacheProxy.settle p.autoEjectHosts now), nextRebuild := next
          nliveServer := p.server.countP (IsLive p.autoEjectHosts now), continuum := ring,
            nserverContinuum := n }
        (liveWeight p.autoEjectHosts now p.server % 2 ^ 32) now = some (.ok, p') ∧ Spacious p' := by
  have hpoints := h.length_ketamaPoints hfloat now
  have hfit : (ketamaPoints env p now).length ≤ ring.length := by omega
  obtain ⟨ring', hrebuild, hlen⟩ := rebuild_of_fits now
    (p := { p with
      server := p.server.map (CacheProxy.settle p.autoEjectHosts now), nextRebuild := next
      nliveServer := p.server.countP (IsLive p.autoEjectHosts now), continuum := ring,
        nserverContinuum := n })
    h.ketama hsort (points_settle hnow _ _ _ _) hsmall hfit
  have hsettled := h.settle p.autoEjectHosts now
    next (p.server.countP (IsLive p.autoEjectHosts now))
  refine ⟨_, hrebuild, hsettled.ketama, hsettled.weights, hsettled.total, hsettled.count, ?_, ?_⟩
  · rw [hlen]
    exact hroom
  · rw [hlen]
    exact hsmall

/-- **Every rebuild comes to its end inside the array.** -/
theorem Spacious.run (h : Spacious p) (hfloat : env.ketamaHosts = pointHosts) (hsort : Sorts env)
    (sys : Sys) :
    ∃ st p', serverPoolRun env p sys = some (st, p') ∧ Spacious p' ∧
      (0 ≤ sys.now → sys.alloc = true → st = .ok) := by
  rw [serverPoolRun]
  split
  · next hneg => exact ⟨_, p, rfl, h, fun hnow => absurd hneg (not_lt.mpr hnow)⟩
  · next hnow =>
    have hnow := not_lt.mp hnow
    obtain ⟨hserver, hlive, htotal⟩ := scan_eq p.autoEjectHosts hnow p.server
    have hcount : p.server.countP (IsLive p.autoEjectHosts sys.now) ≤ 2 ^ 15 :=
      List.countP_le_length.trans h.count
    have hneeded : ∀ a, p.distType.needed a = a.nliveServer :=
      fun a => by rw [h.ketama, DistType.needed]
    have hpoints : p.distType.pointsPerServer = 160 := by rw [h.ketama, DistType.pointsPerServer]
    simp only [hneeded, hpoints, hserver, hlive, htotal]
    split
    · exact ⟨_, _, rfl, h.settle _ _ _ _, fun _ _ => rfl⟩
    · split
      · split
        · -- The array is made anew, with ten servers to spare.
          have hn : (p.server.countP
            (IsLive p.autoEjectHosts sys.now) + continuumAddition) % 2 ^ 32 =
              p.server.countP (IsLive p.autoEjectHosts sys.now) + 10 := Nat.mod_eq_of_lt (by
            rw [continuumAddition]
            omega)
          rw [hn, Nat.mod_eq_of_lt (show (p.server.countP _ + 10) * 160 < 2 ^ 32 by omega)]
          obtain ⟨p', hrun, hp'⟩ := h.rebuild hfloat hsort hnow _
            (ncRealloc p.continuum ((p.server.countP (IsLive p.autoEjectHosts sys.now) + 10) * 160))
            (p.server.countP (IsLive p.autoEjectHosts sys.now) + 10) (Nat.le_add_right _ _)
            (by rw [length_ncRealloc]) (by rw [length_ncRealloc]; omega)
          exact ⟨.ok, p', hrun, hp', fun _ _ => rfl⟩
        · next halloc => exact ⟨_, _, rfl, h.settle _ _ _ _, fun _ hyes => absurd hyes halloc⟩
      · next hroom =>
        obtain ⟨p', hrun, hp'⟩ := h.rebuild hfloat hsort hnow _ p.continuum p.nserverContinuum
          (not_lt.mp hroom)
          h.room h.small
        exact ⟨.ok, p', hrun, hp', fun _ _ => rfl⟩

theorem Spacious.step (h : Spacious p) (hfloat : env.ketamaHosts = pointHosts) (hsort : Sorts env)
    (step : RingStep) :
    ∃ p', p.ringStep env step = some p' ∧ Spacious p' := by
  cases step with
  | retry next =>
    refine ⟨_, rfl, h.ketama, fun s hs => ?_, ?_, by simpa using h.count, h.room, h.small⟩
    · obtain ⟨i, hi, rfl⟩ := List.mem_mapIdx.1 hs
      exact h.weights p.server[i] (List.getElem_mem hi)
    · have hmap : (p.server.mapIdx fun i s => { s with nextRetry := next i : PoolServer }).map
        PoolServer.weight =
          p.server.map PoolServer.weight := by
        refine List.ext_getElem (by simp) fun i h₁ h₂ => ?_
        simp only [List.getElem_map, List.getElem_mapIdx]
      rw [hmap]
      exact h.total
  | run sys =>
    obtain ⟨st, p', hrun, hp', -⟩ := h.run hfloat hsort sys
    exact ⟨p', by rw [ServerPool.ringStep, hrun, Option.map_some], hp'⟩

/-- **A history.** -/
theorem Spacious.history (hfloat : env.ketamaHosts = pointHosts) (hsort : Sorts env)
    (steps : List RingStep) :
    ∀ {p : ServerPool}, Spacious p → ∃ p', p.ringRun env steps = some p' ∧ Spacious p' := by
  induction steps with
  | nil =>
    intro p h
    exact ⟨p, rfl, h⟩
  | cons step steps ih =>
    intro p h
    obtain ⟨q, hq, hspace⟩ := h.step hfloat hsort step
    obtain ⟨p', hrun, hp'⟩ := ih hspace
    refine ⟨p', ?_, hp'⟩
    rw [ServerPool.ringRun, List.foldlM_cons, hq]
    exact hrun

end Rebuild

/-! ### Owners -/

/-- **The server with the index `i` owns a point** of the ring. -/
def Owns (p : ServerPool) (i : ℕ) : Prop := ∃ v, some ⟨i, v⟩ ∈ p.continuum.take p.ncontinuum

section Owners

variable {env : Hashing} {p p' : ServerPool} {now : ℤ}

theorem mem_ringOf {eject : Bool} {entries : ℕ → PoolServer → List RingEntry} {ss : List PoolServer}
    {e : RingEntry} : e ∈ ringOf eject now entries 0 ss ↔
      ∃ i s, ss[i]? = some s ∧ IsLive eject now s = true ∧ e ∈ entries i s := by
  constructor
  · intro he
    obtain ⟨⟨s, i⟩, hmem, he⟩ := List.mem_flatMap.1 he
    split at he
    · next hlive => exact ⟨i, s, by simpa using List.mem_zipIdx_iff_getElem?.1 hmem, hlive, he⟩
    · cases he
  · rintro ⟨i, s, hs, hlive, he⟩
    refine List.mem_flatMap.2 ⟨(s, i), List.mem_zipIdx_iff_getElem?.2 (by simpa using hs), ?_⟩
    rw [if_pos hlive]
    exact he

theorem mem_values {s : PoolServer} : (∃ v, v ∈ p.values env now s) ↔
    0 < env.ketamaHosts s.weight (liveWeight p.autoEjectHosts now p.server % 2 ^ 32)
      (p.server.countP (IsLive p.autoEjectHosts now)) := by
  rw [← List.length_pos_iff_exists_mem, ServerPool.values, length_pointValues]
  omega

/-- A server owns a point after a rebuild exactly if it is live and has a text. -/
theorem KetamaBuilt.owns (h : KetamaBuilt env (ketamaPoints env p now) p') (hsort : Sorts env)
    {i : ℕ}
    {s : PoolServer} (hs : p.server[i]? = some s) : Owns p' i ↔
    IsLive p.autoEjectHosts now s = true ∧
      0 < env.ketamaHosts s.weight (liveWeight p.autoEjectHosts now p.server % 2 ^ 32)
        (p.server.countP (IsLive p.autoEjectHosts now)) := by
  rw [← mem_values]
  constructor
  · rintro ⟨v, hv⟩
    rw [h.take] at hv
    obtain ⟨e, he, heq⟩ := List.mem_map.1 hv
    cases heq
    obtain ⟨j, t, ht, hlive, hmem⟩ := mem_ringOf.1 ((hsort.perm _).mem_iff.1 he)
    obtain ⟨w, hw, heq⟩ := List.mem_map.1 hmem
    cases heq
    rw [hs] at ht
    cases ht
    exact ⟨hlive, _, hw⟩
  · rintro ⟨hlive, v, hv⟩
    refine ⟨v, ?_⟩
    rw [h.take]
    refine List.mem_map_of_mem ((hsort.perm _).mem_iff.2 (mem_ringOf.2 ⟨i, s, hs, hlive, ?_⟩))
    exact List.mem_map_of_mem hv

/-- A rebuild with a live server, and who owns a point then. -/
theorem Spacious.owns (h : Spacious p) (hfloat : env.ketamaHosts = pointHosts) (hsort : Sorts env)
    {sys : Sys}
    (halloc : sys.alloc = true) (hnow : 0 ≤ sys.now)
    (hany : p.server.any (IsLive p.autoEjectHosts sys.now) = true) :
    ∃ p', serverPoolRun env p sys = some (.ok, p') ∧ ∀ i s, p.server[i]? = some s →
      (Owns p' i ↔ IsLive p.autoEjectHosts sys.now s = true ∧
        0 < pointHosts s.weight (liveWeight p.autoEjectHosts sys.now p.server)
          (p.server.countP (IsLive p.autoEjectHosts sys.now))) := by
  obtain ⟨st, p', hrun, -, hok⟩ := h.run hfloat hsort sys
  obtain rfl := hok hnow halloc
  have hbuilt := (ketama_run h.ketama hsort h.small hrun).2 rfl hany
  refine ⟨p', hrun, fun i s hs => ?_⟩
  have howns := hbuilt.owns hsort hs
  rw [hfloat, Nat.mod_eq_of_lt (h.liveWeight_lt _ _)] at howns
  exact howns

theorem Fresh.spacious (h : Fresh p) (hk : p.distType = .ketama)
    (hweights : ∀ s ∈ p.server, 0 < s.weight)
    (htotal : (p.server.map PoolServer.weight).sum < 2 ^ 32) (hcount : p.server.length ≤ 2 ^ 15) :
    Spacious p := by
  refine ⟨hk, hweights, htotal, hcount, ?_, ?_⟩
  · rw [h.nserverContinuum, Nat.zero_mul]
    exact Nat.zero_le _
  · rw [h.continuum]
    norm_num

/-- **The owners of the points of a ketama ring.**  After any history of a pool, a server owns a
point of the ring that a rebuild leaves exactly if it is live and the source computes at least one
text for it.  With at most `2 ^ 15` servers of positive weights, which together are less than
`2 ^ 32`, every rebuild comes to its end inside the array: there the rounding errors of all servers
are less than one text. -/
theorem ketama_owners (hfloat : env.ketamaHosts = pointHosts) (sorts : Sorts env) {p₀ : ServerPool}
    (fresh : Fresh p₀) (hk : p₀.distType = .ketama) (steps : List RingStep) :
    (∀ p sys p', p₀.ringRun env steps = some p → serverPoolRun env p sys = some (.ok, p') →
      p.server.any (IsLive p.autoEjectHosts sys.now) = true → (∀ s ∈ p.server, 0 < s.weight) →
      liveWeight p.autoEjectHosts sys.now p.server < 2 ^ 32 → ∀ i s, p.server[i]? = some s →
        (Owns p' i ↔ IsLive p.autoEjectHosts sys.now s = true ∧
          0 < pointHosts s.weight (liveWeight p.autoEjectHosts sys.now p.server)
            (p.server.countP (IsLive p.autoEjectHosts sys.now)))) ∧
    ((∀ s ∈ p₀.server, 0 < s.weight) → (p₀.server.map PoolServer.weight).sum < 2 ^ 32 →
      p₀.server.length ≤ 2 ^ 15 → ∃ p, p₀.ringRun env steps = some p ∧
        ∀ sys : Sys, sys.alloc = true → 0 ≤ sys.now → ∃ p',
          serverPoolRun env p sys = some (.ok, p')) := by
  constructor
  · intro p sys p' hp hrun hany _ hlt i s hs
    have hsame := SamePool.ringRun hk sorts fresh hp
    have hbuilt := (ketama_run (hsame.distType.trans hk) sorts hsame.lt hrun).2 rfl hany
    have howns := hbuilt.owns sorts hs
    rwa [hfloat, Nat.mod_eq_of_lt hlt] at howns
  · intro hweights htotal hcount
    obtain ⟨p, hp, hspace⟩ := Spacious.history hfloat sorts steps
      (fresh.spacious hk hweights htotal hcount)
    refine ⟨p, hp, fun sys halloc hnow => ?_⟩
    obtain ⟨st, p', hrun, -, hok⟩ := hspace.run hfloat sorts sys
    exact ⟨p', by rw [hrun, hok hnow halloc]⟩

/-- **The shares that decide.**  In such a pool no dead server owns a point, and a live server owns
one if its weight is at least a fortieth of the mean of the live ones, and none if it is less, up to
a millionth. -/
theorem ketama_shares (hfloat : env.ketamaHosts = pointHosts) (sorts : Sorts env) {p₀ : ServerPool}
    (fresh : Fresh p₀) (hk : p₀.distType = .ketama) (hweights : ∀ s ∈ p₀.server, 0 < s.weight)
    (htotal : (p₀.server.map PoolServer.weight).sum < 2 ^ 32) (hcount : p₀.server.length ≤ 2 ^ 15)
    (steps : List RingStep) :
    ∃ p, p₀.ringRun env steps = some p ∧ ∀ sys : Sys, sys.alloc = true → 0 ≤ sys.now →
      p.server.any (IsLive p.autoEjectHosts sys.now) = true →
      ∃ p', serverPoolRun env p sys = some (.ok, p') ∧ ∀ i s, p.server[i]? = some s →
        (IsLive p.autoEjectHosts sys.now s = false → ¬Owns p' i) ∧
        (IsLive p.autoEjectHosts sys.now s = true →
          (2 ^ 20 + 1) * liveWeight p.autoEjectHosts sys.now p.server ≤
            2 ^ 20 * (40 * p.server.countP (IsLive p.autoEjectHosts sys.now) * s.weight) →
              Owns p' i) ∧
        (IsLive p.autoEjectHosts sys.now s = true →
          (2 ^ 20 + 1) * (40 * p.server.countP (IsLive p.autoEjectHosts sys.now) * s.weight) ≤
            2 ^ 20 * liveWeight p.autoEjectHosts sys.now p.server → ¬Owns p' i) := by
  obtain ⟨p, hp, hspace⟩ := Spacious.history hfloat sorts steps
    (fresh.spacious hk hweights htotal hcount)
  refine ⟨p, hp, fun sys halloc hnow hany => ?_⟩
  obtain ⟨p', hrun, howners⟩ := hspace.owns hfloat sorts halloc hnow hany
  refine ⟨p', hrun, fun i s hs => ?_⟩
  have howns := howners i s hs
  have hpos := hspace.weights s (List.mem_of_getElem? hs)
  have hlivepos : IsLive p.autoEjectHosts sys.now s = true →
      0 < p.server.countP (IsLive p.autoEjectHosts sys.now) ∧
        s.weight ≤ liveWeight p.autoEjectHosts sys.now p.server := fun hlive => by
    have hmem : s ∈ p.server.filter (IsLive p.autoEjectHosts sys.now) :=
      List.mem_filter.2 ⟨List.mem_of_getElem? hs, hlive⟩
    exact ⟨List.countP_pos_iff.2 ⟨s, List.mem_of_getElem? hs, hlive⟩,
      List.single_le_sum (fun _ _ => Nat.zero_le _) _ (List.mem_map_of_mem hmem)⟩
  have hmax : p.server.countP (IsLive p.autoEjectHosts sys.now) ≤ 2 ^ 24 :=
    (List.countP_le_length.trans hspace.count).trans (by norm_num)
  refine ⟨fun hdead hown => ?_, fun hlive hshare => ?_, fun hlive hshare hown => ?_⟩
  · rw [(howns.1 hown).1] at hdead
    cases hdead
  · exact howns.2 ⟨hlive, pointHosts_pos hpos (hlivepos hlive).2 (hlivepos hlive).1 hmax hshare⟩
  · have hzero := pointHosts_eq_zero hpos (hlivepos hlive).2 (hlivepos hlive).1 hmax hshare
    exact absurd (howns.1 hown).2 (by omega)

end Owners

/-- A hash function that gives the number of the text, the numbers of texts of the source, and a
sort. -/
def floatHashing : Hashing := { insertionHashing with ketamaHosts := pointHosts }

theorem floatHashing_sorts : Sorts floatHashing :=
  ⟨insertionHashing_sorts.perm, insertionHashing_sorts.sorted⟩

/-- A server of the weight one beside one of the weight `w`. -/
def besideHeavy (w : ℕ) : ServerPool :=
  { server := [{ name := [65], weight := 1 }, { name := [66], weight := w }], distType := .ketama }

/-- Beside a server of the weight 79, a server of the weight one owns a point: its share is computed
as one text, although it is less than a millionth above. -/
theorem ketama_owners_beside :
    ∃ p', serverPoolRun floatHashing (besideHeavy 79) ⟨1, true⟩ = some (.ok, p') ∧ Owns p' 0 ∧
      Owns p' 1 := by
  obtain ⟨howns, hends⟩ := ketama_owners rfl floatHashing_sorts
    (show Fresh (besideHeavy 79) from ⟨rfl, rfl, rfl⟩) rfl []
  obtain ⟨p, hp, hrun⟩ := hends (by decide) (by decide) (by decide)
  cases hp
  obtain ⟨p', hrun⟩ := hrun ⟨1, true⟩ rfl (by decide)
  have howns := howns _ _ p' rfl hrun (by decide) (by decide) (by decide)
  exact ⟨p', hrun, (howns 0 _ rfl).2 ⟨by decide, by decide +kernel⟩,
    (howns 1 _ rfl).2 ⟨by decide, by decide +kernel⟩⟩

/-- **A live server without a point**: its weight is one, beside a server of the weight one
hundred. -/
theorem ketama_starved :
    ∃ p', serverPoolRun floatHashing (besideHeavy 100) ⟨1, true⟩ = some (.ok, p') ∧
    (besideHeavy 100).server.all (IsLive true 1) = true ∧ ¬Owns p' 0 := by
  have hspace : Spacious (besideHeavy 100) :=
    Fresh.spacious ⟨rfl, rfl, rfl⟩ rfl (by decide) (by decide) (by decide)
  obtain ⟨p', hrun, howns⟩ := hspace.owns rfl floatHashing_sorts
    (show (⟨1, true⟩ : Sys).alloc = true from rfl)
    (by decide) (by decide)
  have hzero : pointHosts 1 101 2 = 0 := by decide +kernel
  refine ⟨p', hrun, by decide, fun hown => ?_⟩
  have hpos : 0 < pointHosts 1 101 2 := ((howns 0 _ rfl).1 hown).2
  omega

end CacheProxy
