/-
**Servers as indexes into the table of fragments.**

When a request is cut into fragments the table of fragments has as many places as the ring has
points, and a key goes to the place with the number of its server.  The number of a server is below
the number of servers, not below the number of points: when a server of a small weight is ejected
the ring can have fewer points than the pool has servers.

Main definitions:

* `Indexed` — the entries of a ring name servers of the pool.

Main results:

* `Indexed.events` — whatever happens to the pool, they do;
* `backendIdx_lt` — **the table has a place for every key if there are as many points as servers**;
* `backendIdx_outside` — the last of two servers, after the first was ejected.
-/

import CacheProxy.Ketama
import CacheProxy.Ejection
import CacheProxy.RedisFragment

namespace CacheProxy

/-- The entries of the array name servers below `n`. -/
def Below (n : ℕ) (ring : List (Option RingEntry)) : Prop := ∀ e, some e ∈ ring → e.index < n

/-- **The entries of the ring name servers of the pool.** -/
def Indexed (p : ServerPool) : Prop := Below p.server.length p.continuum

/-! ### A rebuild -/

section Rebuild

variable {n : ℕ} {env : Hashing} {p : ServerPool} {sys : Sys}

theorem Below.set {ring : List (Option RingEntry)} (h : Below n ring) {e : RingEntry}
    (he : e.index < n)
    (i : ℕ) : Below n (ring.set i (some e)) := by
  intro x hx
  rcases List.mem_or_eq_of_mem_set hx with hx | hx
  · exact h x hx
  · cases hx
    exact he

theorem Below.realloc {ring : List (Option RingEntry)} (h : Below n ring) (k : ℕ) :
    Below n (ncRealloc ring k) := by
  intro x hx
  rcases List.mem_append.1 hx with hx | hx
  · exact h x (List.mem_of_mem_take hx)
  · cases List.eq_of_mem_replicate hx

theorem Below.writeEntries (es : List RingEntry) :
    ∀ {m m' : List (Option RingEntry) × ℕ}, Below n m.1 →
    (∀ e ∈ es, e.index < n) → CacheProxy.writeEntries es m = some m' → Below n m'.1 := by
  induction es with
  | nil =>
    intro m m' h _ hw
    cases hw
    exact h
  | cons e es ih =>
    rintro ⟨ring, i⟩ m' h hes hw
    rw [CacheProxy.writeEntries] at hw
    split at hw
    · refine ih ?_ (fun x hx => hes x (List.mem_cons_of_mem _ hx)) hw
      exact Below.set h (hes e (by simp)) i
    · cases hw

theorem Below.placeServers {eject : Bool} {now : ℤ} {entries : ℕ → PoolServer → List RingEntry}
    (hentries : ∀ k s, ∀ e ∈ entries k s, e.index = k) (ss : List PoolServer) :
    ∀ {k : ℕ} {m m' : List (Option RingEntry) × ℕ},
      CacheProxy.placeServers eject now entries k ss m = some m' → k + ss.length ≤ n → Below n m.1 →
        Below n m'.1 := by
  induction ss with
  | nil =>
    intro k m m' hp _ h
    cases hp
    exact h
  | cons s ss ih =>
    intro k m m' hp hk h
    rw [List.length_cons] at hk
    rw [CacheProxy.placeServers] at hp
    split at hp
    · exact ih hp (by omega) h
    · split at hp
      · cases hp
      · next hw =>
        refine ih hp (by omega) (h.writeEntries _ (fun e he => ?_) hw)
        rw [hentries k s e he]
        omega

theorem index_of_mem_entries {total live i : ℕ} {s : PoolServer} {d : DistType} {e : RingEntry}
    (he : e ∈ d.entries env total live i s) : e.index = i := by
  cases d with
  | ketama =>
    obtain ⟨v, -, rfl⟩ := List.mem_map.1 he
    rfl
  | modula => rw [List.eq_of_mem_replicate he]
  | random => rw [List.mem_singleton.1 he]

theorem Below.finish (hsorts : Sorts env) {ring : List (Option RingEntry)} (h : Below n ring)
    (k : ℕ)
    (d : DistType) : Below n (d.finish env ring k) := by
  cases d with
  | ketama =>
    intro x hx
    rcases List.mem_append.1 hx with hx | hx
    · obtain ⟨y, hy, hyx⟩ := List.mem_map.1 hx
      cases hyx
      obtain ⟨z, hz, rfl⟩ := List.mem_filterMap.1 ((hsorts.perm _).mem_iff.1 hy)
      exact h x (List.mem_of_mem_take hz)
    · exact h x (List.mem_of_mem_drop hx)
  | modula | random => exact h

theorem indexed_of_rebuild {total : ℕ} {now : ℤ} {m : RStatus × ServerPool}
    (hm : CacheProxy.rebuild env p total now = some m) (hsorts : Sorts env) (h : Indexed p) :
    Indexed m.2 ∧ m.2.server.length = p.server.length := by
  unfold CacheProxy.rebuild at hm
  split at hm
  · cases hm
  · next ring k hp =>
    cases hm
    have hring : Below p.server.length ring :=
      Below.placeServers (fun _ _ e he => index_of_mem_entries he) p.server hp (by omega) h
    exact ⟨hring.finish hsorts k _, rfl⟩

theorem length_scan (eject : Bool) (now : ℤ) (ss : List PoolServer) :
    (scanServers eject now ss).server.length = ss.length := by
  rw [scanServers, foldl_scan_server]
  simp

/-- **A rebuild** writes entries of servers of the pool only. -/
theorem Indexed.run (hsorts : Sorts env) (h : Indexed p) {m : RStatus × ServerPool}
    (hm : serverPoolRun env p sys = some m) : Indexed m.2 ∧
    m.2.server.length = p.server.length := by
  have hlen := length_scan p.autoEjectHosts sys.now p.server
  unfold serverPoolRun at hm
  split at hm
  · cases hm
    exact ⟨h, rfl⟩
  · dsimp only at hm
    have hscan : Below (scanServers p.autoEjectHosts sys.now p.server).server.length
      p.continuum := by
      rw [hlen]
      exact h
    split at hm
    · cases hm
      exact ⟨hscan, hlen⟩
    · split at hm
      · split at hm
        · obtain ⟨hind, hl⟩ := indexed_of_rebuild hm hsorts (hscan.realloc _)
          exact ⟨hind, hl.trans hlen⟩
        · cases hm
          exact ⟨hscan, hlen⟩
      · obtain ⟨hind, hl⟩ := indexed_of_rebuild hm hsorts hscan
        exact ⟨hind, hl.trans hlen⟩

/-- A server is changed. -/
theorem Indexed.modify (h : Indexed p) (i : ℕ) (f : PoolServer → PoolServer) :
    Indexed { p with server := p.server.modify i f } := by
  rw [Indexed, List.length_modify]
  exact h

/-- **Whatever happens to the pool**, the entries of the ring name its servers. -/
theorem Indexed.event (hsorts : Sorts env) (h : Indexed p) (e : PoolEvent) {p' : ServerPool}
    (hp : p.event env e = some p') : Indexed p' := by
  cases e with
  | ok i =>
    cases hp
    exact h.modify i _
  | update =>
    obtain ⟨m, hm, rfl⟩ := Option.map_eq_some_iff.1 hp
    unfold serverPoolUpdate at hm
    split at hm
    · cases hm
      exact h
    · split at hm
      · cases hm
        exact h
      · split at hm
        · cases hm
          exact h
        · split at hm
          · split at hm
            · cases hm
              exact h
            · cases hm
              exact h
          · exact (h.run hsorts hm).1
  | failure i =>
    rw [ServerPool.event, serverFailure] at hp
    split at hp
    · cases hp
      exact h
    · dsimp only at hp
      split at hp
      · cases hp
        exact h.modify i _
      · split at hp
        · cases hp
          exact h.modify i _
        · split at hp
          · cases hp
            exact h.modify i _
          · obtain ⟨m, hm, rfl⟩ := Option.map_eq_some_iff.1 hp
            exact (Indexed.run hsorts ((h.modify i _).modify i _) hm).1

theorem Indexed.events (hsorts : Sorts env) (es : List PoolEvent) :
    ∀ {p p' : ServerPool}, Indexed p →
    p.events env es = some p' → Indexed p' := by
  induction es with
  | nil =>
    intro p p' h hp
    cases hp
    exact h
  | cons e es ih =>
    intro p p' h hp
    rw [ServerPool.events, List.foldlM_cons] at hp
    obtain ⟨q, hq, hp⟩ := Option.bind_eq_some_iff.1 hp
    exact ih (h.event hsorts e hq) hp

end Rebuild

/-! ### The index of a key -/

/-- The index of a key is that of an entry. -/
theorem Indexed.idx_lt {env : Hashing} {p : ServerPool} (h : Indexed p) {rnd : ℕ} {key : List Byte}
    {i : ℕ}
    (hi : serverPoolIdx env p rnd key = some i) : i < p.server.length := by
  have hmodula : ∀ {hash : ℕ}, modulaDispatch p.continuum p.ncontinuum hash = some i →
      i < p.server.length := by
    intro hash hm
    unfold modulaDispatch at hm
    split at hm
    · cases hm
    · split at hm
      · next he =>
        cases hm
        exact h _ (List.mem_of_getElem? he)
      · cases hm
  rw [serverPoolIdx] at hi
  split at hi
  · unfold ketamaDispatch at hi
    split at hi
    · cases hi
    · split at hi
      · cases hi
      · split at hi
        · next he =>
          cases hi
          exact h _ (List.mem_of_getElem? he)
        · cases hi
  · exact hmodula hi
  · exact hmodula hi

/-- With indexes below its length the table is not left. -/
theorem fragmentKeys_inside {size n step : ℕ} (xs : List (ℕ × List Byte)) : ∀ {s : FragState},
    (∀ x ∈ xs, x.1 < n) → fragmentKeys size n step s xs ≠ .error .outOfBounds := by
  induction xs with
  | nil =>
    intro s _ h
    rw [fragmentKeys] at h
    cases h
  | cons x xs ih =>
    obtain ⟨idx, key⟩ := x
    intro s hxs
    have hidx : idx < n := hxs (idx, key) (by simp)
    have hone : fragmentKey size n step s idx key ≠ .error .outOfBounds := by
      rw [fragmentKey, if_neg (by omega)]
      dsimp only
      split
      · intro h
        cases h
      · split
        · intro h
          cases h
        · split
          · intro h
            cases h
          · intro h
            cases h
    rw [fragmentKeys]
    split
    · next e he =>
      intro h
      cases h
      exact hone he
    · exact ih fun y hy => hxs y (by simp [hy])

/-- **Every index fits the table of fragments if the ring has at least as many points as the pool
has servers**: after a pool of any distribution was set up, and after any failures, successes and
updates, the index of a key is below the number of points, which is the length of the table, and the
loop over the keys does not leave the table. -/
theorem backendIdx_lt {env : Hashing} (sorts : Sorts env) {p₀ p₁ p : ServerPool} (fresh : Fresh p₀)
    {sys : Sys}
    (init : serverPoolRun env p₀ sys = some (.ok, p₁)) {es : List PoolEvent}
    (run : p₁.events env es = some p)
    (points : p.server.length ≤ p.ncontinuum) :
    (∀ rnd key i, serverPoolIdx env p rnd key = some i → i < p.ncontinuum) ∧
      ∀ (size step : ℕ) (s : FragState) (xs : List (ℕ × List Byte)),
        (∀ x ∈ xs, ∃ rnd, serverPoolIdx env p rnd x.2 = some x.1) →
          fragmentKeys size p.ncontinuum step s xs ≠ .error .outOfBounds := by
  have hfresh : Indexed p₀ := by
    intro e he
    rw [fresh.continuum] at he
    simp at he
  have hind : Indexed p := (hfresh.run sorts init).1.events sorts es run
  have hlt : ∀ rnd key i, serverPoolIdx env p rnd key = some i → i < p.ncontinuum :=
    fun rnd key i hi =>
    (hind.idx_lt hi).trans_le points
  refine ⟨hlt, fun size step s xs hxs => fragmentKeys_inside xs fun x hx => ?_⟩
  obtain ⟨rnd, hi⟩ := hxs x hx
  exact hlt rnd x.2 x.1 hi

/-- Two servers of the weight one, which are ejected when they fail. -/
def equalPool : ServerPool :=
  { server := [{ weight := 1 }, { weight := 1 }], distType := .modula, serverFailureLimit := 1 }

/-- Two servers and two points. -/
theorem backendIdx_lt_two :
    ∃ p₁, serverPoolRun insertionHashing equalPool ⟨1, true⟩ = some (.ok, p₁) ∧
    ∀ rnd key i, serverPoolIdx insertionHashing p₁ rnd key = some i → i < p₁.ncontinuum := by
  obtain ⟨p₁, init, hlen⟩ : ∃ p₁, serverPoolRun insertionHashing equalPool ⟨1, true⟩ =
      some (.ok, p₁) ∧ p₁.server.length ≤ p₁.ncontinuum := ⟨_, rfl, by decide⟩
  have hrun : p₁.events insertionHashing [] = some p₁ := rfl
  exact ⟨p₁, init, (backendIdx_lt insertionHashing_sorts ⟨rfl, rfl, rfl⟩ init hrun hlen).1⟩

/-- **After the first of two servers was ejected the ring has one point and the keys of the second
server go to the place behind the table.** -/
theorem backendIdx_outside :
    ∃ p₁ p, serverPoolRun lengthHashing equalPool ⟨1, true⟩ = some (.ok, p₁) ∧
    p₁.events lengthHashing [.failure 0 2 ⟨2, true⟩] = some p ∧ p.ncontinuum = 1 ∧
      serverPoolIdx lengthHashing p 0 (str "k") = some 1 ∧
      ∀ size step s, fragmentKeys size p.ncontinuum step s [(1, str "k")] =
        .error .outOfBounds := by
  refine ⟨_, _, rfl, rfl, rfl, rfl, fun size step s => ?_⟩
  rfl

end CacheProxy
