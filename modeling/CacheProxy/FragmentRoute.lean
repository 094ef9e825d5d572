/-
**Fragments on their way to a server.**

The keys of a request are put together by the server they map to, and then each fragment is
forwarded to the server of its first key.  Both ask the ring, but forwarding first looks whether the
ring has to be rebuilt, and a connection that fails may eject a server: then the fragments that
follow meet another ring than the one that the keys were put together with.

Main definitions:

* `Attempt`, `forwardFragment`, `forwardLoop` — forwarding, as far as the pool goes;
* `fragmentsOf` — the keys of a request, put together by their servers;
* `CalmRun` — no step rebuilds the ring.

Main results:

* `Attempt.Calm.sameRing` — a calm step leaves the ring as it is;
* `fragments_routed` — **in a calm run every key of a fragment maps to the server it is sent to**;
* `fragment_misrouted` — a fragment with a key of another server.
-/

import CacheProxy.BackendIndex

namespace CacheProxy

/-! ### Forwarding -/

/-- What `req_forward` meets when it forwards a fragment: the clock in `server_pool_update` and in
the rebuild, and whether `server_connect` succeeds; if it fails, the clock in `server_failure`. -/
structure Attempt where
  now : ℤ
  sys : Sys
  connects : Bool
  failNow : ℤ := 0
  failSys : Sys := ⟨0, true⟩
  deriving DecidableEq, Repr

/-- **`req_forward` for a fragment with these keys**: the pool afterwards, and the server on whose
in-queue the fragment was put, if it was. -/
def forwardFragment (env : Hashing) (p : ServerPool) (a : Attempt) (keys : List (List Byte)) :
    Option (ServerPool × Option ℕ) :=
  match serverPoolUpdate env p a.now a.sys, keys with
  | some (.ok, p'), key :: _ =>
      match serverPoolIdx env p' 0 key with
      | none => none
      | some i =>
          if a.connects then some (p', some i)
          else (serverFailure env p' i a.failNow a.failSys).map fun q => (q, none)
  | some (_, p'), _ => some (p', none)
  | none, _ => none

/-- A fragment on a server's in-queue: the pool at that moment, the server and the keys. -/
structure Enqueued where
  pool : ServerPool
  server : ℕ
  keys : List (List Byte)

/-- The loop of `req_recv_done` over the fragments. -/
def forwardLoop (env : Hashing) : ServerPool → List (Attempt × List (List Byte)) →
    Option (List Enqueued)
  | _, [] => some []
  | p, (a, keys) :: rest =>
      match forwardFragment env p a keys with
      | none => none
      | some (p', o) =>
          (forwardLoop env p' rest).map fun es => (o.map fun i => ⟨p', i, keys⟩).toList ++ es

/-- **The fragments of a request**: for each place of the table the keys that go there, in order. -/
def fragmentsOf (env : Hashing) (p : ServerPool) (keys : List (List Byte)) :
    List (List (List Byte)) :=
  ((List.range p.ncontinuum).map fun i => keys.filter fun k =>
    serverPoolIdx env p 0 k == some i).filter
    fun f => !f.isEmpty

/-! ### Steps that leave the ring as it is -/

/-- Pools that send every key to the same server. -/
structure SameRing (p q : ServerPool) : Prop where
  continuum : q.continuum = p.continuum
  ncontinuum : q.ncontinuum = p.ncontinuum
  distType : q.distType = p.distType
  hashTag : q.hashTag = p.hashTag
  length : q.server.length = p.server.length

theorem SameRing.refl (p : ServerPool) : SameRing p p := ⟨rfl, rfl, rfl, rfl, rfl⟩

theorem SameRing.trans {p q r : ServerPool} (h : SameRing p q) (h' : SameRing q r) :
    SameRing p r where
  continuum := h'.continuum.trans h.continuum
  ncontinuum := h'.ncontinuum.trans h.ncontinuum
  distType := h'.distType.trans h.distType
  hashTag := h'.hashTag.trans h.hashTag
  length := h'.length.trans h.length

theorem SameRing.idx {p q : ServerPool} (h : SameRing p q) (env : Hashing) (rnd : ℕ)
    (key : List Byte) :
    serverPoolIdx env q rnd key = serverPoolIdx env p rnd key := by
  have hhash : ∀ k, serverPoolHash env q k = serverPoolHash env p k := fun k => by
    rw [serverPoolHash, serverPoolHash, h.length]
  simp only [serverPoolIdx, h.continuum, h.ncontinuum, h.distType, h.hashTag, hhash]

/-- **The step does not rebuild the ring**: hosts are not ejected, or no rebuild is due and the
connection is made, or it fails and its server has not failed so often that it is ejected now. -/
def Attempt.Calm (env : Hashing) (p : ServerPool) (a : Attempt) (keys : List (List Byte)) : Prop :=
  p.autoEjectHosts = false ∨
    ((p.nextRebuild = 0 ∨ a.now ≤ p.nextRebuild) ∧
      (a.connects = true ∨ ∀ key ∈ keys.head?, ∀ i ∈ serverPoolIdx env p 0 key, ∀ s ∈ p.server[i]?,
        (s.failureCount + 1) % 2 ^ 32 < p.serverFailureLimit))

theorem Attempt.Calm.update {env : Hashing} {p : ServerPool} {a : Attempt} {keys : List (List Byte)}
    (h : a.Calm env p keys) {m : RStatus × ServerPool}
    (hm : serverPoolUpdate env p a.now a.sys = some m) : m.2 = p := by
  unfold serverPoolUpdate at hm
  split at hm
  · cases hm
    rfl
  · next heject =>
    obtain ⟨hdue, -⟩ := h.resolve_left (by simpa using heject)
    split at hm
    · cases hm
      rfl
    · next hnext =>
      split at hm
      · cases hm
        rfl
      · rw [if_pos (hdue.resolve_left hnext)] at hm
        split at hm
        · cases hm
          rfl
        · cases hm
          rfl

/-- A failure that does not eject the server. -/
theorem serverFailure_sameRing {env : Hashing} {p q : ServerPool} {i : ℕ} {now : ℤ} {sys : Sys}
    (h : p.autoEjectHosts = false ∨
      ∀ s ∈ p.server[i]?, (s.failureCount + 1) % 2 ^ 32 < p.serverFailureLimit)
    (hq : serverFailure env p i now sys = some q) : SameRing p q := by
  unfold serverFailure at hq
  split at hq
  · cases hq
    exact .refl p
  · next heject =>
    have hfew := h.resolve_left (by simpa using heject)
    dsimp only at hq
    split at hq
    · cases hq
      exact ⟨rfl, rfl, rfl, rfl, List.length_modify ..⟩
    · next s hs =>
      rw [List.getElem?_modify_eq] at hs
      obtain ⟨t, ht, rfl⟩ := Option.map_eq_some_iff.1 hs
      rw [if_pos (hfew t ht)] at hq
      cases hq
      exact ⟨rfl, rfl, rfl, rfl, List.length_modify ..⟩

/-- **A calm step leaves the ring as it is.** -/
theorem Attempt.Calm.sameRing {env : Hashing} {p p' : ServerPool} {a : Attempt}
    {keys : List (List Byte)}
    {o : Option ℕ} (h : a.Calm env p keys) (hf : forwardFragment env p a keys = some (p', o)) :
    SameRing p p' := by
  unfold forwardFragment at hf
  split at hf
  · next q key rest hup =>
    cases h.update hup
    split at hf
    · cases hf
    · next i hi =>
      split at hf
      · cases hf
        exact .refl _
      · next hno =>
        obtain ⟨q, hq, heq⟩ := Option.map_eq_some_iff.1 hf
        cases heq
        refine serverFailure_sameRing ?_ hq
        rcases h with h | ⟨-, h⟩
        · exact .inl h
        · exact .inr (h.resolve_left hno key rfl i hi)
  · next hup _ =>
    cases hf
    cases h.update hup
    exact .refl _
  · cases hf

/-- The server that a fragment is put to is that of its first key. -/
theorem forwardFragment_first {env : Hashing} {p p' : ServerPool} {a : Attempt}
    {keys : List (List Byte)}
    {i : ℕ} (hf : forwardFragment env p a keys = some (p', some i)) :
    ∃ key ∈ keys, serverPoolIdx env p' 0 key = some i := by
  unfold forwardFragment at hf
  split at hf
  · next q key rest hup =>
    split at hf
    · cases hf
    · next j hj =>
      split at hf
      · cases hf
        exact ⟨key, by simp, hj⟩
      · obtain ⟨q, -, heq⟩ := Option.map_eq_some_iff.1 hf
        cases heq
  · cases hf
  · cases hf

/-- **No step of the loop rebuilds the ring**, in the state it meets. -/
def CalmRun (env : Hashing) : ServerPool → List (Attempt × List (List Byte)) → Prop
  | _, [] => True
  | p, (a, keys) :: rest =>
      a.Calm env p keys ∧ ∀ p' o, forwardFragment env p a keys = some (p', o) → CalmRun env p' rest

/-- The keys of a fragment map to one server. -/
def Uniform (env : Hashing) (p : ServerPool) (keys : List (List Byte)) : Prop :=
  ∃ i, ∀ key ∈ keys, serverPoolIdx env p 0 key = some i

theorem uniform_of_mem_fragmentsOf {env : Hashing} {p : ServerPool} {keys f : List (List Byte)}
    (hf : f ∈ fragmentsOf env p keys) : Uniform env p f := by
  obtain ⟨hmem, -⟩ := List.mem_filter.1 hf
  obtain ⟨i, -, rfl⟩ := List.mem_map.1 hmem
  refine ⟨i, fun key hkey => ?_⟩
  simpa using (List.mem_filter.1 hkey).2

/-- The loop, from a pool with the ring that the keys were put together with. -/
theorem forwardLoop_routed {env : Hashing} {p₀ : ServerPool}
    (xs : List (Attempt × List (List Byte))) :
    ∀ {p : ServerPool} {es : List Enqueued}, SameRing p₀ p → (∀ x ∈ xs, Uniform env p₀ x.2) →
      CalmRun env p xs → forwardLoop env p xs = some es →
        ∀ e ∈ es, ∀ key ∈ e.keys, serverPoolIdx env e.pool 0 key = some e.server := by
  induction xs with
  | nil =>
    intro p es _ _ _ hes
    cases hes
    simp
  | cons x xs ih =>
    obtain ⟨a, keys⟩ := x
    intro p es hsame huniform hcalm hes
    rw [forwardLoop] at hes
    split at hes
    · cases hes
    · next p' o hf =>
      obtain ⟨rest, hrest, rfl⟩ := Option.map_eq_some_iff.1 hes
      have hsame' : SameRing p₀ p' := hsame.trans (hcalm.1.sameRing hf)
      have hlater := ih hsame' (fun y hy => huniform y (by simp [hy])) (hcalm.2 p' o hf) hrest
      intro e he
      rcases List.mem_append.1 he with he | he
      · cases o with
        | none => simp at he
        | some i =>
          simp only [Option.map_some, Option.toList_some, List.mem_singleton] at he
          subst he
          -- the first key decides where the fragment goes, and the others agree with it
          obtain ⟨first, hfirst, hi⟩ := forwardFragment_first hf
          obtain ⟨j, hj⟩ := huniform (a, keys) (by simp)
          intro key hkey
          rw [hsame'.idx] at hi ⊢
          rw [hj key hkey, ← hi, hj first hfirst]
      · exact hlater e he

/-- **In a calm run every key of a fragment maps to the server it is sent to**, by the ring of that
moment: the keys of a request are put together in any state of the pool, and the fragments are
forwarded one after the other. -/
theorem fragments_routed {env : Hashing} {p : ServerPool} {keys : List (List Byte)}
    {as : List Attempt}
    {es : List Enqueued} (calm : CalmRun env p (as.zip (fragmentsOf env p keys)))
    (run : forwardLoop env p (as.zip (fragmentsOf env p keys)) = some es) :
    ∀ e ∈ es, ∀ key ∈ e.keys, serverPoolIdx env e.pool 0 key = some e.server :=
  forwardLoop_routed _ (.refl p)
    (fun x hx => uniform_of_mem_fragmentsOf (List.of_mem_zip (show (x.1, x.2) ∈ _ from hx)).2) calm
      run

/-- Two servers of the weight two, which are ejected when they fail. -/
def heavyPool : ServerPool :=
  { server := [{ weight := 2 }, { weight := 2 }], distType := .modula, serverFailureLimit := 1 }

/-- The two servers after the first was ejected at the time two. -/
def ejectedPool : ServerPool :=
  { heavyPool with
    server := [{ weight := 2, nextRetry := 30000002, ejectedAt := some 2 }, { weight := 2 }]
    continuum := List.replicate 4 (some ⟨1, 0⟩) ++ List.replicate 10 none
    ncontinuum := 2, nserverContinuum := 14, nliveServer := 1, nextRebuild := 30000002 }

/-- Forwarding `a` and `bb` at a time. -/
def forwardAt (now : ℤ) : Option (List Enqueued) :=
  forwardLoop lengthHashing ejectedPool ([⟨now, ⟨now, true⟩, true, 0, ⟨0, true⟩⟩].zip
    (fragmentsOf lengthHashing ejectedPool [str "a", str "bb"]))

/-- Before the rebuild is due the fragment goes to the server of its keys. -/
theorem fragments_routed_ejected : ∃ e, forwardAt 3 = some [e] ∧ e.server = 1 ∧
    serverPoolIdx lengthHashing e.pool 0 (str "bb") = some 1 := by
  have hcalm : CalmRun lengthHashing ejectedPool ([⟨3, ⟨3, true⟩, true, 0, ⟨0, true⟩⟩].zip
      (fragmentsOf lengthHashing ejectedPool [str "a", str "bb"])) :=
    ⟨.inr ⟨.inr (by decide), .inl rfl⟩, fun _ _ _ => trivial⟩
  have hrun : forwardAt 3 = some [⟨ejectedPool, 1, [str "a", str "bb"]⟩] := rfl
  exact ⟨_, hrun, rfl, fragments_routed hcalm hrun _ (List.mem_singleton_self _) (str "bb")
    (by simp)⟩

/-- **A fragment with a key of another server**: in this state of the pool both keys belong to the
second server and are put together; when the fragment is forwarded the rebuild is due, and it goes
to the first server, which is back, while one of its keys belongs to the second. -/
theorem fragment_misrouted :
    (∃ p₁, serverPoolRun lengthHashing heavyPool ⟨1, true⟩ = some (.ok, p₁) ∧
      p₁.events lengthHashing [.failure 0 2 ⟨2, true⟩] = some ejectedPool) ∧
    (forwardAt 30000003).map (List.map fun e =>
        (e.server, e.keys, serverPoolIdx lengthHashing e.pool 0 (str "bb"))) =
      some [(0, [str "a", str "bb"], some 1)] :=
  ⟨⟨_, rfl, rfl⟩, rfl⟩

end CacheProxy
