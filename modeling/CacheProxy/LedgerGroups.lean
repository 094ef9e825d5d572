/-
**Fragments and their owners.**

The fragments of a request and the request itself, their *owner*, have one fragment id.  As long as
the fragments are not all done the owner is in the queue of the client in front of them, and the
group is together there; so whoever follows `frag_owner` finds a message that was not given back.

Main results:

* `Groups.move` — who is a fragment of whom does not change;
* `Parts.move` — the group stays together behind its owner.
-/

import CacheProxy.LedgerFrame

namespace CacheProxy

open Function (update)
open Ledger

variable {mode : Mode} {hold : ℕ → Prop} {b b' : Ledger} {m s c : ℕ}

/-! ### Groups -/

/-- **Groups of fragments.** -/
structure Groups (b : Ledger) : Prop where
  zero : ∀ m, b.fragId m = 0 ↔ b.fragOwner m = none
  bound : ∀ m, b.fragId m < b.nextFrag
  taken : ∀ m o, b.fragOwner m = some o → m < b.nextMsg
  owner : ∀ m o, b.fragOwner m = some o → b.fragOwner o = some o ∧ b.fragId o = b.fragId m ∧
    b.owner o = b.owner m ∧ (m = o ∨ m ∈ b.frags o)
  same : ∀ m k x y, b.fragOwner m = some x → b.fragOwner k = some y → b.fragId m = b.fragId k →
    x = y
  member : ∀ o m, m ∈ b.frags o → b.fragOwner m = some o ∧ m ≠ o
  nodup : ∀ o, (b.frags o).Nodup

namespace Groups

theorem take (h : Groups b) (request : Bool) (owner : Option ℕ) (swallow bare : Bool) :
    Groups (b.take request owner swallow bare) := by
  obtain ⟨h1, h2, h3, h4, h5, h6, h7⟩ := h
  have hpos : 0 < b.nextFrag := (Nat.zero_le _).trans_lt (h2 0)
  refine ⟨?_, ?_, ?_, ?_, ?_, ?_, h7⟩ <;> dsimp only [Ledger.take] at *
  all_goals grind only [Function.update_apply]

theorem split (h : Groups b) (live : b.Live m) (n : ℕ) (owner : b.owner m = some c)
    (whole : b.fragOwner m = none) (bare : ℕ → Bool) : Groups (b.split c m n bare) := by
  obtain ⟨h1, h2, h3, h4, h5, h6, h7⟩ := h
  have hpos : 0 < b.nextFrag := (Nat.zero_le _).trans_lt (h2 0)
  have hids : ∀ k, k ∈ List.range' b.nextMsg n ↔ b.nextMsg ≤ k ∧ k < b.nextMsg + n := by
    intro k
    rw [List.mem_range'_1]
  refine ⟨?_, ?_, ?_, ?_, ?_, ?_, ?_⟩ <;> dsimp only [Ledger.split, Live] at *
  case refine_7 =>
    intro o
    by_cases ho : o = m
    · subst ho
      rw [Function.update_self]
      exact List.nodup_range'
    · rw [Function.update_of_ne ho]
      exact h7 o
  all_goals grind only [Function.update_apply]

theorem move (h : Groups b) (hmove : Move mode hold b b') : Groups b' := by
  cases hmove with
  | listen => exact { h.take true _ false true with }
  | @split c m n bare times seq loose apart owner whole =>
    exact { h.split loose.1.live n owner whole bare with }
  | make => exact { h.take false _ false true with }
  | auth c key bare => exact { h.take true (some c) true bare with }
  | select key bare => exact { h.take true none true bare with }
  | @answer s m rest bare => exact { h.take false (some s) false bare with }
  | @swallowReply s m rest bare => exact { h.take false (some s) false bare with }
  | @lose s bare => exact { h.take false (some s) false bare with }
  | blame queued done peer fault bare => exact { h.take false none false bare with }
  | _ => exact { h with }

end Groups

/-- **The order of the fragments**: the places of the keys are fragments of the request, and
fragments are requests. -/
structure Places (b : Ledger) : Prop where
  seq : ∀ o, ∀ k ∈ b.fragSeq o, k ∈ b.frags o
  request : ∀ m o, b.fragOwner m = some o → b.request m = true

namespace Places

theorem take (h : Places b) (hg : Groups b) (request : Bool) (owner : Option ℕ)
    (swallow bare : Bool) (now : ℕ) (times : Times) :
    Places ((b.take request owner swallow bare).start b.nextMsg now times) := by
  have htaken := hg.taken
  obtain ⟨h1, h2⟩ := h
  refine ⟨?_, ?_⟩ <;> dsimp only [Ledger.take, Ledger.start] at *
  all_goals grind only [Function.update_apply, List.not_mem_nil]

theorem move (h : Places b) (hg : Groups b) (hmove : Move mode hold b b') : Places b' := by
  cases hmove with
  | @listen c times => exact { h.take hg true (some c) false true mode.now times with }
  | @split c m n bare times seq loose =>
    have htaken := hg.taken
    have hreq := loose.1.request
    have hids : ∀ k, k ∈ List.range' b.nextMsg n ↔ b.nextMsg ≤ k ∧ k < b.nextMsg + n := by
      intro k
      rw [List.mem_range'_1]
    obtain ⟨h1, h2⟩ := h
    refine ⟨?_, ?_⟩ <;> dsimp only [Ledger.split] at *
    all_goals grind only [Function.update_apply, List.not_mem_nil]
  | @make c m times =>
    exact { h.take hg false (some c) false true mode.now times with }
  | @auth s c key bare times => exact { h.take hg true (some c) true bare mode.now times with }
  | @select s key bare times => exact { h.take hg true none true bare mode.now times with }
  | @answer s m rest bare times => exact { h.take hg false (some s) false bare mode.now times with }
  | @swallowReply s m rest bare times =>
    exact { h.take hg false (some s) false bare mode.now times with }
  | @lose s bare mute times => exact { h.take hg false (some s) false bare mode.now times with }
  | @blame c m queued done peer fault bare times =>
    exact { h.take hg false none false bare 0 times with }
  | _ => exact { h with }

end Places

/-! ### Groups in the queues of clients -/

/-- **Fragments in the queues**: behind their owner and next to each other, until all are done. -/
structure Parts (b : Ledger) : Prop where
  fdone_done : ∀ m, b.fdone m = true → b.done m = true
  behind : ∀ c m o, b.InClient c m → b.fragOwner m = some o → b.fdone m = false →
    b.closing c = false → o ∈ b.outQ c
  uniform : ∀ c m k o, b.InClient c m → b.InClient c k → b.fragOwner m = some o →
    b.fragOwner k = some o → b.fdone m = b.fdone k
  grouped : ∀ c, b.kind c = .client → Grouped b.fragId 0 (b.outQ c)
  first : ∀ c, b.kind c = .client → (b.outQ c).Pairwise fun x y => b.fragOwner x ≠ some y
  ownerDone : ∀ c m, b.InClient c m → b.fragOwner m = some m → b.done m = true
  all : ∀ c m o, b.InClient c m → b.fdone m = true → b.fragOwner m = some o →
    ∀ k ∈ b.frags o, b.done k = true
  gone : ∀ c m o, b.swallow m = true → b.fragOwner m = some o → b.InClient c o →
    b.closing c = true
  sound : b.sound = true

namespace Parts

/-! ### Operations -/

theorem take (h : Parts b) (hq : Queues b) (hg : Groups b) (request : Bool) (owner : Option ℕ)
    (swallow bare : Bool) : Parts (b.take request owner swallow bare) := by
  have hlt : ∀ d k, b.kind d = .client → k ∈ b.outQ d → k < b.nextMsg := fun d k hd hk =>
    (hq.client d k ⟨hd, hk⟩).1.1
  have htaken := hg.taken
  have howner := hg.owner
  have hmember := hg.member
  obtain ⟨h1, h2, h3, h4, h5, h6, h7, h8, h9⟩ := h
  refine ⟨?_, ?_, ?_, ?_, ?_, ?_, ?_, ?_, h9⟩ <;> dsimp only [Ledger.take, InClient] at *
  case refine_4 =>
    exact fun d hd => (h4 d hd).congr fun k hk => Function.update_of_ne (hlt d k hd hk).ne _ _
  case refine_5 =>
    refine fun d hd => (h5 d hd).imp_of_mem fun {x y} hx hy hxy => ?_
    rwa [Function.update_of_ne (hlt d x hd hx).ne]
  all_goals grind only [Function.update_apply]

theorem setDone (h : Parts b) (m : ℕ) : Parts { b with done := update b.done m true } := by
  obtain ⟨h1, h2, h3, h4, h5, h6, h7, h8, h9⟩ := h
  refine ⟨?_, h2, h3, h4, h5, ?_, ?_, h8, h9⟩ <;> dsimp only [InClient] at *
  all_goals grind only [Function.update_apply]

/-- The queues of a server change. -/
theorem setServer (h : Parts b) (kind : b.kind s = .server) (inQ : ℕ → List ℕ) (q : List ℕ) :
    Parts { b with inQ := inQ, outQ := update b.outQ s q } := by
  have hout : ∀ d, b.kind d = .client → update b.outQ s q d = b.outQ d := by
    intro d hd
    refine Function.update_of_ne ?_ _ _
    rintro rfl
    simp [kind] at hd
  obtain ⟨h1, h2, h3, h4, h5, h6, h7, h8, h9⟩ := h
  refine ⟨h1, ?_, ?_, ?_, ?_, ?_, ?_, ?_, h9⟩ <;> dsimp only [InClient] at *
  case refine_3 => exact fun d hd => hout d hd ▸ h4 d hd
  case refine_4 => exact fun d hd => hout d hd ▸ h5 d hd
  all_goals grind only

/-- A request leaves the queue of its client: the owner of fragments only if they are all done. -/
theorem retire (h : Parts b) (hg : Groups b) (queued : b.InClient c m)
    (ended : b.closing c = true ∨ (b.fragOwner m = some m → b.fdone m = true)) :
    Parts (b.retire c m) := by
  have howner := hg.owner
  have hmem : ∀ d k, k ∈ update b.outQ c ((b.outQ c).erase m) d → k ∈ b.outQ d := by
    intro d k hk
    grind only [Function.update_apply, List.mem_of_mem_erase]
  have hsub : ∀ d, (update b.outQ c ((b.outQ c).erase m) d).Sublist (b.outQ d) := by
    intro d
    by_cases hd : d = c
    · subst hd
      rw [Function.update_self]
      exact List.erase_sublist
    · rw [Function.update_of_ne hd]
  obtain ⟨h1, h2, h3, h4, h5, h6, h7, h8, h9⟩ := h
  refine ⟨h1, ?_, ?_, ?_, ?_, ?_, ?_, ?_, h9⟩ <;> dsimp only [Ledger.retire, InClient] at *
  case refine_1 =>
    intro d k o hk ho hf hc
    have hin := h2 d k o ⟨hk.1, hmem d k hk.2⟩ ho hf hc
    by_cases hd : d = c
    · subst hd
      rw [Function.update_self]
      refine (List.mem_erase_of_ne ?_).2 hin
      rintro rfl
      have := h3 d o k o queued ⟨hk.1, hmem d k hk.2⟩ (howner k o ho).1 ho
      rcases ended with hc' | hf'
      · simp [hc] at hc'
      · simp [hf, hf' (howner k o ho).1] at this
    · rwa [Function.update_of_ne hd]
  case refine_3 => exact fun d hd => (h4 d hd).sublist (hsub d)
  case refine_4 => exact fun d hd => (h5 d hd).sublist (hsub d)
  all_goals grind only

theorem split (h : Parts b) (hq : Queues b) (hg : Groups b) (loose : b.Loose m) (n : ℕ)
    (whole : b.fragOwner m = none) (bare : ℕ → Bool) : Parts (b.split c m n bare) := by
  have hlt : ∀ d k, b.kind d = .client → k ∈ b.outQ d → k ≠ m ∧ ¬ b.nextMsg ≤ k := fun d k hd hk =>
    ⟨fun hkm => loose.2 d (hkm ▸ hk), (hq.client d k ⟨hd, hk⟩).1.1.not_ge⟩
  have hids : ∀ k, k ∈ List.range' b.nextMsg n ↔ b.nextMsg ≤ k ∧ k < b.nextMsg + n := by
    intro k
    rw [List.mem_range'_1]
  have htaken := hg.taken
  have howner := hg.owner
  have hmember := hg.member
  have hout := loose.2
  obtain ⟨h1, h2, h3, h4, h5, h6, h7, h8, h9⟩ := h
  refine ⟨?_, ?_, ?_, ?_, ?_, ?_, ?_, ?_, h9⟩ <;> dsimp only [Ledger.split, InClient] at *
  case refine_4 =>
    refine fun d hd => (h4 d hd).congr fun k hk => ?_
    rw [Function.update_of_ne (hlt d k hd hk).1, if_neg]
    grind only
  case refine_5 =>
    refine fun d hd => (h5 d hd).imp_of_mem fun {x y} hx hy hxy => ?_
    rw [Function.update_of_ne (hlt d x hd hx).1, if_neg]
    · exact hxy
    · grind only
  all_goals grind only [Function.update_apply]

/-- A request joins the queue of its client: one without fragments, a fragment behind its owner, or
the owner of new fragments. -/
theorem join (h : Parts b) (hg : Groups b) (kind : b.kind c = .client) (fdone : b.fdone m = false)
    (group : b.fragOwner m = none ∨
      (∃ o before behind, b.fragOwner m = some o ∧ o ≠ m ∧ b.fdone o = false ∧
        b.outQ c = before ++ o :: behind ∧ ∀ k ∈ behind, b.fragId k = b.fragId o) ∨
      b.fragOwner m = some m ∧ b.done m = true ∧ (∀ k ∈ b.outQ c, b.fragId k ≠ b.fragId m) ∧
        ∀ k ∈ b.frags m, b.swallow k = false) (swallow : b.swallow m = false) :
    Parts { b with outQ := update b.outQ c (b.outQ c ++ [m]) } := by
  have howner := hg.owner
  have hzero := hg.zero
  have hmem : ∀ d k, k ∈ update b.outQ c (b.outQ c ++ [m]) d ↔ k ∈ b.outQ d ∨ d = c ∧ k = m := by
    intro d k
    grind [Function.update_apply]
  have hbehind : ∀ o, b.fragOwner m = some o → o = m ∨ o ∈ b.outQ c ∧ b.fdone o = false := by
    intro o ho
    rcases group with hn | ⟨o', before, behind, ho', hne, hf, hq, -⟩ | ⟨hm, -⟩
    · simp [hn] at ho
    · obtain rfl : o' = o := by simpa [ho'] using ho
      exact .inr ⟨by simp [hq], hf⟩
    · exact .inl (by simpa [hm] using ho.symm)
  have hnew : b.fragOwner m = some m → (∀ k ∈ b.outQ c, b.fragId k ≠ b.fragId m) ∧
      b.done m = true ∧ ∀ k ∈ b.frags m, b.swallow k = false := by
    intro hm
    rcases group with hn | ⟨o', before, behind, ho', hne, -⟩ | ⟨-, hd, hq, hs⟩
    · simp [hn] at hm
    · exact absurd (Option.some.inj (ho'.symm.trans hm)) hne
    · exact ⟨hq, hd, hs⟩
  have hgrouped := h.grouped c kind
  have hfirst := h.first c kind
  obtain ⟨h1, h2, h3, h4, h5, h6, h7, h8, h9⟩ := h
  refine ⟨h1, ?_, ?_, ?_, ?_, ?_, ?_, ?_, h9⟩ <;> dsimp only [InClient] at *
  case refine_3 =>
    intro d hd
    by_cases hdc : d = c
    · subst hdc
      rw [Function.update_self]
      rcases group with hn | ⟨o, before, behind, ho, hne, hf, hq, hb⟩ | ⟨hm, -, hq, -⟩
      · exact hgrouped.concat (.inl ((hzero m).2 hn))
      · rw [hq] at hgrouped ⊢
        exact hgrouped.concat_group (howner m o ho).2.1.symm hb
      · exact hgrouped.concat (.inr hq)
    · rw [Function.update_of_ne hdc]
      exact h4 d hd
  case refine_4 =>
    intro d hd
    by_cases hdc : d = c
    · subst hdc
      rw [Function.update_self, List.pairwise_append]
      refine ⟨hfirst, by simp, fun x hx y hy hxy => ?_⟩
      obtain rfl : y = m := by simpa using hy
      obtain ⟨hm, hid, -⟩ := howner x y hxy
      exact (hnew hm).1 x hx hid.symm
    · rw [Function.update_of_ne hdc]
      exact h5 d hd
  all_goals grind only

/-- The neighbours of an owner are its fragments. -/
theorem mem_neighbours (h : Parts b) (hq : Queues b) (hg : Groups b) (queued : b.InClient c m)
    (owner : b.fragOwner m = some m) {k : ℕ} :
    k ∈ m :: b.neighbours c m ↔ k ∈ b.outQ c ∧ b.fragOwner k = some m := by
  have hz : b.fragId m ≠ 0 := by
    rw [Ne, hg.zero, owner]
    simp
  have hnodup := (List.nodup_append.1 (hq.nodup c)).2.1
  rw [List.mem_cons, Ledger.neighbours, mem_around (h.grouped c queued.1) hnodup queued.2 hz]
  constructor
  · rintro (rfl | ⟨hk, -, hid⟩)
    · exact ⟨queued.2, owner⟩
    · refine ⟨hk, ?_⟩
      obtain ⟨o, ho⟩ := Option.ne_none_iff_exists'.1 (fun hn => hz (hid ▸ (hg.zero k).2 hn))
      rw [ho, hg.same k m o m ho owner hid]
  · rintro ⟨hk, ho⟩
    by_cases hkm : k = m
    · exact .inl hkm
    · exact .inr ⟨hk, hkm, (hg.owner k m ho).2.1.symm⟩

/-- All fragments of a request are done. -/
theorem mark (h : Parts b) (hq : Queues b) (hg : Groups b) (queued : b.InClient c m)
    (owner : b.fragOwner m = some m) (done : ∀ k ∈ m :: b.neighbours c m, b.done k = true)
    (all : ∀ k ∈ b.frags m, b.done k = true) :
    Parts { b with
      fdone := fun k => if k ∈ m :: b.neighbours c m then true else b.fdone k
      sound := b.sound && b.ownerQueued m m } := by
  have hmem := fun k => h.mem_neighbours hq hg queued owner (k := k)
  obtain ⟨hlive, -, ho, -⟩ := hq.client c m queued
  have hclient : ∀ d k, b.kind d = .client → k ∈ b.outQ d → b.owner k = some d :=
    fun d k hd hk => (hq.client d k ⟨hd, hk⟩).2.2.1
  obtain ⟨h1, h2, h3, h4, h5, h6, h7, h8, h9⟩ := h
  refine ⟨?_, ?_, ?_, h4, h5, h6, ?_, h8, ?_⟩ <;> dsimp only [InClient] at *
  case refine_5 =>
    have hin : (b.outQ c).contains m = true := List.contains_iff_mem.2 queued.2
    simp [Ledger.ownerQueued, h9, hlive.1, hlive.2, ho, queued.2]
  · intro k hk
    split at hk
    · exact done k ‹_›
    · exact h1 k hk
  · intro d k o hk hko hf hc
    split at hf
    · cases hf
    · exact h2 d k o hk hko hf hc
  · intro d k k' o hk hk' hko hko'
    have hold := h3 d k k' o hk hk' hko hko'
    simp only [hmem]
    grind only
  · intro d k o hk hf hko
    by_cases hkm : k ∈ m :: b.neighbours c m
    · obtain rfl : m = o := by simpa [((hmem k).1 hkm).2] using hko
      exact all
    · rw [if_neg hkm] at hf
      exact h7 d k o hk hf hko

/-- The client of a request is gone. -/
theorem swallowed (h : Parts b) (hq : Queues b) (hg : Groups b) (queued : b.InClient c m)
    (closing : b.closing c = true) :
    Parts { b.retire c m with swallow := update b.swallow m true } := by
  have h' := h.retire hg queued (.inl closing)
  refine { h' with gone := fun d k o hs ho hd => ?_ }
  by_cases hk : k = m
  · subst hk
    have hod : b.InClient d o := by
      refine ⟨hd.1, ?_⟩
      have := hd.2
      dsimp only [Ledger.retire] at this
      grind only [Function.update_apply, List.mem_of_mem_erase]
    have hown : b.owner o = b.owner k := (hg.owner k o ho).2.2.1
    rw [(hq.client d o hod).2.2.1, (hq.client c k queued).2.2.1, Option.some.injEq] at hown
    exact hown ▸ closing
  · exact h'.gone d k o ((Function.update_of_ne hk _ _).symm.trans hs) ho hd

/-- A connection without requests becomes one of another kind. -/
theorem setKind (h : Parts b) (kind : ConnKind) (outQ : b.outQ c = []) :
    Parts { b with kind := update b.kind c kind } := by
  obtain ⟨h1, h2, h3, h4, h5, h6, h7, h8, h9⟩ := h
  refine ⟨h1, ?_, ?_, ?_, ?_, ?_, ?_, ?_, h9⟩ <;> dsimp only [InClient] at *
  case refine_3 =>
    intro d hd
    by_cases hdc : d = c
    · subst hdc
      rw [outQ]
      exact fun x y w hs => absurd hs (by simp)
    · exact h4 d (by rwa [Function.update_of_ne hdc] at hd)
  case refine_4 =>
    intro d hd
    by_cases hdc : d = c
    · subst hdc
      rw [outQ]
      exact .nil
    · exact h5 d (by rwa [Function.update_of_ne hdc] at hd)
  all_goals grind [Function.update_apply]

/-- The owner of a fragment that a server has is in the queue of its client. -/
theorem owner_queued (h : Parts b) (hq : Queues b) (hs : b.InServer s m)
    (swallow : b.swallow m = false) (noreply : b.noreply m = false) (calm : b.Calm) {o : ℕ}
    (ho : b.fragOwner m = some o) :
    ∃ c, b.owner m = some c ∧ b.kind c = .client ∧ o ∈ b.outQ c ∧ b.Live o := by
  obtain ⟨c, hc, hin⟩ := hq.home s m hs swallow noreply
  have hf : b.fdone m = false := by
    by_contra hf
    simpa [(hq.server s m hs).2.2.1] using h.fdone_done m (by simpa using hf)
  have hout := h.behind c m o hin ho hf (calm c hin.1)
  exact ⟨c, hc, hin.1, hout, (hq.client c o ⟨hin.1, hout⟩).1⟩

/-- A request with its owner in the queue is counted. -/
theorem bump (h : Parts b) (queued : ∀ o, b.fragOwner m = some o → b.ownerQueued m o = true) :
    Parts (b.bump m) where
  __ := h
  sound := by
    simp only [Ledger.bump, h.sound, Bool.true_and, Option.all_eq_true]
    exact queued

end Parts

/-! ### Counting fragments -/

/-- **The counter of a fragmented request**: of its fragments that are done, those that could not be
forwarded were not counted. -/
structure Counts (b : Ledger) : Prop where
  plain : ∀ m, b.fragOwner m ≠ some m → b.nfragDone m = 0
  count : ∀ c o, b.InClient c o → b.fragOwner o = some o → b.closing c = false →
    b.nfrag o = (b.frags o).length ∧
      b.nfragDone o + (b.frags o).countP b.failed = (b.frags o).countP b.done

namespace Counts

/-- A counter that has reached the number of fragments. -/
theorem all_done (h : Counts b) (queued : b.InClient c m) (owner : b.fragOwner m = some m)
    (closing : b.closing c = false) (enough : b.nfrag m ≤ b.nfragDone m) :
    ∀ k ∈ b.frags m, b.done k = true := by
  obtain ⟨hn, hc⟩ := h.count c m queued owner closing
  have hle := List.countP_le_length (p := b.done) (l := b.frags m)
  exact List.countP_eq_length.1 (by omega)

theorem take (h : Counts b) (hq : Queues b) (hg : Groups b) (request : Bool) (owner : Option ℕ)
    (swallow bare : Bool) : Counts (b.take request owner swallow bare) where
  plain := by
    intro m hm
    have := h.plain m
    dsimp only [Ledger.take] at *
    grind only [Function.update_apply]
  count := by
    intro c o hc ho hcl
    have hlt : o ≠ b.nextMsg := (hq.client c o hc).1.1.ne
    have hne : b.nextMsg ∉ b.frags o := fun hmem =>
      lt_irrefl _ (hg.taken _ o (hg.member o _ hmem).1)
    dsimp only [Ledger.take] at *
    rw [Function.update_of_ne hlt] at ho
    obtain ⟨hn, hcount⟩ := h.count c o hc ho hcl
    rw [Function.update_of_ne hlt, Function.update_of_ne hlt, countP_update_of_notMem hne]
    exact ⟨hn, hcount⟩

/-- A request is done that is not a counted fragment. -/
theorem setDone (h : Counts b)
    (out : ∀ c o, b.InClient c o → b.fragOwner o = some o → b.closing c = false → m ∉ b.frags o) :
    Counts { b with done := update b.done m true } where
  plain := h.plain
  count := by
    intro c o hc ho hcl
    obtain ⟨hn, hcount⟩ := h.count c o hc ho hcl
    exact ⟨hn, hcount.trans (countP_update_of_notMem (out c o hc ho hcl) true).symm⟩

/-- A fragment is done and counted. -/
theorem bump (h : Counts b) (hg : Groups b) (done : b.done m = false)
    (owner : b.fragOwner m ≠ some m) :
    Counts (Ledger.bump { b with done := update b.done m true } m) where
  plain := by
    intro k hk
    have hp := h.plain k hk
    have : b.fragOwner m ≠ some k := by
      intro hm
      exact hk (hg.owner m k hm).1
    simp [Ledger.bump, this, hp]
  count := by
    intro c o hc ho hcl
    obtain ⟨hn, hcount⟩ := h.count c o hc ho hcl
    refine ⟨hn, ?_⟩
    dsimp only [Ledger.bump]
    by_cases hm : b.fragOwner m = some o
    · have hmem : m ∈ b.frags o := by
        refine (hg.owner m o hm).2.2.2.resolve_left ?_
        rintro rfl
        exact owner hm
      rw [if_pos hm, countP_update_true (hg.nodup o) hmem done]
      omega
    · rw [if_neg hm, countP_update_of_notMem fun hmem => hm (hg.member o m hmem).1]
      exact hcount

/-- A request could not be forwarded. -/
theorem unforwarded (h : Counts b) (hg : Groups b) (done : b.done m = false)
    (failed : b.failed m = false) :
    Counts { b with done := update b.done m true, failed := update b.failed m true } where
  plain := h.plain
  count := by
    intro c o hc ho hcl
    obtain ⟨hn, hcount⟩ := h.count c o hc ho hcl
    refine ⟨hn, ?_⟩
    dsimp only
    by_cases hmem : m ∈ b.frags o
    · rw [countP_update_true (hg.nodup o) hmem done, countP_update_true (hg.nodup o) hmem failed]
      omega
    · rw [countP_update_of_notMem hmem, countP_update_of_notMem hmem]
      exact hcount

/-- No owner of fragments comes into a queue. -/
theorem setQueues (h : Counts b) {inQ outQ : ℕ → List ℕ} {kind : ℕ → ConnKind}
    (sub : ∀ c o, kind c = .client → o ∈ outQ c → b.InClient c o) :
    Counts { b with inQ := inQ, outQ := outQ, kind := kind } where
  plain := h.plain
  count := fun c o hc ho hcl => h.count c o (sub c o hc.1 hc.2) ho hcl

theorem setServer (h : Counts b) (kind : b.kind s = .server) (inQ : ℕ → List ℕ) (q : List ℕ) :
    Counts { b with inQ := inQ, outQ := update b.outQ s q } := by
  have h1 : Counts { b with inQ := inQ, outQ := update b.outQ s q, kind := b.kind } := by
    refine h.setQueues fun c o hc ho => ⟨hc, ?_⟩
    rwa [Function.update_of_ne] at ho
    rintro rfl
    simp [kind] at hc
  exact h1

theorem retire (h : Counts b) (c m : ℕ) : Counts (b.retire c m) := by
  have h1 : Counts { b with inQ := b.inQ, outQ := (b.retire c m).outQ, kind := b.kind } := by
    refine h.setQueues fun d o hd ho => ⟨hd, ?_⟩
    dsimp only [Ledger.retire] at ho
    grind only [Function.update_apply, List.mem_of_mem_erase]
  exact { h1 with }

theorem setKind (h : Counts b) (kind : ConnKind) (outQ : b.outQ c = []) :
    Counts { b with kind := update b.kind c kind } := by
  have h1 : Counts { b with inQ := b.inQ, outQ := b.outQ, kind := update b.kind c kind } := by
    refine h.setQueues fun d o hd ho => ⟨?_, ho⟩
    rwa [Function.update_of_ne] at hd
    rintro rfl
    simp [outQ] at ho
  exact h1

/-- A request joins the queue of a client. -/
theorem join (h : Counts b) (owner : b.fragOwner m = some m → b.nfrag m = (b.frags m).length ∧
      b.nfragDone m + (b.frags m).countP b.failed = (b.frags m).countP b.done) :
    Counts { b with outQ := update b.outQ c (b.outQ c ++ [m]) } where
  plain := h.plain
  count := by
    intro d o hd ho hcl
    by_cases hom : o = m
    · subst hom
      exact owner ho
    · refine h.count d o ⟨hd.1, ?_⟩ ho hcl
      have := hd.2
      grind [Function.update_apply]

theorem split (h : Counts b) (hq : Queues b) (hg : Groups b) (loose : b.Loose m) (n : ℕ)
    (whole : b.fragOwner m = none) (bare : ℕ → Bool) : Counts (b.split c m n bare) where
  plain := by
    intro k hk
    have hkm : k ≠ m := by
      rintro rfl
      simp [Ledger.split] at hk
    have hm := h.plain k
    dsimp only [Ledger.split] at hk ⊢
    rw [Function.update_of_ne hkm] at hk
    split
    · rfl
    · rw [if_neg ‹_›] at hk
      exact hm hk
  count := by
    intro d o hd ho hcl
    have hom : o ≠ m := by
      rintro rfl
      exact loose.2 d hd.2
    have hlt : ∀ k, k < b.nextMsg → k ∉ List.range' b.nextMsg n := by
      intro k hk hmem
      rw [List.mem_range'_1] at hmem
      omega
    have ho' := hlt o (hq.client d o hd).1.1
    dsimp only [Ledger.split] at ho hcl ⊢
    rw [Function.update_of_ne hom, if_neg ho'] at ho
    obtain ⟨hn, hcount⟩ := h.count d o hd ho hcl
    rw [Function.update_of_ne hom, Function.update_of_ne hom, if_neg ho', if_neg ho']
    refine ⟨hn, hcount.trans (List.countP_congr fun k hk => ?_)⟩
    rw [if_neg (hlt k (hg.taken k o (hg.member o k hk).1))]

end Counts

/-! ### Moves -/

theorem Parts.move (h : Parts b) (hq : Queues b) (hg : Groups b) (hn : Counts b)
    (hmove : Move mode hold b b') : Parts b' := by
  cases hmove with
  | idle | unread | stamp | parse | arrive | send | established | pick | rest | unlink | put
  | login | expire => exact { h with }
  | @connect c kind connecting awake unused =>
    exact { h.setKind kind (hq.outEmpty c (by simp [unused]) (by simp [unused])) with }
  | @listen c => exact { h.take hq hg true (some c) false true with }
  | @split c m n bare times seq loose apart owner whole =>
    exact { h.split (c := c) hq hg loose n whole bare with }
  | @queue c m joins group =>
    refine h.join hg joins.kind joins.loose.1.fdone ?_ joins.loose.1.swallow
    rcases group with hw | hp
    · exact .inl hw
    · exact .inr (.inl hp)
  | @make c m times joins group =>
    obtain ⟨hu, -⟩ := joins.loose
    have hne : m ≠ b.nextMsg := hu.live.1.ne
    have h1 := (h.take hq hg false (some c) false true).setDone m
    have h2 := h1.join { hg.take false (some c) false true with } joins.kind
      ((Function.update_of_ne hne _ _).trans hu.fdone) (m := m) ?_
      ((Function.update_of_ne hne _ _).trans hu.swallow)
    · exact { h2 with }
    · rcases group with hw | ⟨ho, -, -, hid, hf⟩
      · exact .inl ((Function.update_of_ne hne _ _).trans hw)
      · refine .inr (.inr ⟨(Function.update_of_ne hne _ _).trans ho, Function.update_self ..,
          fun k hk => ?_, fun k hk => ?_⟩)
        · have hkn : k ≠ b.nextMsg := (hq.lt_next (.inr hk)).ne
          dsimp only [Ledger.take]
          rw [Function.update_of_ne hkn, Function.update_of_ne hne]
          exact hid k hk
        · have hkn : k ≠ b.nextMsg := (hg.taken k m (hg.member m k hk).1).ne
          exact (Function.update_of_ne hkn _ _).trans (hf k hk).2.2
  | @auth s c key bare =>
    exact { h.take hq hg true (some c) true bare with }
  | @select s key bare =>
    exact { h.take hq hg true none true bare with }
  | @sent s m rest kind =>
    cases hr : b.noreply m
    · exact { h.setServer kind (update b.inQ s rest) (b.outQ s ++ [m]) with }
    · exact { h with }
  | @skip s m kind =>
    cases hr : b.noreply m
    · exact { h.setServer kind (update b.inQ s ((b.inQ s).erase m)) (b.outQ s ++ [m]) with }
    · exact { h with }
  | @unforwarded m => exact { h.setDone m with }
  | @fail s m queued closing swallow noreply calm =>
    have h1 := (h.setServer queued.1 (b.leave s m).inQ ((b.outQ s).erase m)).setDone m
    have h2 : Parts { b.leave s m with
        done := update b.done m true, fault := update b.fault m true } := { h1 with }
    refine h2.bump fun o ho => ?_
    obtain ⟨c, hc, hk, hout, hlive⟩ := h.owner_queued hq queued swallow noreply calm ho
    have hcs : c ≠ s := by
      rintro rfl
      simp [queued.1] at hk
    simp [Ledger.ownerQueued, Ledger.leave, hlive.1, hlive.2, hc, Function.update_of_ne hcs, hout]
  | @drop s m queued =>
    exact { h.setServer queued.1 (b.leave s m).inQ ((b.outQ s).erase m) with }
  | @answer s m rest bare times kind closing mute first swallow calm =>
    have hs : b.InServer s m := ⟨kind, .inr (by simp [first])⟩
    have hne : m ≠ b.nextMsg := (hq.server s m hs).1.1.ne
    have h1 := ((h.take hq hg false (some s) false bare).setServer kind (b.leave s m).inQ
      ((b.outQ s).erase m)).setDone m
    have h2 : Parts { ((b.reply s bare).leave s m).link m b.nextMsg with
        done := update (update b.done b.nextMsg false) m true
        attached := b.attached ++ [(m, b.nextMsg)] } := { h1 with }
    suffices h3 : Parts (Ledger.bump { ((b.reply s bare).leave s m).link m b.nextMsg with
        done := update (update b.done b.nextMsg false) m true
        attached := b.attached ++ [(m, b.nextMsg)] } m) from { h3 with }
    refine h2.bump fun o ho => ?_
    have ho' : b.fragOwner m = some o := (Function.update_of_ne hne _ _).symm.trans ho
    obtain ⟨c, hc, hk, hout, hlive⟩ := h.owner_queued hq hs swallow
      (hq.awaited s m kind (by simp [first])) calm ho'
    have hcs : c ≠ s := by
      rintro rfl
      simp [kind] at hk
    simp [Ledger.ownerQueued, Ledger.leave, Ledger.link, Ledger.reply, Ledger.take,
      Nat.lt_succ_of_lt hlive.1, hlive.2, hc, Function.update_of_ne hcs, Function.update_of_ne hne,
      hout]
  | @swallowReply s m rest bare times kind =>
    have h1 := ((h.take hq hg false (some s) false bare).setServer kind (b.leave s m).inQ
      ((b.outQ s).erase m)).setDone m
    exact { h1 with }
  | @lose s bare => exact { h.take hq hg false (some s) false bare with }
  | @mark c m queued owner done fdone enough calm =>
    exact h.mark hq hg queued owner done (hn.all_done queued owner (calm c queued.1) enough)
  | @blame c m queued done peer fault bare => exact { h.take hq hg false none false bare with }
  | @finish c m r queued peer done =>
    refine { h.retire hg queued (.inr fun ho => done.resolve_left ?_) with }
    rw [hg.zero, ho]
    simp
  | @fragment c m queued done owner =>
    exact { h.retire hg queued (.inr fun ho => absurd ho owner) with }
  | @discard c m queued done closing => exact { h.retire hg queued (.inl closing) with }
  | @swallow c m queued done free closing => exact h.swallowed hq hg queued closing
  | closing =>
    refine { h with
      behind := fun d m o hm ho hf hc => h.behind d m o hm ho hf ?_
      gone := fun d m o hs ho hd => ?_ }
    · dsimp only at hc
      grind only [Function.update_apply]
    · have := h.gone d m o hs ho hd
      dsimp only
      grind only [Function.update_apply]
  | @shut c inQ outQ => exact h.setKind .closed outQ

theorem Counts.move (h : Counts b) (hq : Queues b) (hg : Groups b) (hp : Parts b)
    (hmove : Move mode hold b b') : Counts b' := by
  -- the owner of fragments that a server has is not the request itself
  have hown : ∀ {s m}, b.InServer s m → b.swallow m = false → b.noreply m = false →
      b.fragOwner m ≠ some m := by
    intro s m hs hsw hnr ho
    obtain ⟨c, -, hc⟩ := hq.home s m hs hsw hnr
    simpa [(hq.server s m hs).2.2.1] using hp.ownerDone c m hc ho
  cases hmove with
  | idle | unread | stamp | parse | arrive | send | established | pick | rest | mark | unlink
  | put | login | expire => exact { h with }
  | @connect c kind connecting awake unused =>
    exact { h.setKind kind (hq.outEmpty c (by simp [unused]) (by simp [unused])) with }
  | @listen c => exact { h.take hq hg true (some c) false true with }
  | @split c m n bare times seq loose apart owner whole =>
    exact { h.split (c := c) hq hg loose n whole bare with }
  | @queue c m joins group =>
    refine h.join fun ho => ?_
    rcases group with hw | ⟨o, before, behind, ho', hne, -⟩
    · simp [hw] at ho
    · exact absurd (Option.some.inj (ho'.symm.trans ho)) hne
  | @make c m times joins group =>
    have hne : m ≠ b.nextMsg := joins.loose.1.live.1.ne
    have hself : ∀ o, m ∉ b.frags o := by
      intro o hmem
      obtain ⟨ho, hmo⟩ := hg.member o m hmem
      rcases group with hw | ⟨hm, -⟩
      · simp [hw] at ho
      · exact hmo (Option.some.inj (hm.symm.trans ho))
    have h1 := (h.take hq hg false (some c) false true).setDone (m := m) fun _ o _ _ _ => hself o
    have h2 := h1.join (c := c) (m := m) fun ho => ?_
    · exact { h2 with }
    · have ho' : b.fragOwner m = some m := (Function.update_of_ne hne _ _).symm.trans ho
      obtain ⟨-, hn, hd, -, hf⟩ := group.resolve_left (by simp [ho'])
      have hnew : b.nextMsg ∉ b.frags m := fun hmem =>
        lt_irrefl _ (hg.taken _ m (hg.member m _ hmem).1)
      have hdone : (b.frags m).countP b.done = 0 :=
        List.countP_eq_zero.2 fun k hk => by simp [(hf k hk).1]
      have hfailed : (b.frags m).countP b.failed = 0 :=
        List.countP_eq_zero.2 fun k hk => by simp [(hf k hk).2.1]
      refine ⟨(Function.update_of_ne hne _ _).trans hn, ?_⟩
      dsimp only [Ledger.take]
      rw [Function.update_of_ne hne, hd, countP_update_of_notMem (hself m),
        countP_update_of_notMem hnew, hdone, hfailed]
  | @auth s c key bare =>
    exact { h.take hq hg true (some c) true bare with }
  | @select s key bare =>
    exact { h.take hq hg true none true bare with }
  | @sent s m rest kind =>
    cases hr : b.noreply m
    · exact { h.setServer kind (update b.inQ s rest) (b.outQ s ++ [m]) with }
    · exact { h with }
  | @skip s m kind =>
    cases hr : b.noreply m
    · exact { h.setServer kind (update b.inQ s ((b.inQ s).erase m)) (b.outQ s ++ [m]) with }
    · exact { h with }
  | @unforwarded m unsent =>
    exact { h.unforwarded hg unsent.done unsent.failed with }
  | @fail s m queued closing swallow noreply =>
    have h1 := (h.setServer queued.1 (b.leave s m).inQ ((b.outQ s).erase m)).bump { hg with }
      (m := m) (hq.server s m queued).2.2.1 (hown queued swallow noreply)
    exact { h1 with }
  | @drop s m queued =>
    exact { h.setServer queued.1 (b.leave s m).inQ ((b.outQ s).erase m) with }
  | @answer s m rest bare times kind closing mute first swallow =>
    have hs : b.InServer s m := ⟨kind, .inr (by simp [first])⟩
    have hne : m ≠ b.nextMsg := (hq.server s m hs).1.1.ne
    have h1 := ((h.take hq hg false (some s) false bare).setServer kind (b.leave s m).inQ
      ((b.outQ s).erase m)).bump (m := m) { hg.take false (some s) false bare with }
      ((Function.update_of_ne hne _ _).trans (hq.server s m hs).2.2.1) fun ho =>
        hown hs swallow (hq.awaited s m kind (by simp [first]))
          ((Function.update_of_ne hne _ _).symm.trans ho)
    exact { h1 with }
  | @swallowReply s m rest bare times kind closing mute first swallow =>
    have hs : b.InServer s m := ⟨kind, .inr (by simp [first])⟩
    have hne : m ≠ b.nextMsg := (hq.server s m hs).1.1.ne
    have h1 := ((h.take hq hg false (some s) false bare).setServer kind (b.leave s m).inQ
      ((b.outQ s).erase m)).setDone (m := m) fun c o hc _ hcl hmem => by
        have hcs : c ≠ s := by
          rintro rfl
          simp [InClient, Ledger.take, kind] at hc
        have hco : b.InClient c o :=
          ⟨hc.1, by simpa [Ledger.take, Function.update_of_ne hcs] using hc.2⟩
        have := hp.gone c m o swallow (hg.member o m hmem).1 hco
        simp_all [Ledger.take]
    exact { h1 with }
  | @lose s bare => exact { h.take hq hg false (some s) false bare with }
  | @blame c m queued done peer fault bare => exact { h.take hq hg false none false bare with }
  | @finish c m => exact { h.retire c m with }
  | @fragment c m => exact { h.retire c m with }
  | @discard c m => exact { h.retire c m with }
  | @swallow c m => exact { h.retire c m with }
  | closing =>
    refine { h with count := fun d o hd ho hcl => h.count d o hd ho ?_ }
    dsimp only at hcl
    grind only [Function.update_apply]
  | @shut c inQ outQ => exact h.setKind .closed outQ

end CacheProxy
