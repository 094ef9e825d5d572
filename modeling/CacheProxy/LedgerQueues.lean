/-
**Queues and links.**

A request is in the queue of the client it came from, and in at most one queue of one server; what
is in a server's queue is not done and has no response.  A request and its response are linked to
each other.  Nothing that was given back is in a queue or linked.

Every move is made of a few operations on the ledger, so the invariants are proved for those first.

Main results:

* `Queues.move` — a move keeps the queues well formed;
* `Links.move` — a move keeps requests and responses linked to each other.
-/

import CacheProxy.Ledger

namespace CacheProxy

open Function (update)
open Ledger

/-- **Well-formed queues.** -/
structure Queues (b : Ledger) : Prop where
  fresh : ∀ m, b.nextMsg ≤ m → b.freed m = false
  client : ∀ c m, b.InClient c m →
    b.Live m ∧ b.request m = true ∧ b.owner m = some c ∧ b.swallow m = false
  inEmpty : ∀ c, b.kind c ≠ .server → b.inQ c = []
  outEmpty : ∀ c, b.kind c ≠ .server → b.kind c ≠ .client → b.outQ c = []
  server : ∀ s m, b.InServer s m →
    b.Live m ∧ b.request m = true ∧ b.done m = false ∧ b.peer m = none
  awaited : ∀ s m, b.kind s = .server → m ∈ b.outQ s → b.noreply m = false
  nodup : ∀ c, (b.inQ c ++ b.outQ c).Nodup
  unique : ∀ s t m, b.InServer s m → b.InServer t m → s = t
  apart : ∀ s c m, b.InServer s m → b.noreply m = true → ¬ b.InClient c m
  home : ∀ s m, b.InServer s m → b.swallow m = false → b.noreply m = false →
    ∃ c, b.owner m = some c ∧ b.InClient c m

variable {mode : Mode} {hold : ℕ → Prop} {b b' : Ledger}

namespace Queues

/-! ### Operations on well-formed queues -/

theorem take (h : Queues b) (request : Bool) (owner : Option ℕ) (swallow bare : Bool) :
    Queues (b.take request owner swallow bare) := by
  obtain ⟨h1, h2, h3, h4, h5, h6, h7, h8, h9, h10⟩ := h
  refine ⟨?_, ?_, h3, h4, ?_, ?_, h7, h8, ?_, ?_⟩ <;>
    dsimp only [Ledger.take, InClient, InServer, Live] at *
  all_goals grind only [Function.update_apply]

theorem setDone (h : Queues b) {m : ℕ} (done : Bool) (settled : ∀ s, ¬ b.InServer s m) :
    Queues { b with done := update b.done m done } where
  __ := h
  server := by
    intro s k hk
    obtain ⟨hl, hr, hd, hp⟩ := h.server s k hk
    have hne : k ≠ m := by
      rintro rfl
      exact settled s hk
    exact ⟨hl, hr, (Function.update_of_ne hne _ _).trans hd, hp⟩

theorem setPeer (h : Queues b) {peer : ℕ → Option ℕ}
    (settled : ∀ m, peer m ≠ b.peer m → ∀ s, ¬ b.InServer s m) :
    Queues { b with peer := peer } where
  __ := h
  server := by
    intro s m hm
    obtain ⟨hl, hr, hd, hp⟩ := h.server s m hm
    have : peer m = b.peer m := by
      by_contra hne
      exact settled m hne s hm
    exact ⟨hl, hr, hd, this.trans hp⟩

theorem link (h : Queues b) {m r : ℕ} (hm : ∀ s, ¬ b.InServer s m) (hr : ∀ s, ¬ b.InServer s r) :
    Queues (b.link m r) := by
  refine h.setPeer fun k hk => ?_
  by_cases hkr : k = r
  · exact hkr ▸ hr
  · by_cases hkm : k = m
    · exact hkm ▸ hm
    · exact absurd (by rw [Function.update_of_ne hkr, Function.update_of_ne hkm]) hk

/-- The next message is in no server's queue. -/
theorem next_not_inServer (h : Queues b) (s : ℕ) : ¬ b.InServer s b.nextMsg :=
  fun hs => absurd (h.server s _ hs).1.1 (lt_irrefl _)

theorem setFreed (h : Queues b) {freed : ℕ → Bool}
    (settled : ∀ m, freed m ≠ b.freed m →
      m < b.nextMsg ∧ (∀ s, ¬ b.InServer s m) ∧ ∀ c, ¬ b.InClient c m) :
        Queues { b with freed := freed } where
  __ := h
  fresh := by
    intro m hm
    by_contra hne
    exact absurd hm (settled m (by rwa [h.fresh m hm])).1.not_ge
  client := by
    intro c m hm
    obtain ⟨⟨hl, hf⟩, hq⟩ := h.client c m hm
    refine ⟨⟨hl, ?_⟩, hq⟩
    by_contra hne
    exact (settled m (by rwa [hf])).2.2 c hm
  server := by
    intro s m hm
    obtain ⟨⟨hl, hf⟩, hq⟩ := h.server s m hm
    refine ⟨⟨hl, ?_⟩, hq⟩
    by_contra hne
    exact (settled m (by rwa [hf])).2.1 s hm

theorem setNoreply (h : Queues b) {m : ℕ} (noreply : Bool) (settled : ∀ s, ¬ b.InServer s m) :
    Queues { b with noreply := update b.noreply m noreply } := by
  obtain ⟨h1, h2, h3, h4, h5, h6, h7, h8, h9, h10⟩ := h
  refine ⟨h1, h2, h3, h4, h5, ?_, h7, h8, ?_, ?_⟩ <;>
    dsimp only [InClient, InServer, Live] at *
  all_goals grind only [Function.update_apply]

/-- The requests of a server change places, or leave. -/
theorem requeue (h : Queues b) {s : ℕ} {q q' : List ℕ} (kind : b.kind s = .server)
    (nodup : (q ++ q').Nodup) (sub : ∀ k, k ∈ q ∨ k ∈ q' → k ∈ b.inQ s ∨ k ∈ b.outQ s)
    (awaits : ∀ k ∈ q', b.noreply k = false) :
    Queues { b with inQ := update b.inQ s q, outQ := update b.outQ s q' } := by
  obtain ⟨h1, h2, h3, h4, h5, h6, h7, h8, h9, h10⟩ := h
  refine ⟨h1, ?_, ?_, ?_, ?_, ?_, ?_, ?_, ?_, ?_⟩ <;>
    dsimp only [InClient, InServer, Live] at *
  case refine_6 =>
    intro c
    by_cases hc : c = s
    · subst hc
      rwa [Function.update_self, Function.update_self]
    · rw [Function.update_of_ne hc, Function.update_of_ne hc]
      exact h7 c
  case refine_9 =>
    intro t k hk hs hn
    obtain ⟨c, ho, hc, hq⟩ := h10 t k (by grind only [Function.update_apply]) hs hn
    refine ⟨c, ho, hc, ?_⟩
    grind only [Function.update_apply]
  all_goals grind only [Function.update_apply]

/-- A request goes from the in-queue of a server to its out-queue, if it is to be answered. -/
theorem sent (h : Queues b) {s m : ℕ} {rest : List ℕ} (kind : b.kind s = .server)
    (queued : m ∈ b.inQ s) (erase : rest = (b.inQ s).erase m) :
    Queues { b with
      inQ := update b.inQ s rest
      outQ := if b.noreply m then b.outQ else update b.outQ s (b.outQ s ++ [m]) } := by
  have hperm : (b.inQ s ++ b.outQ s).Perm (m :: (rest ++ b.outQ s)) := by
    rw [erase]
    exact (List.perm_cons_erase queued).append_right _
  have hnodup := hperm.nodup_iff.1 (h.nodup s)
  have hsub : ∀ k, k ∈ rest → k ∈ b.inQ s := by
    rw [erase]
    exact fun k => List.mem_of_mem_erase
  cases hn : b.noreply m
  · refine h.requeue kind ?_ ?_ ?_
    · rw [← List.append_assoc]
      exact (List.perm_append_singleton m _).nodup_iff.2 hnodup
    · grind
    · have := h.awaited s
      grind
  · have h1 : Queues { b with inQ := update b.inQ s rest, outQ := update b.outQ s (b.outQ s) } :=
      h.requeue kind hnodup.of_cons (by grind) fun k => h.awaited s k kind
    rw [Function.update_eq_self] at h1
    exact h1

theorem leave (h : Queues b) {s : ℕ} (m : ℕ) (kind : b.kind s = .server) :
    Queues (b.leave s m) where
  __ := h.requeue kind ((h.nodup s).sublist (List.erase_sublist.append List.erase_sublist))
    (fun _ hk => hk.imp List.mem_of_mem_erase List.mem_of_mem_erase)
    fun _ hk => h.awaited s _ kind (List.mem_of_mem_erase hk)

/-- A request that has left the queues of its server is in no server's queue. -/
theorem settled_leave (h : Queues b) {s m : ℕ} (queued : b.InServer s m) :
    ∀ t, ¬ (b.leave s m).InServer t m := by
  intro t ht
  have hnodup := List.nodup_append.1 (h.nodup s)
  have hi : m ∉ (b.inQ s).erase m := hnodup.1.not_mem_erase
  have ho : m ∉ (b.outQ s).erase m := hnodup.2.1.not_mem_erase
  have hu := h.unique s t m queued
  dsimp only [Ledger.leave, InServer] at *
  grind only [Function.update_apply]

theorem retire (h : Queues b) {c m : ℕ} (kind : b.kind c = .client)
    (settled : ∀ s, ¬ b.InServer s m) : Queues (b.retire c m) := by
  obtain ⟨h1, h2, h3, h4, h5, h6, h7, h8, h9, h10⟩ := h
  refine ⟨h1, ?_, h3, ?_, ?_, ?_, ?_, ?_, ?_, ?_⟩ <;>
    dsimp only [Ledger.retire, InClient, InServer, Live] at *
  case refine_5 =>
    intro d
    by_cases hd : d = c
    · subst hd
      rw [Function.update_self]
      exact (h7 d).sublist ((List.Sublist.refl _).append List.erase_sublist)
    · rw [Function.update_of_ne hd]
      exact h7 d
  case refine_8 =>
    intro t k hk hs hn
    have hk' : b.kind t = .server ∧ (k ∈ b.inQ t ∨ k ∈ b.outQ t) := by
      grind only [Function.update_apply]
    obtain ⟨d, ho, hd, hq⟩ := h10 t k hk' hs hn
    have hne : k ≠ m := by
      rintro rfl
      exact settled t hk'
    refine ⟨d, ho, hd, ?_⟩
    grind only [Function.update_apply, List.mem_erase_of_ne]
  all_goals grind only [Function.update_apply, List.mem_of_mem_erase]

theorem swallowed (h : Queues b) {c m : ℕ} (queued : b.InClient c m) :
    Queues { b.retire c m with swallow := update b.swallow m true } := by
  have hnot : m ∉ (b.outQ c).erase m :=
    (List.nodup_append.1 (h.nodup c)).2.1.not_mem_erase
  obtain ⟨h1, h2, h3, h4, h5, h6, h7, h8, h9, h10⟩ := h
  refine ⟨h1, ?_, h3, ?_, ?_, ?_, ?_, ?_, ?_, ?_⟩ <;>
    dsimp only [Ledger.retire, InClient, InServer, Live] at *
  case refine_5 =>
    intro d
    by_cases hd : d = c
    · subst hd
      rw [Function.update_self]
      exact (h7 d).sublist ((List.Sublist.refl _).append List.erase_sublist)
    · rw [Function.update_of_ne hd]
      exact h7 d
  case refine_8 =>
    intro t k hk hs hn
    have hne : k ≠ m := by
      rintro rfl
      simp at hs
    obtain ⟨d, ho, hd, hq⟩ := h10 t k (by grind only [Function.update_apply])
      (by grind only [Function.update_apply]) hn
    refine ⟨d, ho, hd, ?_⟩
    grind only [Function.update_apply, List.mem_erase_of_ne]
  all_goals grind only [Function.update_apply, List.mem_of_mem_erase]

/-- A request joins the queue of its client. -/
theorem enqueueOut (h : Queues b) {c m : ℕ} (kind : b.kind c = .client) (live : b.Live m)
    (request : b.request m = true) (owner : b.owner m = some c) (swallow : b.swallow m = false)
    (new : m ∉ b.outQ c) (settled : ∀ s, ¬ b.InServer s m) :
    Queues { b with outQ := update b.outQ c (b.outQ c ++ [m]) } := by
  obtain ⟨h1, h2, h3, h4, h5, h6, h7, h8, h9, h10⟩ := h
  refine ⟨h1, ?_, h3, ?_, ?_, ?_, ?_, ?_, ?_, ?_⟩ <;>
    dsimp only [Ledger.retire, InClient, InServer, Live] at *
  case refine_5 =>
    intro d
    have hd := h7 d
    have hi := h3 d
    grind [Function.update_apply]
  case refine_8 =>
    intro t k hk hs hn
    obtain ⟨d, ho, hd, hq⟩ := h10 t k (by grind only [Function.update_apply]) hs hn
    refine ⟨d, ho, hd, ?_⟩
    grind [Function.update_apply]
  all_goals grind [Function.update_apply]

/-- A request joins the in-queue of a server. -/
theorem enqueueIn (h : Queues b) {s m : ℕ} {q : List ℕ} (kind : b.kind s = .server)
    (perm : q.Perm (m :: b.inQ s)) (settled : ∀ s, ¬ b.InServer s m) (live : b.Live m)
    (request : b.request m = true) (done : b.done m = false) (peer : b.peer m = none)
    (bare : b.noreply m = true → ∀ c, ¬ b.InClient c m)
    (home : b.swallow m = false → b.noreply m = false →
      ∃ c, b.owner m = some c ∧ b.InClient c m) :
    Queues { b with inQ := update b.inQ s q } := by
  have hmem : ∀ k, k ∈ q ↔ k = m ∨ k ∈ b.inQ s := by
    intro k
    rw [perm.mem_iff, List.mem_cons]
  obtain ⟨h1, h2, h3, h4, h5, h6, h7, h8, h9, h10⟩ := h
  refine ⟨h1, h2, ?_, h4, ?_, h6, ?_, ?_, ?_, ?_⟩ <;>
    dsimp only [InClient, InServer, Live] at *
  case refine_3 =>
    intro d
    by_cases hd : d = s
    · subst hd
      rw [Function.update_self, (perm.append_right _).nodup_iff, List.cons_append, List.nodup_cons]
      refine ⟨?_, h7 d⟩
      grind only [List.mem_append]
    · rw [Function.update_of_ne hd]
      exact h7 d
  case refine_6 =>
    intro t k hk hs hn
    by_cases hkm : k = m
    · subst hkm
      exact home hs hn
    · exact h10 t k (by grind only [Function.update_apply]) hs hn
  all_goals grind only [Function.update_apply]

theorem setKind (h : Queues b) {c : ℕ} (kind : ConnKind) (inQ : b.inQ c = [])
    (outQ : b.outQ c = []) :
    Queues { b with kind := update b.kind c kind } := by
  obtain ⟨h1, h2, h3, h4, h5, h6, h7, h8, h9, h10⟩ := h
  refine ⟨h1, ?_, ?_, ?_, ?_, ?_, h7, ?_, ?_, ?_⟩ <;>
    dsimp only [Ledger.retire, InClient, InServer, Live] at *
  case refine_8 =>
    intro t k hk hs hn
    obtain ⟨d, ho, hd, hq⟩ := h10 t k (by grind [Function.update_apply]) hs hn
    refine ⟨d, ho, ?_, hq⟩
    grind [Function.update_apply]
  all_goals grind [Function.update_apply]

/-- What is in a queue was taken. -/
theorem lt_next (h : Queues b) {c m : ℕ} (hm : m ∈ b.inQ c ∨ m ∈ b.outQ c) : m < b.nextMsg := by
  by_cases hs : b.kind c = .server
  · exact (h.server c m ⟨hs, hm⟩).1.1
  · have hi := h.inEmpty c hs
    by_cases hc : b.kind c = .client
    · exact (h.client c m ⟨hc, by simpa [hi] using hm⟩).1.1
    · have ho := h.outEmpty c hs hc
      simp [hi, ho] at hm

/-- The queues of clients do not change when a request leaves a server. -/
theorem inClient_leave {s : ℕ} (kind : b.kind s = .server) (m c k : ℕ) :
    (b.leave s m).InClient c k ↔ b.InClient c k := by
  dsimp only [Ledger.leave, InClient]
  grind only [Function.update_apply]

theorem inServer_of_leave {s m t k : ℕ} (hk : (b.leave s m).InServer t k) : b.InServer t k := by
  dsimp only [Ledger.leave, InServer] at *
  grind only [Function.update_apply, List.mem_of_mem_erase]

/-- A request that is done is in no server's queue. -/
theorem not_inServer_of_done (h : Queues b) {m : ℕ} (done : b.done m = true) (s : ℕ) :
    ¬ b.InServer s m := by
  intro hs
  simp [(h.server s m hs).2.2.1] at done

/-- A request that has left its client is in no client's queue. -/
theorem not_inClient_retire (h : Queues b) {c m : ℕ} (queued : b.InClient c m) (d : ℕ) :
    ¬ (b.retire c m).InClient d m := by
  have hnot : m ∉ (b.outQ c).erase m := (List.nodup_append.1 (h.nodup c)).2.1.not_mem_erase
  have hc := (h.client c m queued).2.2.1
  have hd := fun hd => (h.client d m hd).2.2.1
  dsimp only [Ledger.retire, InClient] at *
  grind only [Function.update_apply]

theorem setFreed_next (h : Queues b) (request : Bool) (owner : Option ℕ) (swallow bare : Bool) :
    Queues ((b.take request owner swallow bare).free b.nextMsg) := by
  refine (h.take request owner swallow bare).setFreed fun k hk => ?_
  have hkn : k = b.nextMsg := by
    by_contra hne
    exact hk (Function.update_of_ne hne _ _)
  subst hkn
  refine ⟨Nat.lt_succ_self _, h.next_not_inServer, fun c hc => ?_⟩
  exact absurd (h.client c _ hc).1.1 (lt_irrefl _)

/-- The response of a request is given back. -/
theorem unlink (h : Queues b) {m : ℕ} (settled : ∀ s, ¬ b.InServer s m)
    (response : ∀ r, b.peer m = some r → r < b.nextMsg ∧ b.request r = false) :
    Queues (b.unlink m) := by
  have hc : ∀ c k, b.peer m = some k → ¬ b.InClient c k := by
    intro c k hk hq
    simpa [(response k hk).2] using (h.client c k hq).2.1
  have hs : ∀ s k, b.peer m = some k → ¬ b.InServer s k := by
    intro c k hk hq
    simpa [(response k hk).2] using (h.server c k hq).2.1
  have h1 : Queues { b with peer := (b.unlink m).peer } := by
    refine h.setPeer fun k hk s hq => ?_
    have hcase : k = m ∨ b.peer m = some k := by
      by_contra hne
      exact hk (if_neg hne)
    rcases hcase with rfl | hr
    · exact settled s hq
    · exact hs s k hr hq
  refine h1.setFreed fun k hk => ?_
  have hr : b.peer m = some k := by
    by_contra hne
    exact hk (by simp [hne])
  exact ⟨(response k hr).1, fun s => hs s k hr, fun c => hc c k hr⟩

/-- A request in no queue is given back, with its response. -/
theorem put (h : Queues b) {m : ℕ} (live : m < b.nextMsg) (settled : ∀ s, ¬ b.InServer s m)
    (out : ∀ c, ¬ b.InClient c m)
    (response : ∀ r, b.peer m = some r → r < b.nextMsg ∧ b.request r = false) :
    Queues (b.put m) := by
  have h1 : Queues ((b.unlink m).free m) := by
    refine (h.unlink settled response).setFreed fun k hk => ?_
    have hkm : k = m := by
      by_contra hne
      exact hk (Function.update_of_ne hne _ _)
    subst hkm
    exact ⟨live, settled, out⟩
  exact { h1 with }

theorem split (h : Queues b) {c m : ℕ} (n : ℕ) (bare : ℕ → Bool) :
    Queues (b.split c m n bare) := by
  have hids : ∀ k, k ∈ List.range' b.nextMsg n ↔ b.nextMsg ≤ k ∧ k < b.nextMsg + n := by
    intro k
    rw [List.mem_range'_1]
  obtain ⟨h1, h2, h3, h4, h5, h6, h7, h8, h9, h10⟩ := h
  refine ⟨?_, ?_, h3, h4, ?_, ?_, h7, h8, ?_, ?_⟩ <;>
    dsimp only [Ledger.split, InClient, InServer, Live] at *
  all_goals grind only

end Queues

/-! ### Links -/

/-- **Linked messages**: a request that has a response is done and in the queue of its client, and
the response is linked back to it. -/
structure Links (b : Ledger) : Prop where
  alive : ∀ q r, b.peer q = some r → b.Live q
  pair : ∀ q r, b.Live q → b.peer q = some r →
    b.Live r ∧ b.peer r = some q ∧ b.request r = !b.request q
  linked : ∀ q r, b.Live q → b.request q = true → b.peer q = some r →
    b.done q = true ∧ ∃ c, b.owner q = some c ∧ b.InClient c q

namespace Links

theorem take (h : Links b) (hq : Queues b) (request : Bool) (owner : Option ℕ)
    (swallow bare : Bool) : Links (b.take request owner swallow bare) := by
  have hf := hq.fresh
  obtain ⟨h0, h1, h2⟩ := h
  refine ⟨?_, ?_, ?_⟩ <;> dsimp only [Ledger.take, InClient, Live] at *
  · grind only [Function.update_apply]
  · grind only [Function.update_apply]
  · intro q r hl hr hp
    have hne : q ≠ b.nextMsg := by grind only [Function.update_apply]
    obtain ⟨hd, c, ho, hc⟩ := h2 q r (by grind only) (by grind only [Function.update_apply])
      (by grind only [Function.update_apply])
    exact ⟨by rwa [Function.update_of_ne hne], c, by rwa [Function.update_of_ne hne], hc⟩

/-- A request joins a queue. -/
theorem enqueueOut (h : Links b) (c m : ℕ) :
    Links { b with outQ := update b.outQ c (b.outQ c ++ [m]) } where
  __ := h
  linked := by
    intro q r hl hr hp
    obtain ⟨hd, d, ho, hc⟩ := h.linked q r hl hr hp
    refine ⟨hd, d, ho, hc.1, ?_⟩
    have := hc.2
    grind [Function.update_apply]

/-- A response is linked to a request that is done. -/
theorem link (h : Links b) {c m r : ℕ} (hm : b.Live m) (hr : b.Live r)
    (request : b.request m = true)
    (response : b.request r = false) (done : b.done m = true) (owner : b.owner m = some c)
    (queued : b.InClient c m) (bare : b.peer m = none) (new : b.peer r = none) :
    Links (b.link m r) := by
  have hmr : m ≠ r := by
    rintro rfl
    simp_all
  obtain ⟨h0, h1, h2⟩ := h
  refine ⟨?_, ?_, ?_⟩ <;> dsimp only [Ledger.link, InClient, Live] at *
  · grind only [Function.update_apply]
  · intro q r' hl hp
    have hold := h1 q r' hl
    rcases eq_or_ne q r with rfl | hqr
    · grind only [Function.update_apply]
    · rcases eq_or_ne q m with rfl | hqm
      · grind only [Function.update_apply]
      · grind only [Function.update_apply]
  · intro q r' hl hr hp
    by_cases hqm : q = m
    · subst hqm
      exact ⟨done, c, owner, queued⟩
    · exact h2 q r' hl hr (by grind only [Function.update_apply])

theorem unlink (h : Links b) {m : ℕ} (live : b.Live m) : Links (b.unlink m) := by
  obtain ⟨h0, h1, h2⟩ := h
  refine ⟨?_, ?_, ?_⟩ <;> dsimp only [Ledger.unlink, InClient, Live] at *
  · grind
  · grind
  · intro q r hl hr hp
    exact h2 q r (by grind) hr (by grind)

/-- A message without a response is given back. -/
theorem free (h : Links b) {m : ℕ} (bare : b.peer m = none) : Links (b.free m) := by
  obtain ⟨h0, h1, h2⟩ := h
  refine ⟨?_, ?_, ?_⟩ <;> dsimp only [Ledger.free, InClient, Live] at *
  · grind only [Function.update_apply]
  · grind only [Function.update_apply]
  · intro q r hl hr hp
    exact h2 q r (by grind only [Function.update_apply]) hr hp

theorem setDone (h : Links b) (m : ℕ) : Links { b with done := update b.done m true } where
  __ := h
  linked := by
    intro q r hl hr hp
    obtain ⟨hd, hc⟩ := h.linked q r hl hr hp
    refine ⟨?_, hc⟩
    grind only [Function.update_apply]

/-- Queues change, but no request that is linked leaves the queue of its client. -/
theorem setQueues (h : Links b) {inQ outQ : ℕ → List ℕ} {kind : ℕ → ConnKind}
    (keeps : ∀ c q, b.InClient c q → b.peer q ≠ none → kind c = .client ∧ q ∈ outQ c) :
    Links { b with inQ := inQ, outQ := outQ, kind := kind } where
  alive := h.alive
  pair := h.pair
  linked := by
    intro q r hl hr hp
    obtain ⟨hd, c, ho, hc⟩ := h.linked q r hl hr hp
    exact ⟨hd, c, ho, keeps c q hc (by simp only at hp; simp [hp])⟩

theorem put (h : Links b) {m : ℕ} (live : b.Live m) : Links (b.put m) where
  __ := (h.unlink live).free (if_pos (.inl rfl))

theorem split (h : Links b) (hq : Queues b) {c m : ℕ} (n : ℕ) (bare : ℕ → Bool) :
    Links (b.split c m n bare) := by
  have hf := hq.fresh
  have hids : ∀ k, k ∈ List.range' b.nextMsg n ↔ b.nextMsg ≤ k ∧ k < b.nextMsg + n := by
    intro k
    rw [List.mem_range'_1]
  obtain ⟨h0, h1, h2⟩ := h
  refine ⟨?_, ?_, ?_⟩ <;> dsimp only [Ledger.split, InClient, Live] at *
  · grind only
  · grind only
  · intro q r hl hr hp
    have hq : q ∉ List.range' b.nextMsg n := by grind only
    rw [if_neg hq] at hp ⊢
    obtain ⟨hd, c, ho, hc⟩ := h2 q r (by grind only) (by grind only) hp
    exact ⟨hd, c, by rwa [if_neg hq], hc⟩

end Links

/-! ### Messages that wait -/

/-- **Waiting messages**: what is on hold or being received was given to no server and has not
arrived. -/
structure Waiting (hold : ℕ → Prop) (b : Ledger) : Prop where
  held : ∀ m, hold m → b.Unsent m
  reading : ∀ c m, b.rmsg c = some m → b.Loose m ∧ ¬ hold m ∧ (∀ d, m ∉ b.arrived d) ∧
    b.kind c = .client ∧ b.owner m = some c ∧ b.fragOwner m = none

/-! ### Moves -/

/-- A request that is done is taken from its client and given back. -/
theorem Queues.retireDone (h : Queues b) (hl : Links b) {c m : ℕ} (queued : b.InClient c m)
    (done : b.done m = true) : Queues ((b.retire c m).put m) := by
  have hs := h.not_inServer_of_done done
  obtain ⟨hlive, hreq, -⟩ := h.client c m queued
  refine (h.retire queued.1 hs).put hlive.1 ?_ (h.not_inClient_retire queued) ?_
  · intro s hk
    refine hs s ⟨hk.1, ?_⟩
    have := hk.2
    dsimp only [Ledger.retire] at this
    grind only [Function.update_apply, List.mem_of_mem_erase]
  · intro r hr
    obtain ⟨hr1, -, hr2⟩ := hl.pair m r hlive hr
    rw [hreq] at hr2
    exact ⟨hr1.1, hr2⟩

theorem Queues.move (h : Queues b) (hl : Links b) (hw : Waiting hold b)
    (hm : Move mode hold b b') : Queues b' := by
  cases hm with
  | idle | unread | stamp | arrive | established | pick | rest | mark | login | closing | expire =>
    exact { h with }
  | @connect c kind connecting awake unused =>
    have hin := h.inEmpty c (by simp [unused])
    have hout := h.outEmpty c (by simp [unused]) (by simp [unused])
    exact { h.setKind kind hin hout with }
  | @listen c => exact { h.take true (some c) false true with }
  | @parse c m noreply bare reading =>
    exact { h.setNoreply noreply (hw.reading c m reading).1.1.not_inServer with }
  | @split c m n bare => exact { h.split (c := c) (m := m) n bare with }
  | @queue c m joins =>
    obtain ⟨hu, ho⟩ := joins.loose
    exact h.enqueueOut joins.kind hu.live hu.request joins.owner hu.swallow (ho c) hu.not_inServer
  | @make c m times joins =>
    obtain ⟨hu, ho⟩ := joins.loose
    have hne : m ≠ b.nextMsg := hu.live.1.ne
    have h1 := (h.take false (some c) false true).link hu.not_inServer h.next_not_inServer
    have h2 := (h1.setDone true hu.not_inServer).enqueueOut joins.kind
      ⟨Nat.lt_succ_of_lt hu.live.1, hu.live.2⟩ ((Function.update_of_ne hne _ _).trans hu.request)
      ((Function.update_of_ne hne _ _).trans joins.owner)
      ((Function.update_of_ne hne _ _).trans hu.swallow) (ho c) hu.not_inServer
    exact { h2 with }
  | @send s m key kind closing unsent =>
    have h1 := h.enqueueIn kind (List.perm_append_singleton m (b.inQ s)) unsent.not_inServer
      unsent.live unsent.request unsent.done unsent.peer (by grind) (by grind)
    exact { h1 with }
  | @auth s c key bare times kind =>
    have h1 := (h.take true (some c) true bare).enqueueIn kind
      (List.perm_append_singleton b.nextMsg (b.inQ s)) h.next_not_inServer
      ⟨Nat.lt_succ_self _, h.fresh _ le_rfl⟩ (Function.update_self ..) (Function.update_self ..)
      (Function.update_self ..) (by simp [Ledger.take]) (by simp [Ledger.take])
    exact { h1 with }
  | @select s key bare times kind =>
    have h1 := (h.take true none true bare).enqueueIn kind
      (List.Perm.refl (b.nextMsg :: b.inQ s)) h.next_not_inServer
      ⟨Nat.lt_succ_self _, h.fresh _ le_rfl⟩ (Function.update_self ..) (Function.update_self ..)
      (Function.update_self ..) (by simp [Ledger.take]) (by simp [Ledger.take])
    exact { h1 with }
  | @sent s m rest kind closing connecting first =>
    have h1 := h.sent (m := m) kind (by simp [first]) (by rw [first, List.erase_cons_head])
    exact { h1 with }
  | @skip s m kind queued =>
    exact h.sent kind queued rfl
  | @unforwarded m unsent =>
    exact { h.setDone true unsent.not_inServer with }
  | @fail s m queued =>
    exact { (h.leave m queued.1).setDone true (h.settled_leave queued) with }
  | @drop s m queued closing either =>
    obtain ⟨hlive, hreq, hdone, hpeer⟩ := h.server s m queued
    suffices h1 : Queues ((b.leave s m).put m) from { h1 with }
    refine (h.leave m queued.1).put hlive.1 (h.settled_leave queued) ?_ ?_
    · intro c hc
      rw [inClient_leave queued.1] at hc
      rcases either with hs | hn
      · simp [(h.client c m hc).2.2.2] at hs
      · exact h.apart s c m queued hn hc
    · intro r hr
      simp [Ledger.leave, hpeer] at hr
  | @answer s m rest bare times kind closing mute first =>
    have hq : b.InServer s m := ⟨kind, .inr (by simp [first])⟩
    have h1 := h.take false (some s) false bare
    have h2 := (h1.leave m kind).setDone true (h1.settled_leave hq)
    have h3 := h2.link (m := m) (r := b.nextMsg) (h1.settled_leave hq) fun t ht =>
      h.next_not_inServer t (inServer_of_leave ht)
    exact { h3 with }
  | @swallowReply s m rest bare times kind closing mute first swallow =>
    have hq : b.InServer s m := ⟨kind, .inr (by simp [first])⟩
    have hlive := (h.server s m hq).1
    have hne : m ≠ b.nextMsg := hlive.1.ne
    have h1 : Queues ((b.reply s bare).free b.nextMsg) :=
      { h.setFreed_next false (some s) false bare with }
    suffices h2 : Queues (Ledger.put { ((b.reply s bare).free b.nextMsg).leave s m with
        done := update (update b.done b.nextMsg false) m true } m) from { h2 with }
    refine ((h1.leave m kind).setDone true (h1.settled_leave hq)).put
      (Nat.lt_succ_of_lt hlive.1) (h1.settled_leave hq) ?_ ?_
    · intro c hc
      have hc' : b.InClient c m := (inClient_leave (b := b) kind m c m).1 hc
      simp [(h.client c m hc').2.2.2] at swallow
    · intro r hr
      have : b.peer m = some r := (Function.update_of_ne hne _ _).symm.trans hr
      simp [(h.server s m hq).2.2.2] at this
  | @lose s bare => exact { h.setFreed_next false (some s) false bare with }
  | @unlink c m queued done =>
    obtain ⟨hlive, hreq, -⟩ := h.client c m queued
    refine h.unlink (h.not_inServer_of_done done) fun r hr => ?_
    obtain ⟨hr1, -, hr2⟩ := hl.pair m r hlive hr
    rw [hreq] at hr2
    exact ⟨hr1.1, hr2⟩
  | @blame c m queued done peer fault bare =>
    have h1 := (h.take false none false bare).link (h.not_inServer_of_done done)
      h.next_not_inServer
    exact { h1 with }
  | @finish c m r queued peer =>
    obtain ⟨hlive, hreq, -⟩ := h.client c m queued
    have h1 := h.retireDone hl queued (hl.linked m r hlive hreq peer).1
    exact { h1 with }
  | @fragment c m queued done => exact { h.retireDone hl queued done with }
  | @discard c m queued done => exact { h.retireDone hl queued done with }
  | @swallow c m queued => exact h.swallowed queued
  | @put m site live request apart peer inQ outQ =>
    suffices h1 : Queues (b.put m) from { h1 with }
    refine h.put live.1 ?_ (fun c hc => outQ c hc.2) (by simp [peer])
    rintro s ⟨-, hi | ho⟩
    · exact inQ s hi
    · exact outQ s ho
  | @shut c inQ outQ => exact h.setKind .closed inQ outQ

/-- A request is taken from its client and given back with its response. -/
theorem Links.retirePut (h : Links b) {c m : ℕ} (live : b.Live m) :
    Links ((b.retire c m).put m) := by
  have h1 : Links ((b.put m).retire c m) := by
    refine (h.put live).setQueues fun d q hq hp => ⟨hq.1, ?_⟩
    have hne : q ≠ m := by
      rintro rfl
      exact hp (if_pos (.inl rfl))
    by_cases hd : d = c
    · subst hd
      rw [Function.update_self]
      exact (List.mem_erase_of_ne hne).2 hq.2
    · rw [Function.update_of_ne hd]
      exact hq.2
  exact ⟨h1.alive, h1.pair, h1.linked⟩

theorem Links.leave (h : Links b) {s : ℕ} (m : ℕ) (kind : b.kind s = .server) :
    Links (b.leave s m) := by
  have h1 : Links { b with inQ := (b.leave s m).inQ, outQ := (b.leave s m).outQ, kind := b.kind } :=
    h.setQueues fun c q hc _ => (Queues.inClient_leave kind m c q).2 hc
  exact { h1 with }

/-- Requests move between the queues of a server. -/
theorem Links.requeue (h : Links b) {s : ℕ} (q q' : List ℕ) (kind : b.kind s = .server) :
    Links { b with inQ := update b.inQ s q, outQ := update b.outQ s q' } := by
  have h1 : Links { b with
      inQ := update b.inQ s q, outQ := update b.outQ s q', kind := b.kind } := by
    refine h.setQueues fun c k hc _ => ⟨hc.1, ?_⟩
    rw [Function.update_of_ne ?_]
    · exact hc.2
    · rintro rfl
      simp [hc.1] at kind
  exact h1

theorem Links.move (h : Links b) (hq : Queues b) (hm : Move mode hold b b') : Links b' := by
  cases hm with
  | idle | unread | stamp | parse | arrive | send | established | pick | rest | mark | login
  | closing | expire => exact { h with }
  | @connect c kind connecting awake unused =>
    have h1 : Links { b with inQ := b.inQ, outQ := b.outQ, kind := update b.kind c kind } := by
      refine h.setQueues fun d q hd _ => ⟨?_, hd.2⟩
      rw [Function.update_of_ne ?_]
      · exact hd.1
      · rintro rfl
        simp [hd.1] at unused
    exact { h1 with }
  | @listen c => exact { h.take hq true (some c) false true with }
  | @split c m n bare => exact { h.split (c := c) (m := m) hq n bare with }
  | @queue c m => exact { h.enqueueOut c m with }
  | @make c m times joins =>
    obtain ⟨hu, ho⟩ := joins.loose
    have hne : m ≠ b.nextMsg := hu.live.1.ne
    have h1 := ((h.take hq false (some c) false true).setDone m).enqueueOut c m
    have h2 := h1.link (c := c) (m := m) (r := b.nextMsg) ⟨Nat.lt_succ_of_lt hu.live.1, hu.live.2⟩
      ⟨Nat.lt_succ_self _, hq.fresh _ le_rfl⟩ ((Function.update_of_ne hne _ _).trans hu.request)
      (Function.update_self ..) (Function.update_self ..)
      ((Function.update_of_ne hne _ _).trans joins.owner) ⟨joins.kind, by simp⟩
      ((Function.update_of_ne hne _ _).trans hu.peer) (Function.update_self ..)
    exact { h2 with }
  | @auth s c key bare =>
    exact { h.take hq true (some c) true bare with }
  | @select s key bare =>
    exact { h.take hq true none true bare with }
  | @sent s m rest kind =>
    cases hn : b.noreply m
    · exact { h.requeue rest (b.outQ s ++ [m]) kind with }
    · exact { h with }
  | @skip s m kind =>
    cases hn : b.noreply m
    · exact { h.requeue ((b.inQ s).erase m) (b.outQ s ++ [m]) kind with }
    · exact { h with }
  | @unforwarded m => exact { h.setDone m with }
  | @fail s m queued => exact { (h.leave m queued.1).setDone m with }
  | @drop s m queued =>
    exact { (h.leave m queued.1).put (hq.server s m queued).1 with }
  | @answer s m rest bare times kind closing mute first swallow =>
    have hs : b.InServer s m := ⟨kind, .inr (by simp [first])⟩
    obtain ⟨hlive, hreq, -, hpeer⟩ := hq.server s m hs
    obtain ⟨c, ho, hc⟩ := hq.home s m hs swallow (hq.awaited s m kind (by simp [first]))
    have hne : m ≠ b.nextMsg := hlive.1.ne
    have h1 := ((h.take hq false (some s) false bare).leave m kind).setDone m
    have h2 := h1.link (c := c) (m := m) (r := b.nextMsg) ⟨Nat.lt_succ_of_lt hlive.1, hlive.2⟩
      ⟨Nat.lt_succ_self _, hq.fresh _ le_rfl⟩ ((Function.update_of_ne hne _ _).trans hreq)
      (Function.update_self ..) (Function.update_self ..)
      ((Function.update_of_ne hne _ _).trans ho) ((Queues.inClient_leave kind m c m).2 hc)
      ((Function.update_of_ne hne _ _).trans hpeer) (Function.update_self ..)
    exact { h2 with }
  | @swallowReply s m rest bare times kind closing mute first =>
    have hlive := (hq.server s m ⟨kind, .inr (by simp [first])⟩).1
    have h1 := (h.take hq false (some s) false bare).free (m := b.nextMsg) (Function.update_self ..)
    have h2 : Links ((b.reply s bare).free b.nextMsg) := { h1 with }
    have h3 := ((h2.leave m kind).setDone m).put ⟨Nat.lt_succ_of_lt hlive.1,
      (Function.update_of_ne hlive.1.ne _ _).trans hlive.2⟩
    exact { h3 with }
  | @lose s bare =>
    have h1 := (h.take hq false (some s) false bare).free (m := b.nextMsg) (Function.update_self ..)
    exact { h1 with }
  | @unlink c m queued => exact h.unlink (hq.client c m queued).1
  | @blame c m queued done peer fault bare =>
    obtain ⟨hlive, hreq, ho, -⟩ := hq.client c m queued
    have hne : m ≠ b.nextMsg := hlive.1.ne
    have h2 := (h.take hq false none false bare).link (c := c) (m := m) (r := b.nextMsg)
      ⟨Nat.lt_succ_of_lt hlive.1, hlive.2⟩ ⟨Nat.lt_succ_self _, hq.fresh _ le_rfl⟩
      ((Function.update_of_ne hne _ _).trans hreq) (Function.update_self ..)
      ((Function.update_of_ne hne _ _).trans done) ((Function.update_of_ne hne _ _).trans ho) queued
      ((Function.update_of_ne hne _ _).trans peer) (Function.update_self ..)
    exact { h2 with }
  | @finish c m r queued =>
    have h1 := h.retirePut (c := c) (hq.client c m queued).1
    exact ⟨h1.alive, h1.pair, h1.linked⟩
  | @fragment c m queued => exact { h.retirePut (c := c) (hq.client c m queued).1 with }
  | @discard c m queued => exact { h.retirePut (c := c) (hq.client c m queued).1 with }
  | @swallow c m queued done =>
    obtain ⟨hlive, hreq, -⟩ := hq.client c m queued
    have h1 : Links { b with inQ := b.inQ, outQ := (b.retire c m).outQ, kind := b.kind } := by
      refine h.setQueues fun d q hd hp => ⟨hd.1, ?_⟩
      obtain ⟨r, hr⟩ := Option.ne_none_iff_exists'.1 hp
      have hne : q ≠ m := by
        rintro rfl
        simp [(h.linked q r hlive hreq hr).1] at done
      have := hd.2
      dsimp only [Ledger.retire]
      grind only [Function.update_apply, List.mem_erase_of_ne]
    exact { h1 with }
  | @put m site live => exact { h.put live with }
  | @shut c inQ outQ =>
    have h1 : Links { b with inQ := b.inQ, outQ := b.outQ, kind := update b.kind c .closed } := by
      refine h.setQueues fun d q hd _ => ⟨?_, hd.2⟩
      rw [Function.update_of_ne ?_]
      · exact hd.1
      · rintro rfl
        simpa [outQ] using hd.2
    exact h1

end CacheProxy
