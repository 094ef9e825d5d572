/-
**The timeout tree.**

Every request that a server is expected to answer is in the timeout tree, once, with that server's
connection; and a node whose request is not done names a connection that still has the request.

Main results:

* `Tree.move` — a move keeps the tree in step with the queues.
-/

import CacheProxy.LedgerFrame

namespace CacheProxy

open Function (update)
open Ledger

/-- In a tree without duplicates, deleting a message leaves the nodes of the other messages. -/
theorem mem_untime {l : List TmoNode} (nodup : (l.map TmoNode.msg).Nodup) {e : TmoNode} {m : ℕ} :
    e ∈ l.eraseP (fun x => x.msg == m) ↔ e ∈ l ∧ e.msg ≠ m := by
  induction l with
  | nil => simp
  | cons x xs ih =>
    rw [List.map_cons, List.nodup_cons] at nodup
    by_cases hx : x.msg = m
    · have hxs : ∀ y ∈ xs, y.msg ≠ m := by
        rintro y hy rfl
        exact nodup.1 (hx ▸ List.mem_map_of_mem hy)
      rw [List.eraseP_cons_of_pos (by simpa using hx), List.mem_cons]
      grind
    · rw [List.eraseP_cons_of_neg (by simpa using hx), List.mem_cons, List.mem_cons, ih nodup.2]
      grind

/-- **The tree is in step with the queues.** -/
structure Tree (mode : Mode) (b : Ledger) : Prop where
  nodup : (b.tmo.map TmoNode.msg).Nodup
  live : ∀ e ∈ b.tmo, b.Live e.msg ∧ b.request e.msg = true ∧ b.noreply e.msg = false
  timed : 0 < mode.timeout → ∀ s m, b.InServer s m → b.noreply m = false → b.closing s = false →
    ∃ e ∈ b.tmo, e.msg = m ∧ e.conn = s
  queued : ∀ e ∈ b.tmo, b.done e.msg = false → b.InServer e.conn e.msg

variable {mode : Mode} {hold : ℕ → Prop} {b b' : Ledger} {m s : ℕ}

namespace Tree

/-! ### Operations -/

theorem take (h : Tree mode b) (hq : Queues b) (request : Bool) (owner : Option ℕ)
    (swallow bare : Bool) : Tree mode (b.take request owner swallow bare) := by
  have hlt : ∀ t k, b.InServer t k → k ≠ b.nextMsg := fun t k hk => (hq.server t k hk).1.1.ne
  obtain ⟨h1, h2, h3, h4⟩ := h
  refine ⟨h1, ?_, ?_, ?_⟩ <;> dsimp only [Ledger.take, Live] at *
  · grind only [Function.update_apply]
  · intro ht t k hk hn hc
    exact h3 ht t k hk ((Function.update_of_ne (hlt t k hk) _ _).symm.trans hn) hc
  · intro e he hd
    exact h4 e he ((Function.update_of_ne (h2 e he).1.1.ne _ _).symm.trans hd)

theorem split (h : Tree mode b) (hq : Queues b) {c : ℕ} (n : ℕ) (bare : ℕ → Bool) :
    Tree mode (b.split c m n bare) := by
  have hids : ∀ k, k < b.nextMsg → ¬ b.nextMsg ≤ k := fun k hk => hk.not_ge
  have hlt : ∀ t k, b.InServer t k → k < b.nextMsg := fun t k hk => (hq.server t k hk).1.1
  refine ⟨h.nodup, fun e he => ?_, fun ht t k hk hn hc => ?_, fun e he hd => ?_⟩
  · obtain ⟨hlive, hreq, hn⟩ := h.live e he
    simpa [Ledger.split, Ledger.Live, hids e.msg hlive.1, hreq, hn, hlive.2] using
      Nat.lt_add_right n hlive.1
  · exact h.timed ht t k hk (by simpa [Ledger.split, hids k (hlt t k hk)] using hn) hc
  · have hlive := (h.live e he).1
    exact h.queued e he (by simpa [Ledger.split, hids e.msg hlive.1] using hd)

/-- A message is taken and given back. -/
theorem takeFree (h : Tree mode b) (hq : Queues b) (s : ℕ) (bare : Bool) :
    Tree mode ((b.take false (some s) false bare).free b.nextMsg) where
  __ := h.take hq false (some s) false bare
  live := by
    intro e he
    obtain ⟨hlive, hr⟩ := (h.take hq false (some s) false bare).live e he
    exact ⟨⟨hlive.1, (Function.update_of_ne (h.live e he).1.1.ne _ _).trans hlive.2⟩, hr⟩

/-- Queues change: what comes in is timed, and what is timed stays. -/
theorem setQueues (h : Tree mode b) {inQ outQ : ℕ → List ℕ} {kind : ℕ → ConnKind}
    (sub : ∀ t k, { b with inQ := inQ, outQ := outQ, kind := kind }.InServer t k → b.InServer t k)
    (keeps : ∀ e ∈ b.tmo, b.done e.msg = false → b.InServer e.conn e.msg →
      { b with inQ := inQ, outQ := outQ, kind := kind }.InServer e.conn e.msg) :
    Tree mode { b with inQ := inQ, outQ := outQ, kind := kind } where
  nodup := h.nodup
  live := h.live
  timed := fun ht t k hk hn hc => h.timed ht t k (sub t k hk) hn hc
  queued := fun e he hd => keeps e he hd (h.queued e he hd)

theorem setDone (h : Tree mode b) (m : ℕ) :
    Tree mode { b with done := update b.done m true } where
  __ := h
  queued := by
    intro e he hd
    refine h.queued e he ?_
    dsimp only at hd
    grind only [Function.update_apply]

theorem untime (h : Tree mode b)
    (out : ∀ t, b.InServer t m → b.noreply m = true ∨ b.closing t = true) :
    Tree mode (b.untime m) where
  nodup := h.nodup.sublist (List.eraseP_sublist.map _)
  live := fun e he => h.live e (List.eraseP_sublist.subset he)
  timed := by
    intro ht t k hk hn hc
    obtain ⟨e, he, hek, het⟩ := h.timed ht t k hk hn hc
    refine ⟨e, (mem_untime h.nodup).2 ⟨he, ?_⟩, hek, het⟩
    rintro rfl
    subst hek
    rcases out t hk with hn' | hc'
    · simp_all [Ledger.untime]
    · simp_all [Ledger.untime]
  queued := fun e he hd => h.queued e (List.eraseP_sublist.subset he) hd

theorem setFreed (h : Tree mode b) {freed : ℕ → Bool}
    (keeps : ∀ e ∈ b.tmo, freed e.msg = b.freed e.msg) :
    Tree mode { b with freed := freed } where
  __ := h
  live := by
    intro e he
    obtain ⟨hl, hr⟩ := h.live e he
    exact ⟨⟨hl.1, (keeps e he).trans hl.2⟩, hr⟩

/-- A response is given back. -/
theorem unlink (h : Tree mode b) (hl : ∀ r, b.peer m = some r → b.request r = false) :
    Tree mode (b.unlink m) := by
  have h1 : Tree mode { b with freed := (b.unlink m).freed } := by
    refine h.setFreed fun e he => ?_
    have hne : b.peer m ≠ some e.msg := by
      intro hp
      simpa [hl _ hp] using (h.live e he).2.1
    simp [Ledger.unlink, hne]
  exact { h1 with }

/-- A request that no server is expected to answer is given back. -/
theorem put (h : Tree mode b) (out : ∀ t, b.InServer t m → b.noreply m = true ∨ b.closing t = true)
    (hl : ∀ r, b.peer m = some r → b.request r = false) : Tree mode (b.put m) := by
  have h1 : Tree mode ((b.unlink m).untime m) := (h.unlink hl).untime out
  refine h1.setFreed fun e he => Function.update_of_ne ?_ _ _
  exact ((mem_untime h.nodup).1 he).2

theorem time (h : Tree mode b) (key : ℤ) (new : ∀ e ∈ b.tmo, e.msg ≠ m) (live : b.Live m)
    (request : b.request m = true) {q : List ℕ} (perm : q.Perm (m :: b.inQ s))
    (kind : b.kind s = .server) :
    Tree mode { b.time mode.timeout key s m with inQ := update b.inQ s q } := by
  have hmem : ∀ k, k ∈ q ↔ k = m ∨ k ∈ b.inQ s := by
    intro k
    rw [perm.mem_iff, List.mem_cons]
  obtain ⟨h1, h2, h3, h4⟩ := h
  refine ⟨?_, ?_, ?_, ?_⟩ <;> dsimp only [Ledger.time, InServer, Live] at *
  · split
    · exact h1
    · rw [List.map_append, List.nodup_append]
      refine ⟨h1, by simp, ?_⟩
      simpa using fun e he => new e he
  · split <;> grind
  · intro ht t k hk hn hc
    by_cases hkm : t = s ∧ k = m
    · obtain ⟨rfl, rfl⟩ := hkm
      exact ⟨⟨k, key, t⟩, by simp [hn, ht.not_ge], rfl, rfl⟩
    · obtain ⟨e, he, hek, het⟩ := h3 ht t k (by grind only [Function.update_apply]) hn hc
      refine ⟨e, ?_, hek, het⟩
      split
      · exact he
      · exact List.mem_append_left _ he
  · intro e he hd
    have hcase : e ∈ b.tmo ∨ e = ⟨m, key, s⟩ := by
      split at he
      · exact .inl he
      · simpa using he
    rcases hcase with he | rfl
    · have := h4 e he hd
      grind only [Function.update_apply]
    · exact ⟨kind, .inl (by simp [hmem])⟩

/-- A request that is done leaves the queues of its server. -/
theorem leaveDone (h : Tree mode b) (hq : Queues b) (queued : b.InServer s m) :
    Tree mode { b.leave s m with done := update b.done m true } := by
  have h1 := h.setDone m
  have h2 : Tree mode { b with
      done := update b.done m true
      inQ := (b.leave s m).inQ
      outQ := (b.leave s m).outQ
      kind := b.kind } := by
    refine h1.setQueues (fun t k hk => Queues.inServer_of_leave hk) fun e he hd hk => ?_
    have hne : e.msg ≠ m := by
      intro hem
      simp [hem] at hd
    have := hk
    dsimp only [Ledger.leave, InServer] at this ⊢
    grind only [Function.update_apply, List.mem_erase_of_ne]
  by_cases hout : m ∈ b.outQ s
  · have h3 := h2.untime (m := m) fun t ht => absurd ht (hq.settled_leave queued t)
    simp only [Ledger.leave, if_pos hout]
    exact { h3 with }
  · simp only [Ledger.leave, if_neg hout]
    exact { h2 with }

/-- A request leaves the queues of its server and is given back. -/
theorem leavePut (h : Tree mode b) (hq : Queues b) (queued : b.InServer s m)
    (out : b.noreply m = true ∨ b.closing s = true) : Tree mode ((b.leave s m).put m) := by
  have h1 : Tree mode (b.put m) := by
    refine h.put (fun t ht => ?_) (by simp [(hq.server s m queued).2.2.2])
    rwa [hq.unique t s m ht queued]
  have h2 : Tree mode { b.put m with
      inQ := (b.leave s m).inQ
      outQ := (b.leave s m).outQ
      kind := b.kind } := by
    refine h1.setQueues (fun t k hk => Queues.inServer_of_leave hk) fun e he hd hk => ?_
    have hne : e.msg ≠ m := ((mem_untime h.nodup).1 he).2
    have := hk
    dsimp only [Ledger.leave, Ledger.put, Ledger.free, Ledger.untime, Ledger.unlink, InServer]
      at this ⊢
    grind only [Function.update_apply, List.mem_erase_of_ne]
  -- the node is deleted once or twice
  have htmo : ((b.leave s m).tmo.eraseP fun x => x.msg == m) = b.tmo.eraseP fun x =>
    x.msg == m := by
    dsimp only [Ledger.leave]
    split
    · refine List.eraseP_of_forall_not fun e he => ?_
      simpa using ((mem_untime h.nodup).1 he).2
    · rfl
  have heq : (b.leave s m).put m =
      { b.put m with inQ := (b.leave s m).inQ, outQ := (b.leave s m).outQ } := by
    simp only [Ledger.put, Ledger.free, Ledger.untime, Ledger.unlink, htmo]
    rfl
  rw [heq]
  exact h2

/-- A request that is done is taken from its client and given back. -/
theorem retirePut (h : Tree mode b) (hq : Queues b) (hl : Links b) {c : ℕ} (queued : b.InClient c m)
    (done : b.done m = true) : Tree mode ((b.retire c m).put m) := by
  obtain ⟨hlive, hreq, -⟩ := hq.client c m queued
  have h1 : Tree mode (b.put m) := by
    refine h.put (fun t ht => absurd ht (hq.not_inServer_of_done done t)) fun r hr => ?_
    simpa [hreq] using (hl.pair m r hlive hr).2.2
  have h2 : Tree mode { b.put m with
      inQ := b.inQ
      outQ := (b.retire c m).outQ
      kind := b.kind } := by
    refine h1.setQueues (fun t k hk => ?_) fun e he hd hk => ?_
    · dsimp only [Ledger.retire, Ledger.put, Ledger.free, Ledger.untime, Ledger.unlink, InServer,
        InClient] at hk queued ⊢
      grind only [Function.update_apply, List.mem_of_mem_erase]
    · dsimp only [Ledger.retire, Ledger.put, Ledger.free, Ledger.untime, Ledger.unlink, InServer,
        InClient] at hk queued ⊢
      grind only [Function.update_apply]
  exact { h2 with }

/-- The queue of a client changes. -/
theorem setClient (h : Tree mode b) {c : ℕ} (kind : b.kind c = .client) (q : List ℕ) :
    Tree mode { b with outQ := update b.outQ c q } := by
  have h1 : Tree mode { b with inQ := b.inQ, outQ := update b.outQ c q, kind := b.kind } := by
    refine h.setQueues (fun t k hk => ?_) fun e he hd hk => ?_
    · dsimp only [InServer] at hk ⊢
      grind only [Function.update_apply]
    · dsimp only [InServer] at hk ⊢
      grind only [Function.update_apply]
  exact h1

/-- A request goes from the in-queue of a server to its out-queue, if it is to be answered. -/
theorem sent (h : Tree mode b) {rest : List ℕ} (queued : m ∈ b.inQ s)
    (erase : rest = (b.inQ s).erase m) :
    Tree mode { b with
      inQ := update b.inQ s rest
      outQ := if b.noreply m then b.outQ else update b.outQ s (b.outQ s ++ [m]) } := by
  subst erase
  suffices h1 : Tree mode { b with
      inQ := update b.inQ s ((b.inQ s).erase m)
      outQ := if b.noreply m then b.outQ else update b.outQ s (b.outQ s ++ [m])
      kind := b.kind } from h1
  refine h.setQueues (fun t k hk => ?_) fun e he hd hk => ?_
  · dsimp only [InServer] at hk ⊢
    grind [Function.update_apply, List.mem_of_mem_erase]
  · have hn := (h.live e he).2.2
    dsimp only [InServer] at hk ⊢
    by_cases hem : e.msg = m
    · subst hem
      rw [hn]
      grind [Function.update_apply]
    · grind [Function.update_apply]

end Tree

theorem Tree.move (h : Tree mode b) (hq : Queues b) (hl : Links b) (hw : Waiting hold b)
    (hmove : Move mode hold b b') : Tree mode b' := by
  cases hmove with
  | idle | unread | stamp | arrive | established | pick | rest | mark | login => exact { h with }
  | @connect c kind connecting awake unused =>
    have hin := hq.inEmpty c (by simp [unused])
    have hout := hq.outEmpty c (by simp [unused]) (by simp [unused])
    have h1 : Tree mode { b with
        inQ := b.inQ, outQ := b.outQ, kind := update b.kind c kind } := by
      refine h.setQueues (fun t k hk => ?_) fun e he hd hk => ?_
      · dsimp only [InServer] at hk ⊢
        grind [Function.update_apply]
      · dsimp only [InServer] at hk ⊢
        grind [Function.update_apply]
    exact { h1 with }
  | @listen c => exact { h.take hq true (some c) false true with }
  | @parse c m noreply bare reading =>
    have hu := (hw.reading c m reading).1.1
    refine { h with live := fun e he => ?_, timed := fun ht s k hk hn hc => ?_ }
    · obtain ⟨hlive, hreq, hn⟩ := h.live e he
      exact ⟨hlive, hreq, (Function.update_of_ne (hu.tmo he) _ _).trans hn⟩
    · have hne : k ≠ m := by
        rintro rfl
        exact hu.not_inServer s hk
      exact h.timed ht s k hk ((Function.update_of_ne hne _ _).symm.trans hn) hc
  | @split c m n bare =>
    exact { h.split (c := c) (m := m) hq n bare with }
  | @queue c m joins => exact h.setClient joins.kind _
  | @make c m times joins =>
    have h1 := ((h.take hq false (some c) false true).setDone m).setClient joins.kind
      (b.outQ c ++ [m])
    exact { h1 with }
  | @send s m key kind closing unsent =>
    exact h.time key (fun e => unsent.tmo) unsent.live unsent.request
      (List.perm_append_singleton m (b.inQ s)) kind
  | @auth s c key bare times kind =>
    have h1 := (h.take hq true (some c) true bare).time (m := b.nextMsg) key
      (fun e he => (h.live e he).1.1.ne) ⟨Nat.lt_succ_self _, hq.fresh _ le_rfl⟩
      (Function.update_self ..) (List.perm_append_singleton b.nextMsg (b.inQ s)) kind
    exact { h1 with }
  | @select s key bare times kind =>
    have h1 := (h.take hq true none true bare).time (m := b.nextMsg) key
      (fun e he => (h.live e he).1.1.ne) ⟨Nat.lt_succ_self _, hq.fresh _ le_rfl⟩
      (Function.update_self ..) (List.Perm.refl (b.nextMsg :: b.inQ s)) kind
    exact { h1 with }
  | @sent s m rest kind closing connecting first =>
    have h1 := h.sent (s := s) (m := m) (by simp [first]) (by rw [first, List.erase_cons_head])
    exact { h1 with }
  | @skip s m kind queued => exact h.sent queued rfl
  | @unforwarded m => exact { h.setDone m with }
  | @fail s m queued => exact { h.leaveDone hq queued with }
  | @drop s m queued closing =>
    exact { h.leavePut hq queued (.inr closing) with }
  | @answer s m rest bare times kind closing mute first =>
    have hs : b.InServer s m := ⟨kind, .inr (by simp [first])⟩
    have h1 := h.take hq false (some s) false bare
    have h2 := h1.leaveDone (hq.take false (some s) false bare) (s := s) (m := m) hs
    exact { h2 with }
  | @swallowReply s m rest bare times kind closing mute first =>
    have hs : b.InServer s m := ⟨kind, .inr (by simp [first])⟩
    have h1 : Tree mode ((b.reply s bare).free b.nextMsg) := { h.takeFree hq s bare with }
    have hq1 : Queues ((b.reply s bare).free b.nextMsg) :=
      { hq.setFreed_next false (some s) false bare with }
    suffices h2 : Tree mode (Ledger.put { ((b.reply s bare).free b.nextMsg).leave s m with
        done := update (update b.done b.nextMsg false) m true } m) from { h2 with }
    refine (h1.leaveDone hq1 (s := s) (m := m) hs).put
      (fun t ht => absurd ht (hq1.settled_leave hs t)) fun r hr => ?_
    have : b.peer m = some r := (Function.update_of_ne (hq.server s m hs).1.1.ne _ _).symm.trans hr
    simp [(hq.server s m hs).2.2.2] at this
  | @lose s bare => exact { h.takeFree hq s bare with }
  | @unlink c m queued =>
    obtain ⟨hlive, hreq, -⟩ := hq.client c m queued
    refine h.unlink fun r hr => ?_
    simpa [hreq] using (hl.pair m r hlive hr).2.2
  | @blame c m queued done peer fault bare => exact { h.take hq false none false bare with }
  | @finish c m r queued peer =>
    obtain ⟨hlive, hreq, -⟩ := hq.client c m queued
    have h1 := h.retirePut hq hl queued (hl.linked m r hlive hreq peer).1
    exact { h1 with }
  | @fragment c m queued done => exact { h.retirePut hq hl queued done with }
  | @discard c m queued done => exact { h.retirePut hq hl queued done with }
  | @swallow c m queued =>
    exact { h.setClient queued.1 ((b.outQ c).erase m) with }
  | @put m site live request apart peer inQ outQ =>
    suffices h1 : Tree mode (b.put m) from { h1 with }
    refine h.put ?_ (by simp [peer])
    rintro t ⟨-, hi | ho⟩
    · exact absurd hi (inQ t)
    · exact absurd ho (outQ t)
  | closing =>
    refine { h with timed := fun ht s k hk hn hc => h.timed ht s k hk hn ?_ }
    dsimp only at hc
    grind only [Function.update_apply]
  | @shut c inQ outQ =>
    have h1 : Tree mode { b with
        inQ := b.inQ, outQ := b.outQ, kind := update b.kind c .closed } := by
      refine h.setQueues (fun t k hk => ?_) fun e he hd hk => ?_
      · dsimp only [InServer] at hk ⊢
        grind [Function.update_apply]
      · dsimp only [InServer] at hk ⊢
        grind [Function.update_apply]
    exact h1
  | @expire e node ended =>
    refine h.untime fun t ht => ?_
    rcases ended with hd | hc
    · exact absurd ht (hq.not_inServer_of_done hd t)
    · have hs := h.queued e node (hq.server t e.msg ht).2.2.1
      exact .inr (hq.unique t e.conn e.msg ht hs ▸ hc)

end CacheProxy
