/-
**Every run keeps the invariants.**

With the handlers shown to be sequences of moves, what is left is the event loop: requests that
expire, one event, and a run.  What a run can be relied on depends on what is assumed of its events,
which `Assumed` lists: lengths that are not recorded as zero, reads that complete one request at
most, connections that are not established at once, a clock that does not stand at zero.

Main definitions:

* `Event.Meets`, `Meets` — what is assumed of an event, and of a run.

Main results:

* `timeoutLoop_fine` — `core_timeout` ends, and closes only open connections;
* `step_fine`, `run_fine` — the invariants hold after every event and after every run.
-/

import CacheProxy.RefineServer

namespace CacheProxy

open Function (update)
open Ledger

variable {κ ι : Type} {env : Env κ ι} {a : Assumed} {now now' : ℕ} {w : Work}
  {p p' : Proxy κ} {b b' : Ledger} {c m s : ℕ}

/-! ### Requests that expire -/

theorem mem_of_tmoMin {es : List TmoNode} {e : TmoNode} (h : tmoMin es = some e) : e ∈ es := by
  induction es generalizing e with
  | nil => simp [tmoMin] at h
  | cons x xs ih =>
    unfold tmoMin at h
    cases hm : tmoMin xs with
    | none =>
      simp only [hm, Option.some.injEq] at h
      simp [h]
    | some =>
      simp only [hm] at h
      split at h
      · simp [Option.some.inj h]
      · rw [Option.some.injEq] at h
        exact List.mem_cons_of_mem x (h ▸ ih hm)

/-- A node leaves the tree. -/
theorem Ledger.untime_length {e : TmoNode} (he : e ∈ b.tmo) :
    (b.untime e.msg).tmo.length + 1 = b.tmo.length := by
  have := List.length_eraseP_add_one (l := b.tmo) (p := fun x => x.msg == e.msg) he (by simp)
  exact this

/-- **A request that has expired**: its connection is open and is closed. -/
theorem closeExpired_fine {e : TmoNode} (h : Fine env a now {} (fun _ => False) p) (he : e ∈ p.tmo)
    (undone : (ledger p).done e.msg = false) :
    Fine env a now {} (fun _ => False) (closeExpired env now p e) ∧
      (closeExpired env now p e).tmo.length < p.tmo.length := by
  have queued := h.tree.queued e he undone
  set p₁ := (msgTmoDelete (noteClosing p e.conn) e.msg).setConn e.conn fun k =>
    { k with err := ETIMEDOUT }
  have h1 : Goes env a now (Work.close {} e.conn) (fun _ => False) p (noteClosing p e.conn) :=
    (Goes.refl (h.retag (h.settled.close fun _ hl => hl.elim))).step (Move.closing rfl)
  have h2 : Goes env a now (Work.close {} e.conn) (fun _ => False) p
      (msgTmoDelete (noteClosing p e.conn) e.msg) :=
    h1.step (Move.expire he (.inr (Function.update_self ..)))
  obtain ⟨h3, hu⟩ := setErr_goes (s := e.conn) h2.good queued.1 ETIMEDOUT
  have hkind : (ledger p₁).kind e.conn = .server := by
    rw [hu.kind]
    exact queued.1
  obtain ⟨h4, -, -, -, -, htmo⟩ := serverClose_goes h3.good hkind fun _ hl => hl
  have hres : closeExpired env now p e = serverClose env now p₁ e.conn := if_pos hkind
  rw [hres]
  refine ⟨h4.good, ?_⟩
  have hlen := (htmo.trans hu.tmo).length_le
  have hdel : (ledger (msgTmoDelete (noteClosing p e.conn) e.msg)).tmo.length + 1 = p.tmo.length :=
    Ledger.untime_length (b := ledger p) he
  exact lt_of_lt_of_le (Nat.lt_succ_of_le hlen) hdel.le

/-- **The loop of `core_timeout` ends**: every iteration but the last removes a node. -/
theorem timeoutLoop_fine (fuel : ℕ) (h : Fine env a now {} (fun _ => False) p)
    (enough : p.tmo.length < fuel) :
    Fine env a now {} (fun _ => False) (timeoutLoop env now fuel p).1 ∧
      (timeoutLoop env now fuel p).2 = true := by
  induction fuel generalizing p with
  | zero => omega
  | succ fuel ih =>
    unfold timeoutLoop
    cases hmin : tmoMin p.tmo with
    | none => exact ⟨h, rfl⟩
    | some e =>
      have he : e ∈ p.tmo := mem_of_tmoMin hmin
      dsimp only
      split
      · rename_i hover
        -- a request in error is done
        have hdone : (ledger p).done e.msg = true := by
          rcases Bool.or_eq_true_iff.1 hover with herr | hdone
          · exact h.faults e.msg (by simp [ledger, herr])
          · exact hdone
        have hlen : (msgTmoDelete p e.msg).tmo.length + 1 = p.tmo.length :=
          Ledger.untime_length (b := ledger p) he
        refine ih (p := msgTmoDelete p e.msg) ?_ (by omega)
        exact h.move (Move.expire he (.inl hdone))
      · rename_i hover
        split
        · exact ⟨h, rfl⟩
        · have undone : (ledger p).done e.msg = false := by
            by_contra hd
            have hd' : (p.msgs e.msg).done = true := by simpa [ledger] using hd
            simp [hd'] at hover
          obtain ⟨h1, hlen⟩ := closeExpired_fine h he undone
          exact ih h1 (by omega)

/-! ### Closing what is in error -/

theorem checkClient_fine (h : Fine env a now {} (fun _ => False) p)
    (client : (ledger p).kind c = .client) :
    Fine env a now {} (fun _ => False) (checkClient now p c) := by
  unfold checkClient
  split
  · exact (clientClose_goes h client (fun _ hl => hl.elim) fun _ hl => hl.elim).good
  · exact h

theorem checkServer_fine (h : Fine env a now {} (fun _ => False) p)
    (server : (ledger p).kind s = .server) :
    Fine env a now {} (fun _ => False) (checkServer env now p s) := by
  unfold checkServer
  split
  · exact (serverClose_goes h server fun _ hl => hl.elim).1.good
  · exact h

/-! ### Events and runs -/

/-- **What is assumed of an event.** -/
def Event.Meets (env : Env κ ι) (a : Assumed) : Event κ ι → Prop
  | .clientRead _ reqs _ => (∀ x ∈ reqs, x.Meets env a) ∧ (a.single → reqs.length ≤ 1)
  | .reply _ con => a.ample → con.mlen ≠ 0
  | .preconnect _ connecting => a.late → connecting = true
  | _ => True

/-- **What is assumed of a run**, and of the pool. -/
structure Meets (env : Env κ ι) (a : Assumed) (es : List (ℕ × Event κ ι)) : Prop where
  full : a.ample → env.Full
  events : ∀ e ∈ es, e.2.Meets env a
  ticking : a.ticking → ∀ e ∈ es, e.1 ≠ 0

/-- The time of an event matters only for the next one. -/
theorem Sound.tick {hold : ℕ → Prop} (h : Sound (modeOf env a now w) hold b)
    (ticks : a.ticking → now' ≠ 0) : Sound (modeOf env a now' w) hold b where
  __ := h
  tree := { h.tree with }
  settled := { h.settled with }
  clock := fun ht => { h.clock ht with }
  lines := fun hf =>
    { h.lines hf with
      opened := fun s hk hc => { (h.lines hf).opened s hk hc with }
      written := fun s => { (h.lines hf).written s with } }
  ticks := ticks

/-- **Every event keeps the invariants.** -/
theorem step_fine (full : a.ample → env.Full) {e : Event κ ι} (meets : e.Meets env a)
    (h : Fine env a now {} (fun _ => False) p) :
    Fine env a now {} (fun _ => False) (step env now p e) := by
  cases e with
  | accept c =>
    unfold step
    dsimp only
    split
    · rename_i hk
      have heq : ledger (p.setConn c fun k => { k with kind := .client, sendActive := true }) =
          { ledger p with
            kind := update (ledger p).kind c .client
            connecting := update (ledger p).connecting c ((ledger p).connecting c)
            awake := update (ledger p).awake c true } := by
        rw [ledger_setConn]
        apply Ledger.ext <;> first | rfl | exact Function.update_eq_self _ _
      rw [Fine, heq]
      exact h.move (Move.connect .client _ true hk (.inl rfl) (by simp))
    · exact h
  | clientRead c reqs rest =>
    unfold step
    dsimp only
    split
    · rename_i hk
      obtain ⟨h1, hk1⟩ := clientRead_goes full rest reqs meets.1 meets.2 h hk
      exact checkClient_fine h1.good hk1
    · exact h
  | clientEof =>
    unfold step
    dsimp only
    split
    · rename_i hk
      obtain ⟨h1, hk1⟩ := clientEof_goes h hk
      exact checkClient_fine h1.good hk1
    · exact h
  | serverSend s ws =>
    unfold step
    dsimp only
    split
    · rename_i hk
      obtain ⟨h1, hk1⟩ := serverSend_fine full h hk ws
      exact checkServer_fine h1 hk1
    · exact h
  | reply s con =>
    unfold step
    dsimp only
    split
    · rename_i hk
      obtain ⟨h1 | ⟨h1, herr⟩, hk1⟩ := serverReply_goes h hk con meets
      · exact checkServer_fine h1.good hk1
      · -- a connection on which a reply was thrown away is closed at once
        unfold checkServer
        rw [if_pos (.inl herr)]
        exact (serverClose_goes h1.good hk1 fun _ hl => hl).1.good
    · exact h
  | clientSend c ws =>
    unfold step
    dsimp only
    split
    · rename_i hk
      obtain ⟨h1, hk1⟩ := clientSend_fine h hk ws
      exact checkClient_fine h1 hk1
    · exact h
  | serverClose s err =>
    unfold step
    dsimp only
    split
    · rename_i hk
      obtain ⟨h1, hu⟩ := setErr_goes (s := s) h hk err
      exact (serverClose_goes h1.good (by rw [hu.kind]; exact hk) fun _ hl => hl.elim).1.good
    · exact h
  | clientClose =>
    unfold step
    dsimp only
    split
    · rename_i hk
      exact (clientClose_goes h hk (fun _ hl => hl.elim) fun _ hl => hl.elim).good
    · exact h
  | preconnect s connecting =>
    unfold step
    dsimp only
    split
    · rename_i hk
      rw [Fine, ledger_openServer]
      exact h.move (Move.connect .server connecting true hk (.inr rfl) fun hl _ => meets hl)
    · exact h
  | timeout => exact (timeoutLoop_fine (p.tmo.length + 1) h (Nat.lt_succ_self _)).1

/-- The invariants hold before anything happened. -/
theorem initial_fine (ticks : a.ticking → now ≠ 0) :
    Fine env a now {} (fun _ => False) (initial env) where
  queues := by constructor <;> simp [initial, ledger, InClient, InServer, Proxy.inQ, Proxy.outQ]
  links := by constructor <;> simp [initial, ledger]
  waiting := by constructor <;> simp [initial, ledger]
  blank := by constructor <;> simp [initial, ledger]
  tree := by constructor <;> simp [initial, ledger, InServer, Proxy.inQ, Proxy.outQ]
  order := by constructor <;> simp [initial, ledger, Ledger.pending]
  groups := by constructor <;> simp [initial, ledger]
  places := by constructor <;> simp [initial, ledger]
  parts := by constructor <;> simp [initial, ledger, InClient, Proxy.outQ]
  counts := by constructor <;> simp [initial, ledger, InClient]
  settled := by constructor <;> simp [initial, ledger]
  answered := by constructor <;> simp [initial, ledger, InClient]
  faults := by simp [Faults, initial, ledger]
  journal := by simp [Journal, initial, ledger]
  paired := fun _ => by constructor <;> simp [initial, ledger, Proxy.inQ, Proxy.outQ]
  clock := fun _ => by constructor <;> simp [initial, ledger]
  lines := fun _ => by
    refine ⟨by simp [initial, ledger], by simp [initial, ledger],
      by simp [initial, ledger, Proxy.inQ], by simp [initial, ledger], fun s => ?_⟩
    constructor <;> simp [initial, ledger]
  ticks := ticks
  stray := rfl

/-- **Every run keeps the invariants.** -/
theorem run_fine (es : List (ℕ × Event κ ι)) (meets : Meets env a es) :
    ∀ now, (a.ticking → now ≠ 0) → Fine env a now {} (fun _ => False) (run env es) := by
  induction es using List.reverseRecOn with
  | nil => exact fun now ticks => initial_fine ticks
  | append_singleton es e ih =>
    intro now ticks
    have hlast : e ∈ es ++ [e] := by simp
    have hinit : Meets env a es :=
      ⟨meets.full, fun x hx => meets.events x (by simp [hx]), fun ht x hx =>
        meets.ticking ht x (by simp [hx])⟩
    have h1 := ih hinit e.1 fun ht => meets.ticking ht e hlast
    have h2 := step_fine meets.full (meets.events e hlast) h1
    have heq : run env (es ++ [e]) = step env e.1 (run env es) e.2 := by
      simp [run, List.foldl_append]
    rw [heq]
    exact Sound.tick h2 ticks

end CacheProxy
