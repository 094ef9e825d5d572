/-
**Handlers as moves: closing a server, and requests that cannot be forwarded.**

`server_close` empties the two queues of a connection.  A request that its client waits for is in
error, and the client is looked at; any other request is given back.

Main results:

* `serverClose_goes` — closing a server;
* `reqForwardError_goes` — a request that cannot be forwarded.
-/

import CacheProxy.RefineDone

namespace CacheProxy

open Function (update)
open Ledger

variable {κ ι : Type} {env : Env κ ι} {a : Assumed} {now : ℕ} {w : Work} {hold : ℕ → Prop}
  {p p' p₁ : Proxy κ} {c m s : ℕ}

/-! ### One request -/

/-- The queues and the connections are those of `b`. -/
structure Unmoved (b b' : Ledger) : Prop where
  inQ : b'.inQ = b.inQ
  outQ : b'.outQ = b.outQ
  kind : b'.kind = b.kind
  closing : b'.closing = b.closing
  rmsg : b'.rmsg = b.rmsg
  tmo : b'.tmo.Sublist b.tmo

theorem Ledger.put_tmo (b : Ledger) (m : ℕ) : (b.put m).tmo.Sublist b.tmo := List.eraseP_sublist

theorem Ledger.leave_tmo (b : Ledger) (s m : ℕ) : (b.leave s m).tmo.Sublist b.tmo := by
  dsimp only [Ledger.leave]
  split
  · exact List.eraseP_sublist
  · exact List.Sublist.refl _

/-- A request that its client waits for is in error. -/
theorem failQueued_goes (h : Fine env a now w hold p) (queued : (ledger p).InServer s m)
    (closing : (ledger p).closing s = true) (hw : ∀ c, w.leaving c → c = s)
    (hleave : ledger p₁ = (ledger p).leave s m) (swallow : (ledger p).swallow m = false)
    (noreply : (ledger p).noreply m = false) (err : ℕ) :
    Goes env a now w hold p (failQueued env p₁ m err) ∧
      Unmoved ((ledger p).leave s m) (ledger (failQueued env p₁ m err)) := by
  obtain ⟨c, hown, hc⟩ := h.queues.home s m queued swallow noreply
  have calm : (ledger p).Calm := h.calm fun d hd hk => by
    rw [hw d hd, queued.1] at hk
    cases hk
  have hfail : ledger (bumpOwner (setFailed p₁ m err) m) =
      Ledger.bump { (ledger p).leave s m with
        done := update (ledger p).done m true
        fault := update (ledger p).fault m true } m := by
    rw [ledger_bumpOwner, ledger_setFailed, hleave]
    rfl
  have h1 : Goes env a now (w.also c) hold p (bumpOwner (setFailed p₁ m err) m) := by
    refine (Goes.refl (h.also c)).step ?_
    rw [hfail]
    refine Move.fail queued closing swallow noreply calm fun d hd => .inl ?_
    exact Option.some.inj (hd.symm.trans hown)
  have hown' : ((bumpOwner (setFailed p₁ m err) m).msgs m).owner = some c := by
    have := congrFun (congrArg Ledger.owner hfail) m
    exact this.trans hown
  have hkind : (ledger (bumpOwner (setFailed p₁ m err) m)).kind c = .client := by
    rw [hfail]
    exact hc.1
  have hcalm : (ledger (bumpOwner (setFailed p₁ m err) m)).Calm := by
    rw [hfail]
    exact calm
  obtain ⟨h2, fdone, bare, awake, sound, heq⟩ := reqDoneFirst_goes h1.good hkind hcalm
  unfold failQueued
  dsimp only
  rw [hown']
  refine ⟨h1.trans h2, ?_⟩
  rw [heq, hfail]
  exact ⟨rfl, rfl, rfl, rfl, rfl, List.Sublist.refl _⟩

/-- A request that no client waits for is given back. -/
theorem dropQueued_goes (h : Fine env a now w hold p) (queued : (ledger p).InServer s m)
    (closing : (ledger p).closing s = true) (hleave : ledger p₁ = (ledger p).leave s m)
    (either : (ledger p).swallow m = true ∨ (ledger p).noreply m = true) :
    Goes env a now w hold p (reqPut now p₁ .dropped m) ∧
      Unmoved ((ledger p).leave s m) (ledger (reqPut now p₁ .dropped m)) := by
  have hput := ledger_reqPut now p₁ m .dropped
  rw [hleave] at hput
  refine ⟨(Goes.refl h).step ?_, ?_⟩
  · rw [hput]
    exact Move.drop queued closing either
  · rw [hput]
    exact ⟨rfl, rfl, rfl, rfl, rfl, Ledger.put_tmo _ m⟩

/-! ### The queues -/

theorem closeIn_goes (err : ℕ) (ms : List ℕ) (h : Fine env a now w hold p)
    (kind : (ledger p).kind s = .server) (closing : (ledger p).closing s = true)
    (hw : ∀ c, w.leaving c → c = s) (hin : (ledger p).inQ s = ms) :
    Goes env a now w hold p (closeIn env now s err p ms) ∧
      (ledger (closeIn env now s err p ms)).inQ s = [] ∧
      (ledger (closeIn env now s err p ms)).kind = (ledger p).kind ∧
      (ledger (closeIn env now s err p ms)).closing = (ledger p).closing ∧
      (ledger (closeIn env now s err p ms)).rmsg = (ledger p).rmsg ∧
      (ledger (closeIn env now s err p ms)).tmo.Sublist (ledger p).tmo ∧
      (∀ d, d ≠ s → (ledger (closeIn env now s err p ms)).outQ d = (ledger p).outQ d) := by
  induction ms generalizing p with
  | nil => exact ⟨Goes.refl h, hin, rfl, rfl, rfl, List.Sublist.refl _, fun _ _ => rfl⟩
  | cons m ms ih =>
    have queued : (ledger p).InServer s m := ⟨kind, .inl (by simp [hin])⟩
    have hout : m ∉ (ledger p).outQ s := by
      have := h.queues.nodup s
      rw [hin] at this
      exact fun hm => (List.nodup_cons.1 this).1 (List.mem_append_right _ hm)
    have hleave := ledger_dequeueIn p s m hout
    -- whatever happens to the request, it has left the queues
    have hnext : ∀ p', Goes env a now w hold p p' ∧ Unmoved ((ledger p).leave s m) (ledger p') →
        Goes env a now w hold p (closeIn env now s err p' ms) ∧
          (ledger (closeIn env now s err p' ms)).inQ s = [] ∧
          (ledger (closeIn env now s err p' ms)).kind = (ledger p).kind ∧
          (ledger (closeIn env now s err p' ms)).closing = (ledger p).closing ∧
          (ledger (closeIn env now s err p' ms)).rmsg = (ledger p).rmsg ∧
          (ledger (closeIn env now s err p' ms)).tmo.Sublist (ledger p).tmo ∧
          (∀ d, d ≠ s → (ledger (closeIn env now s err p' ms)).outQ d = (ledger p).outQ d) := by
      rintro p' ⟨hgo, hst⟩
      have hin' : (ledger p').inQ s = ms := by
        rw [hst.inQ]
        exact (Function.update_self s _ _).trans (by rw [hin, List.erase_cons_head])
      obtain ⟨h1, h2, h3, h4, h5, h6, h7⟩ := ih hgo.good (by rw [hst.kind]; exact kind)
        (by rw [hst.closing]; exact closing) hin'
      refine ⟨hgo.trans h1, h2, h3.trans hst.kind, h4.trans hst.closing, h5.trans hst.rmsg,
        h6.trans (hst.tmo.trans (Ledger.leave_tmo _ s m)), fun d hd => (h7 d hd).trans ?_⟩
      rw [hst.outQ]
      exact Function.update_of_ne hd _ _
    unfold closeIn
    dsimp only
    split
    · rename_i hsw
      refine hnext _ (dropQueued_goes h queued closing hleave ?_)
      exact Bool.or_eq_true_iff.1 hsw
    · rename_i hsw
      rw [Bool.or_eq_true, not_or, Bool.not_eq_true, Bool.not_eq_true] at hsw
      exact hnext _ (failQueued_goes h queued closing hw hleave hsw.1 hsw.2 err)

theorem closeOut_goes (err : ℕ) (ms : List ℕ) (h : Fine env a now w hold p)
    (kind : (ledger p).kind s = .server) (closing : (ledger p).closing s = true)
    (hw : ∀ c, w.leaving c → c = s) (hin : (ledger p).inQ s = []) (hout : (ledger p).outQ s = ms) :
    Goes env a now w hold p (closeOut env now s err p ms) ∧
      (ledger (closeOut env now s err p ms)).inQ s = [] ∧
      (ledger (closeOut env now s err p ms)).outQ s = [] ∧
      (ledger (closeOut env now s err p ms)).kind = (ledger p).kind ∧
      (ledger (closeOut env now s err p ms)).closing = (ledger p).closing ∧
      (ledger (closeOut env now s err p ms)).rmsg = (ledger p).rmsg ∧
      (ledger (closeOut env now s err p ms)).tmo.Sublist (ledger p).tmo ∧
      (∀ d, d ≠ s → (ledger (closeOut env now s err p ms)).outQ d = (ledger p).outQ d) := by
  induction ms generalizing p with
  | nil => exact ⟨Goes.refl h, hin, hout, rfl, rfl, rfl, List.Sublist.refl _, fun _ _ => rfl⟩
  | cons m ms ih =>
    have hm : m ∈ (ledger p).outQ s := by simp [hout]
    have queued : (ledger p).InServer s m := ⟨kind, .inr hm⟩
    have hleave := ledger_reqServerDequeueOmsgq p s m hm (by simp [hin])
    have hnext : ∀ p', Goes env a now w hold p p' ∧ Unmoved ((ledger p).leave s m) (ledger p') →
        Goes env a now w hold p (closeOut env now s err p' ms) ∧
          (ledger (closeOut env now s err p' ms)).inQ s = [] ∧
          (ledger (closeOut env now s err p' ms)).outQ s = [] ∧
          (ledger (closeOut env now s err p' ms)).kind = (ledger p).kind ∧
          (ledger (closeOut env now s err p' ms)).closing = (ledger p).closing ∧
          (ledger (closeOut env now s err p' ms)).rmsg = (ledger p).rmsg ∧
          (ledger (closeOut env now s err p' ms)).tmo.Sublist (ledger p).tmo ∧
          (∀ d, d ≠ s → (ledger (closeOut env now s err p' ms)).outQ d = (ledger p).outQ d) := by
      rintro p' ⟨hgo, hst⟩
      have hin' : (ledger p').inQ s = [] := by
        rw [hst.inQ]
        exact (Function.update_self s _ _).trans (by rw [hin]; rfl)
      have hout' : (ledger p').outQ s = ms := by
        rw [hst.outQ]
        exact (Function.update_self s _ _).trans (by rw [hout, List.erase_cons_head])
      obtain ⟨h1, h2, h2', h3, h4, h5, h6, h7⟩ := ih hgo.good (by rw [hst.kind]; exact kind)
        (by rw [hst.closing]; exact closing) hin' hout'
      refine ⟨hgo.trans h1, h2, h2', h3.trans hst.kind, h4.trans hst.closing, h5.trans hst.rmsg,
        h6.trans (hst.tmo.trans (Ledger.leave_tmo _ s m)), fun d hd => (h7 d hd).trans ?_⟩
      rw [hst.outQ]
      exact Function.update_of_ne hd _ _
    unfold closeOut
    dsimp only
    split
    · rename_i hsw
      exact hnext _ (dropQueued_goes h queued closing hleave (.inl hsw))
    · rename_i hsw
      exact hnext _ (failQueued_goes h queued closing hw hleave (eq_false_of_ne_true hsw)
        (h.queues.awaited s m kind hm) err)

/-! ### `server_close` -/

/-- The connection `s` is being closed. -/
def Work.close (w : Work) (s : ℕ) : Work := { w with leaving := fun d => d = s }

/-- No connection is being closed. -/
def Work.open (w : Work) : Work := { w with leaving := fun _ => False }

theorem Settled.close {b : Ledger} (h : Settled (modeOf env a now w) b)
    (hw : ∀ c, w.leaving c → c = s) : Settled (modeOf env a now (w.close s)) b where
  opened := fun c hc => (h.opened c hc).imp_right (hw c)
  smsg := h.smsg
  awake := h.awake

theorem Settled.open {b : Ledger} (h : Settled (modeOf env a now w) b)
    (hw : ∀ c, w.leaving c → b.kind c = .closed) : Settled (modeOf env a now w.open) b where
  opened := fun c hc => .inl ((h.opened c hc).elim id (hw c))
  smsg := h.smsg
  awake := h.awake

/-- **`server_close`**: the queues are emptied, and the connection is closed. -/
theorem serverClose_goes (h : Fine env a now w hold p) (kind : (ledger p).kind s = .server)
    (hw : ∀ c, w.leaving c → c = s) :
    Goes env a now w.open hold p (serverClose env now p s) ∧
      (∀ d, d ≠ s → (ledger (serverClose env now p s)).outQ d = (ledger p).outQ d) ∧
      (∀ d, d ≠ s → (ledger (serverClose env now p s)).kind d = (ledger p).kind d) ∧
      (ledger (serverClose env now p s)).kind s = .closed ∧
      (ledger (serverClose env now p s)).rmsg = (ledger p).rmsg ∧
      (ledger (serverClose env now p s)).tmo.Sublist (ledger p).tmo := by
  have hnote : ledger (noteClosing p s) =
      { ledger p with closing := update (ledger p).closing s true } := rfl
  have hclose : (ledger (noteClosing p s)).closing s = true := Function.update_self ..
  have h1 : Goes env a now (w.close s) hold p (noteClosing p s) := by
    refine (Goes.refl (h.retag (h.settled.close hw))).step ?_
    rw [hnote]
    exact Move.closing rfl
  obtain ⟨h2, hin, hk2, hc2, hr2, ht2, ho2⟩ := closeIn_goes (s := s) ((noteClosing p s).conns s).err
    ((noteClosing p s).inQ s) h1.good kind hclose (fun _ h => h) rfl
  set p₂ := closeIn env now s ((noteClosing p s).conns s).err (noteClosing p s)
    ((noteClosing p s).inQ s) with hp₂
  obtain ⟨h3, hin3, hout3, hk3, hc3, hr3, ht3, ho3⟩ := closeOut_goes (s := s) (p₂.conns s).err
    (p₂.outQ s) h2.good (by rw [hk2]; exact kind) (by rw [hc2]; exact hclose) (fun _ h => h) hin rfl
  set p₃ := closeOut env now s (p₂.conns s).err p₂ (p₂.outQ s) with hp₃
  have hres : serverClose env now p s = p₃.setConn s fun k => { k with kind := .closed } := rfl
  have hkind := ledger_setKind p₃ s .closed
  rw [hres]
  have hrmsg : (ledger p₃).rmsg s = none := by
    rw [hr3, hr2]
    by_contra hr
    obtain ⟨m, hm⟩ := Option.ne_none_iff_exists'.1 hr
    have := (h.waiting.reading s m hm).2.2.2.1
    simp [kind] at this
  have h4 : Goes env a now (w.close s) hold p
      (p₃.setConn s fun k => { k with kind := .closed }) := by
    refine ((h1.trans h2).trans h3).step ?_
    rw [hkind]
    refine Move.shut hin3 hout3 hrmsg ?_
    rw [hc3, hc2]
    exact hclose
  refine ⟨⟨h4.good.retag (h4.good.settled.open ?_), h4.kept⟩, fun d hd => ?_, fun d hd => ?_, ?_,
    ?_, ?_⟩
  · rintro c rfl
    rw [hkind]
    exact Function.update_self ..
  · rw [hkind]
    exact (ho3 d hd).trans (ho2 d hd)
  · rw [hkind]
    refine (Function.update_of_ne hd _ _).trans ?_
    rw [hk3, hk2]
    rfl
  · rw [hkind]
    exact Function.update_self ..
  · rw [hkind]
    exact hr3.trans hr2
  · rw [hkind]
    exact ht3.trans ht2

/-! ### `req_forward_error` -/

/-- **A request that cannot be forwarded** is in error; if its client waits for it, the client is
looked at. -/
theorem reqForwardError_goes (h : Fine env a now w hold p) (unsent : (ledger p).Unsent m)
    (apart : Apart hold (ledger p) m) (owner : (ledger p).fragOwner m ≠ some m)
    (kind : (ledger p).kind c = .client) (calm : (ledger p).Calm)
    (home : (ledger p).noreply m = true ∧ (∀ c, m ∉ (ledger p).outQ c) ∨
      (ledger p).noreply m = false ∧ (ledger p).owner m = some c) (err : ℕ) :
    Goes env a now w hold p (reqForwardError env now p c m err) ∧
      Unmoved (ledger p) (ledger (reqForwardError env now p c m err)) := by
  have hfail : ledger ((setFailed p m err).note fun h =>
        { h with failed := update h.failed m true }) =
      { ledger p with
        done := update (ledger p).done m true
        fault := update (ledger p).fault m true
        failed := update (ledger p).failed m true } :=
    congrArg (fun b : Ledger => ({ b with failed := update b.failed m true } : Ledger))
      (ledger_setFailed p m err)
  set p₁ := (setFailed p m err).note fun h => { h with failed := update h.failed m true }
  have hnr : (p₁.msgs m).noreply = (ledger p).noreply m :=
    congrFun (congrArg Ledger.noreply hfail) m
  unfold reqForwardError
  dsimp only
  rcases home with ⟨hn, hout⟩ | ⟨hn, hown⟩
  · rw [if_pos (hnr.trans hn)]
    have hput := ledger_reqPut now p₁ m .unforwarded
    have h1 : Goes env a now w hold p p₁ := by
      refine (Goes.refl h).step ?_
      rw [hfail]
      exact Move.unforwarded unsent apart owner fun d hd => absurd hd.2 (hout d)
    refine ⟨h1.step ?_, ?_⟩
    · rw [hput, hfail]
      exact Move.put .unforwarded unsent.live unsent.request apart unsent.peer unsent.inQ hout
        (by simp)
    · rw [hput, hfail]
      exact ⟨rfl, rfl, rfl, rfl, rfl, Ledger.put_tmo _ m⟩
  · rw [if_neg (by rw [hnr, hn]; simp)]
    have h1 : Goes env a now (w.also c) hold p p₁ := by
      refine (Goes.refl (h.also c)).step ?_
      rw [hfail]
      refine Move.unforwarded unsent apart owner fun d hd => .inl ?_
      exact Option.some.inj ((h.queues.client d m hd).2.2.1.symm.trans hown)
    obtain ⟨h2, fdone, bare, awake, sound, heq⟩ := reqDoneFirst_goes (c := c) h1.good
      (by rw [hfail]; exact kind) (by rw [hfail]; exact calm)
    refine ⟨h1.trans h2, ?_⟩
    rw [heq, hfail]
    exact ⟨rfl, rfl, rfl, rfl, rfl, List.Sublist.refl _⟩

end CacheProxy
