/-
**Handlers as moves: replies, closed clients and reads.**

A reply is linked to the first request that waits for one on its connection, swallowed together
with a request whose client is gone, or thrown away; then the connection is closed.  A client that
closes gives back its requests that are done and leaves the others to be swallowed.  A read goes
through the requests it completes.

Main results:

* `serverReply_goes` — a reply;
* `clientClose_goes` — closing a client;
* `clientRead_goes`, `clientEof_goes` — reading from a client.
-/

import CacheProxy.RefineForward

namespace CacheProxy

open Function (update)
open Ledger

variable {κ ι : Type} {env : Env κ ι} {a : Assumed} {now : ℕ} {w : Work} {hold : ℕ → Prop}
  {p p' : Proxy κ} {b b' : Ledger} {c m r s o : ℕ}

/-! ### Replies -/

/-- The reply of a fragment is looked at. -/
theorem coalescePart_goes (h : Fine env a now w (fun _ => False) p)
    (hr : (ledger p).request r = false) (ho : ∀ t, o ∉ (ledger p).inQ t)
    (hm : (ledger p).done m = true) :
    Goes env a now w (fun _ => False) p (coalescePart env p m r o) ∧
      ∃ bare fault : ℕ → Bool, ledger (coalescePart env p m r o) =
        { ledger p with bare := bare, fault := fault } := by
  unfold coalescePart
  dsimp only
  generalize env.preCoalesce (p.msgs m).con (p.msgs r).con (p.msgs o).con = x
  have h1 := ledger_setContent p r fun _ => x.1
  have h2 := ledger_setContent (p.setMsg r fun q => { q with con := x.1 }) o fun _ => x.2.1
  rw [h1] at h2
  -- neither the response nor the owner of the fragments waits for a server
  have hgo : Goes env a now w (fun _ => False) p
    ((p.setMsg r fun q => { q with con := x.1 }).setMsg o
      fun q => { q with con := x.2.1 }) := by
    refine (Goes.refl h).step ?_
    rw [h2]
    refine Move.idle _ _ _ (fun t k hk => ?_) (fun _ hf => hf.elim) (fun _ h => h)
      (fun _ h => .inl h) fun _ _ h => h
    have hko : k ≠ o := fun he => ho t (he ▸ hk)
    have hkr : k ≠ r := by
      rintro rfl
      have ht : (ledger p).kind t = .server := by
        by_contra ht
        simp [h.queues.inEmpty t ht] at hk
      simp [(h.queues.server t k ⟨ht, .inl hk⟩).2.1] at hr
    exact (Function.update_of_ne hko _ _).trans (Function.update_of_ne hkr _ _)
  split
  · have h3 := ledger_setError ((p.setMsg r fun q => { q with con := x.1 }).setMsg o
      fun q => { q with con := x.2.1 }) m EINVAL
    rw [h2] at h3
    refine ⟨hgo.step ?_, _, _, h3⟩
    · rw [h3, h2]
      refine Move.idle _ _ _ (fun _ _ _ => rfl) (fun _ hf => hf.elim) (fun k hk => ?_)
        (fun k hk => ?_)
        fun _ _ h => h
      · by_cases hkm : k = m
        · exact hkm ▸ Function.update_self ..
        · exact (Function.update_of_ne hkm _ _).trans hk
      · by_cases hkm : k = m
        · exact .inr (hkm ▸ hm)
        · exact .inl ((Function.update_of_ne hkm _ _).symm.trans hk)
  · exact ⟨hgo, _, (ledger p).fault, h2⟩

/-- **The reply to a request that its client waits for.** -/
theorem rspForward_goes {rest : List ℕ} (h : Fine env a now {} (fun _ => False) p)
    (kind : (ledger p).kind s = .server) (first : (ledger p).outQ s = m :: rest)
    (swallow : (ledger p).swallow m = false) (con : Content κ) :
    Goes env a now {} (fun _ => False) p
        (rspForward env now (getAnswer env now p s con) s m p.nextMsg) ∧
      (ledger (rspForward env now (getAnswer env now p s con) s m p.nextMsg)).kind s = .server := by
  have closing := h.closing (s := s) (by simp [kind])
  have mute : (ledger p).mute s = false := by
    by_contra hm
    rcases h.settled.opened s (.inr (by simpa using hm)) with hk | hl
    · simp [kind] at hk
    · exact hl
  have hmem : m ∈ (ledger p).outQ s := by simp [first]
  have queued : (ledger p).InServer s m := ⟨kind, .inr hmem⟩
  obtain ⟨hlive, hreq, hdone, hpeer⟩ := h.queues.server s m queued
  have hin : m ∉ (ledger p).inQ s := fun hi =>
    (List.disjoint_of_nodup_append (h.queues.nodup s)) hi hmem
  obtain ⟨c, hown, hc⟩ := h.queues.home s m queued swallow (h.queues.awaited s m kind hmem)
  have calm : (ledger p).Calm := h.calm fun _ hl => hl.elim
  have hatt := ledger_attach env now p s m con hmem hin
  have hne : m ≠ p.nextMsg := hlive.1.ne
  set q := attach now (getAnswer env now p s con) s m p.nextMsg with hq
  have h1 : Goes env a now (Work.also {} c) (fun _ => False) p (bumpOwner q m) := by
    refine (Goes.refl (h.also c)).step ?_
    rw [hatt]
    refine Move.answer _ _ kind closing mute first swallow calm fun d hd => .inl ?_
    exact Option.some.inj (hd.symm.trans hown)
  have hkind : (ledger (bumpOwner q m)).kind = (ledger p).kind := by rw [hatt]; rfl
  have hfo : ((bumpOwner q m).msgs m).fragOwner = (ledger p).fragOwner m := by
    have := congrFun (congrArg Ledger.fragOwner hatt) m
    exact this.trans (Function.update_of_ne hne _ _)
  have hown1 : (ledger (bumpOwner q m)).owner m = some c := by
    have := congrFun (congrArg Ledger.owner hatt) m
    exact (this.trans (Function.update_of_ne hne _ _)).trans hown
  -- what is left is done to the contents
  have h2 : ∃ bare fault : ℕ → Bool, Goes env a now (Work.also {} c) (fun _ => False) p
        (preCoalesce env q m p.nextMsg) ∧
      ledger (preCoalesce env q m p.nextMsg) =
        { ledger (bumpOwner q m) with bare := bare, fault := fault } := by
    have hqm : (q.msgs m).fragOwner = (ledger p).fragOwner m := by
      rw [← hfo]
      unfold bumpOwner
      cases hf : (q.msgs m).fragOwner with
      | none => exact hf.symm
      | some x =>
        dsimp only [noteDeref, Proxy.setMsg, Proxy.note]
        by_cases hmx : m = x
        · subst hmx
          rw [Function.update_self]
          exact hf.symm
        · rw [Function.update_of_ne hmx]
          exact hf.symm
    have hqid : (q.msgs m).fragId = 0 ↔ (ledger p).fragOwner m = none := by
      rw [← h.groups.zero m]
      have := congrFun (congrArg Ledger.fragId hatt) m
      have hid : ((bumpOwner q m).msgs m).fragId = (ledger p).fragId m :=
        this.trans (Function.update_of_ne hne _ _)
      rw [← hid]
      unfold bumpOwner
      cases (q.msgs m).fragOwner with
      | none => exact Iff.rfl
      | some x =>
        dsimp only [noteDeref, Proxy.setMsg, Proxy.note]
        by_cases hmx : m = x
        · subst hmx
          rw [Function.update_self]
        · rw [Function.update_of_ne hmx]
    unfold preCoalesce
    cases ho : (ledger p).fragOwner m with
    | none =>
      rw [if_pos (hqid.2 ho)]
      have hbump : bumpOwner q m = q := by
        unfold bumpOwner
        rw [hqm, ho]
      rw [hbump] at h1 ⊢
      exact ⟨_, _, h1, rfl⟩
    | some o =>
      rw [if_neg (fun he => by simp [hqid.1 he] at ho)]
      dsimp only
      rw [hfo, ho]
      dsimp only
      have hfd : (ledger p).fdone m = false := by
        by_contra hf
        simp [h.parts.fdone_done m (by simpa using hf)] at hdone
      have hmo : o ∈ (ledger p).outQ c := h.parts.behind c m o hc ho hfd (calm c hc.1)
      have hodone := h.parts.ownerDone c o ⟨hc.1, hmo⟩ (h.groups.owner m o ho).1
      have hoin : ∀ t, o ∉ (ledger p).inQ t := by
        intro t ht
        have htk : (ledger p).kind t = .server := by
          by_contra htk
          simp [h.queues.inEmpty t htk] at ht
        simp [(h.queues.server t o ⟨htk, .inl ht⟩).2.2.1] at hodone
      obtain ⟨h3, bare, fault, heq⟩ := coalescePart_goes (m := m) (o := o)
        (r := p.nextMsg) h1.good
        (by rw [hatt]; exact Function.update_self ..)
        (fun t ht => by
          rw [hatt] at ht
          have ht' : o ∈ update (ledger p).inQ s (((ledger p).inQ s).erase m) t := ht
          by_cases hts : t = s
          · subst hts
            rw [Function.update_self] at ht'
            exact hoin t (List.mem_of_mem_erase ht')
          · rw [Function.update_of_ne hts] at ht'
            exact hoin t ht')
        (by rw [hatt]; exact Function.update_self ..)
      exact ⟨bare, fault, h1.trans h3, heq⟩
  obtain ⟨bare, fault, h2, heq⟩ := h2
  have hown2 : ((preCoalesce env q m p.nextMsg).msgs m).owner = some c := by
    have := congrFun (congrArg Ledger.owner heq) m
    exact this.trans hown1
  obtain ⟨h3, fdone, bare', awake, sound, heq'⟩ := reqDoneFirst_goes (c := c) h2.good
    (by rw [heq]; exact (congrFun hkind c).trans hc.1) (h2.good.calm fun _ hl => hl.elim)
  unfold rspForward
  dsimp only
  rw [← hq, hown2]
  refine ⟨h2.trans h3, ?_⟩
  rw [heq', heq]
  exact (congrFun hkind s).trans kind

/-- **A reply**: if it is thrown away, the connection is in error. -/
theorem serverReply_goes (h : Fine env a now {} (fun _ => False) p)
    (kind : (ledger p).kind s = .server) (con : Content κ) (ample : a.ample → con.mlen ≠ 0) :
    (Goes env a now {} (fun _ => False) p (serverReply env now p s con) ∨
      Goes env a now (Work.close {} s) (fun _ => False) p (serverReply env now p s con) ∧
        ((serverReply env now p s con).conns s).err ≠ 0) ∧
      (ledger (serverReply env now p s con)).kind s = .server := by
  have hr : ((getAnswer env now p s con).msgs p.nextMsg).con = con :=
    congrArg Msg.con (Function.update_self (f := p.msgs) ..)
  have hout : (getAnswer env now p s con).outQ s = (ledger p).outQ s := rfl
  have hdrop : (Goes env a now {} (fun _ => False) p
        (dropReply (getAnswer env now p s con) s p.nextMsg) ∨
      Goes env a now (Work.close {} s) (fun _ => False) p
          (dropReply (getAnswer env now p s con) s p.nextMsg) ∧
        ((dropReply (getAnswer env now p s con) s p.nextMsg).conns s).err ≠ 0) ∧
      (ledger (dropReply (getAnswer env now p s con) s p.nextMsg)).kind s = .server := by
    have heq := ledger_dropReply env now p s con
    refine ⟨.inr ⟨?_, ?_⟩, by rw [heq]; exact kind⟩
    · have h1 : Fine env a now (Work.close {} s) (fun _ => False) p :=
        h.retag (h.settled.close fun _ hl => hl.elim)
      have hmove : Move (modeOf env a now (Work.close {} s)) (fun _ => False) (ledger p) _ :=
        Move.lose (s := s) (con.mlen == 0) true (freshTimes env p) kind (fun _ => rfl) fun _ => rfl
      have h2 := h1.move hmove
      have hidle : Move (modeOf env a now (Work.close {} s)) (fun _ => False)
          { (((ledger p).reply s (con.mlen == 0)).free p.nextMsg).start p.nextMsg now
            (freshTimes env p) with mute := update (ledger p).mute s ((ledger p).mute s || true) }
            _ :=
        Move.idle _ _ (update (ledger p).awake s true) (fun _ _ _ => rfl) (fun _ hf => hf.elim)
          (fun _ h => h)
        (fun _ h => .inl h) fun d hk hd => by
          have hds : d ≠ s := by
            rintro rfl
            simp [show (ledger p).kind d = .client from hk] at kind
          exact (Function.update_of_ne hds _ _).trans hd
      refine ⟨?_, ?_⟩
      · rw [Fine, heq]
        exact h2.move hidle
      · rw [heq]
        exact (h1.kept hmove).trans (h2.kept hidle)
    · simp [dropReply, Proxy.note, Proxy.setConn, EINVAL]
  unfold serverReply rspRecvDone
  rw [hr]
  by_cases hlen : con.mlen = 0
  · rw [if_pos hlen]
    have heq := ledger_emptyReply env now p s con
    refine ⟨.inl ((Goes.refl h).step ?_), by rw [heq]; exact kind⟩
    rw [heq]
    exact Move.lose _ _ _ kind (fun ha => absurd hlen (ample ha)) (by simp)
  rw [if_neg hlen, hout]
  cases hq : (ledger p).outQ s with
  | nil => exact hdrop
  | cons m =>
    dsimp only [List.head?_cons]
    split
    · exact hdrop
    have hmem : m ∈ (ledger p).outQ s := by simp [hq]
    obtain ⟨hlive, -, -, hpeer⟩ := h.queues.server s m ⟨kind, .inr hmem⟩
    have hsw : ((getAnswer env now p s con).msgs m).swallow = (ledger p).swallow m :=
      congrArg Msg.swallow (Function.update_of_ne hlive.1.ne _ _)
    rw [hsw]
    split
    · rename_i hs
      have hin : m ∉ (ledger p).inQ s := fun hi =>
        (List.disjoint_of_nodup_append (h.queues.nodup s)) hi hmem
      have heq := ledger_swallowReply env now p s m con hmem hin hlive.1 hpeer
      have mute : (ledger p).mute s = false := by
        by_contra hm
        rcases h.settled.opened s (.inr (by simpa using hm)) with hk | hl
        · simp [kind] at hk
        · exact hl
      refine ⟨.inl ((Goes.refl h).step ?_), by rw [heq]; exact kind⟩
      rw [heq]
      exact Move.swallowReply _ _ kind (h.closing (by simp [kind])) mute hq hs
    · rename_i hs
      obtain ⟨h1, hk⟩ := rspForward_goes h kind hq (by simpa using hs) con
      exact ⟨.inl h1, hk⟩

/-! ### Closing a client -/

/-- The request that is being received is given back. -/
theorem discardPartial_goes (h : Fine env a now w (fun _ => False) p) (c : ℕ) :
    Goes env a now w (fun _ => False) p (discardPartial now p c) ∧
      (ledger (discardPartial now p c)).rmsg c = none ∧
      (ledger (discardPartial now p c)).outQ = (ledger p).outQ ∧
      (ledger (discardPartial now p c)).kind = (ledger p).kind ∧
      (ledger (discardPartial now p c)).closing = (ledger p).closing := by
  unfold discardPartial
  cases hr : (p.conns c).rmsg with
  | none => exact ⟨Goes.refl h, hr, rfl, rfl, rfl⟩
  | some m =>
    dsimp only
    have hset := ledger_setRmsg p c none
    obtain ⟨hloose, -⟩ := h.waiting.reading c m hr
    have h1 : Goes env a now w (fun _ => False) p
      (p.setConn c fun k => { k with rmsg := none }) := by
      refine (Goes.refl h).step ?_
      rw [hset]
      exact Move.unread c
    have hput := ledger_reqPut now (p.setConn c fun k => { k with rmsg := none }) m .incomplete
    -- a message is read into on one connection only
    have hone : ∀ d, update (ledger p).rmsg c none d ≠ some m := by
      intro d hd
      by_cases hdc : d = c
      · simp [hdc] at hd
      · rw [Function.update_of_ne hdc] at hd
        have h1 := (h.waiting.reading d m hd).2.2.2.2.1
        have h2 := (h.waiting.reading c m hr).2.2.2.2.1
        exact hdc (Option.some.inj (h1.symm.trans h2))
    have hu := hloose.1
    refine ⟨h1.step ?_, ?_, ?_, ?_, ?_⟩
    · rw [hput, hset]
      exact Move.put .incomplete hu.live hu.request ⟨id, hone⟩ hu.peer hu.inQ hloose.2 (by simp)
    all_goals rw [hput, hset]
    · exact Function.update_self ..
    all_goals rfl

theorem discardOut_goes (ms : List ℕ) (h : Fine env a now w (fun _ => False) p)
    (kind : (ledger p).kind c = .client) (closing : (ledger p).closing c = true) (busy : w.busy c)
    (hout : (ledger p).outQ c = ms) :
    Goes env a now w (fun _ => False) p (discardOut now c p ms) ∧
      (ledger (discardOut now c p ms)).outQ c = [] ∧
      (ledger (discardOut now c p ms)).kind = (ledger p).kind ∧
      (ledger (discardOut now c p ms)).closing = (ledger p).closing ∧
      (ledger (discardOut now c p ms)).rmsg = (ledger p).rmsg := by
  induction ms generalizing p with
  | nil => exact ⟨Goes.refl h, hout, rfl, rfl, rfl⟩
  | cons m ms ih =>
    have queued : (ledger p).InClient c m := ⟨kind, by simp [hout]⟩
    have hretire := ledger_dequeueOut p c m
    have hnext : ∀ p', Goes env a now w (fun _ => False) p p' →
        Unmoved ((ledger p).retire c m) (ledger p') →
        Goes env a now w (fun _ => False) p (discardOut now c p' ms) ∧
          (ledger (discardOut now c p' ms)).outQ c = [] ∧
          (ledger (discardOut now c p' ms)).kind = (ledger p).kind ∧
          (ledger (discardOut now c p' ms)).closing = (ledger p).closing ∧
          (ledger (discardOut now c p' ms)).rmsg = (ledger p).rmsg := by
      intro p' hgo hst
      have hout' : (ledger p').outQ c = ms := by
        rw [hst.outQ]
        exact (Function.update_self c _ _).trans (by rw [hout, List.erase_cons_head])
      obtain ⟨h1, h2, h3, h4, h5⟩ := ih hgo.good (by rw [hst.kind]; exact kind)
        (by rw [hst.closing]; exact closing) hout'
      exact ⟨hgo.trans h1, h2, h3.trans hst.kind, h4.trans hst.closing, h5.trans hst.rmsg⟩
    unfold discardOut
    dsimp only
    split
    · rename_i hd
      have hput := ledger_reqPut now (p.dequeueOut c m) m .discarded
      rw [hretire] at hput
      refine hnext _ ((Goes.refl h).step ?_) ?_
      · rw [hput]
        exact Move.discard queued hd closing busy
      · rw [hput]
        exact ⟨rfl, rfl, rfl, rfl, rfl, Ledger.put_tmo _ m⟩
    · rename_i hd
      have hsw := ledger_setSwallow (p.dequeueOut c m) m
      rw [hretire] at hsw
      refine hnext _ ((Goes.refl h).step ?_) ?_
      · rw [hsw]
        exact Move.swallow queued (eq_false_of_ne_true hd) id closing busy
      · rw [hsw]
        exact ⟨rfl, rfl, rfl, rfl, rfl, List.Sublist.refl _⟩

/-- **`client_close`** -/
theorem clientClose_goes (h : Fine env a now w (fun _ => False) p)
    (kind : (ledger p).kind c = .client) (hw : ∀ d, w.leaving d → d = c)
    (hb : ∀ d, w.busy d → d = c) :
    Goes env a now { w with busy := fun _ => False, leaving := fun _ => False } (fun _ => False) p
      (clientClose now p c) := by
  have hs : Settled (modeOf env a now ((w.close c).also c)) (ledger p) :=
    Settled.also (h.settled.close hw) c
  have h1 : Goes env a now ((w.close c).also c) (fun _ => False) p (noteClosing p c) :=
    (Goes.refl (h.retag hs)).step (Move.closing rfl)
  have hclose : (ledger (noteClosing p c)).closing c = true := Function.update_self ..
  obtain ⟨h2, hr2, ho2, hk2, hc2⟩ := discardPartial_goes h1.good c
  set p₂ := discardPartial now (noteClosing p c) c
  obtain ⟨h3, ho3, hk3, hc3, hr3⟩ := discardOut_goes (c := c) (p₂.outQ c) h2.good
    (by rw [hk2]; exact kind) (by rw [hc2]; exact hclose) (.inl rfl) rfl
  set p₃ := discardOut now c p₂ (p₂.outQ c)
  have hkind := ledger_setKind p₃ c .closed
  have h4 : Goes env a now ((w.close c).also c) (fun _ => False) p
    (p₃.setConn c fun k => { k with kind := .closed }) := by
    refine ((h1.trans h2).trans h3).step ?_
    rw [hkind]
    refine Move.shut (h3.good.queues.inEmpty c ?_) ho3 (by rw [hr3]; exact hr2) ?_
    · rw [hk3, hk2]
      simp [show (ledger (noteClosing p c)).kind c = .client from kind]
    · rw [hc3, hc2]
      exact hclose
  have hres : clientClose now p c = p₃.setConn c fun k => { k with kind := .closed } := rfl
  rw [hres]
  have hclosed : (ledger (p₃.setConn c fun k => { k with kind := .closed })).kind c = .closed := by
    rw [hkind]
    exact Function.update_self ..
  refine ⟨h4.good.retag ⟨fun d hd => .inl ?_, h4.good.settled.smsg, fun d hk hr => .inl ?_⟩,
    h4.kept⟩
  · rcases h4.good.settled.opened d hd with hk | rfl
    · exact hk
    · exact hclosed
  · rcases h4.good.settled.awake d hk hr with ha | hd
    · exact ha
    · have hdc : d = c := hd.elim id (hb d)
      rw [hdc, hclosed] at hk
      cases hk

/-! ### Reading -/

/-- Flags of a connection that the ledger does not see. -/
theorem ledger_flag (p : Proxy κ) (c : ℕ) {f : Conn → Conn}
    (h : (f (p.conns c)) =
      { p.conns c with eof := (f (p.conns c)).eof, done := (f (p.conns c)).done }) :
    ledger (p.setConn c f) = ledger p := by
  rw [ledger_setFlags p c (f := f) (by rw [h]; exact ⟨rfl, rfl, rfl, rfl, rfl, rfl, rfl⟩)]
  have : ((f (p.conns c)).sendActive || (f (p.conns c)).err != 0) = (ledger p).awake c := by
    rw [h]
    rfl
  rw [this, Function.update_eq_self]

theorem reqRecvEof_goes (h : Fine env a now w (fun _ => False) p) (c : ℕ) :
    Goes env a now w (fun _ => False) p (reqRecvEof now p c) ∧
      (ledger (reqRecvEof now p c)).kind = (ledger p).kind := by
  obtain ⟨h1, -, -, hk, -⟩ := discardPartial_goes h c
  unfold reqRecvEof
  dsimp only
  split
  · have heq := ledger_flag (discardPartial now p c) c (f := fun k => { k with done := true }) rfl
    exact ⟨h1.same heq, by rw [heq]; exact hk⟩
  · exact ⟨h1, hk⟩

/-- The message that is read into. -/
theorem reqRecvNext_goes (h : Fine env a now w (fun _ => False) p)
    (client : (ledger p).kind c = .client) :
    Goes env a now w (fun _ => False) p (reqRecvNext env now p c).1 ∧
      (ledger (reqRecvNext env now p c).1).rmsg c = some (reqRecvNext env now p c).2 ∧
      (ledger (reqRecvNext env now p c).1).kind c = .client := by
  unfold reqRecvNext
  cases hr : (p.conns c).rmsg with
  | some => exact ⟨Goes.refl h, hr, client⟩
  | none =>
    have hget := ledger_reqGet env now p c
    dsimp only
    refine ⟨(Goes.refl h).step ?_, ?_, ?_⟩
    · rw [hget]
      exact Move.listen _ client
    · rw [hget]
      exact Function.update_self ..
    · rw [hget]
      exact client

theorem stampRead_goes (h : Fine env a now w (fun _ => False) p)
    (reading : (ledger p).rmsg c = some m) :
    Goes env a now w (fun _ => False) p (stampRead now p m) := by
  refine (Goes.refl h).step ?_
  rw [ledger_stampRead]
  exact Move.stamp reading

/-- The bytes behind the last request that is complete. -/
theorem setRest_goes (h : Fine env a now w (fun _ => False) p)
    (reading : (ledger p).rmsg c = some m)
    (con : Content κ) :
    Goes env a now w (fun _ => False) p (p.setMsg m fun q => { q with con := con }) ∧
      (ledger (p.setMsg m fun q => { q with con := con })).kind = (ledger p).kind := by
  have hset := ledger_setContent p m fun _ => con
  refine ⟨(Goes.refl h).step ?_, by rw [hset]⟩
  rw [hset]
  refine Move.idle _ _ _ (fun s k hk => Function.update_of_ne ?_ _ _) (fun _ hf => hf.elim)
    (fun _ h => h) (fun _ h => .inl h) fun _ _ h => h
  rintro rfl
  exact (h.waiting.reading c k reading).1.1.inQ s hk

/-- **A request is complete**: it is parsed, and the bytes behind it go into another message. -/
theorem splitNext_goes (h : Fine env a now w (fun _ => False) p)
    (client : (ledger p).kind c = .client) (reading : (ledger p).rmsg c = some m) (con : Content κ)
    (single : a.single → ((ledger p).times m).recvClient = now) (more : Bool) :
    Goes env a now w (fun _ => False) p (splitNext env now (setParsed env now p m con) c more) ∧
      Received a (ledger (splitNext env now (setParsed env now p m con) c more)) c m ∧
      (ledger (splitNext env now (setParsed env now p m con) c more)).kind c = .client ∧
      ((splitNext env now (setParsed env now p m con) c more).msgs m).con = con := by
  have hparse := ledger_setParsed env now p m con
  have h1 : Goes env a now w (fun _ => False) p (setParsed env now p m con) := by
    refine (Goes.refl h).step ?_
    rw [hparse]
    exact Move.parse _ _ reading
  have hcon : ((setParsed env now p m con).msgs m).con = con :=
    congrArg Msg.con (Function.update_self (f := p.msgs) ..)
  have hkind : (ledger (setParsed env now p m con)).kind c = .client := by rw [hparse]; exact client
  have hread : (ledger (setParsed env now p m con)).rmsg c = some m := by rw [hparse]; exact reading
  have htime : a.single → ((ledger (setParsed env now p m con)).times m).recvClient =
      (ledger (setParsed env now p m con)).arrival m := by
    intro hs
    rw [hparse]
    exact (single hs).trans (Function.update_self m now (ledger p).arrival).symm
  generalize setParsed env now p m con = q at *
  have hwait : Waits (fun _ => False) (ledger q) m := .inr ⟨c, hread⟩
  obtain ⟨hloose, -, hnew, -, howner, hwhole⟩ := h1.good.waiting.reading c m hread
  have hone : ∀ v, v ≠ some m → ∀ d, update (ledger q).rmsg c v d ≠ some m := by
    intro v hv d hd
    by_cases hdc : d = c
    · rw [hdc, Function.update_self] at hd
      exact hv hd
    · rw [Function.update_of_ne hdc] at hd
      have := (h1.good.waiting.reading d m hd).2.2.2.2.1
      exact hdc (Option.some.inj (this.symm.trans howner))
  have hlt : m < q.nextMsg := hloose.1.live.1
  -- what is left of the message after the move to the next one
  have hrec : ∀ q' : Proxy κ, Move (modeOf env a now w) (fun _ => False) (ledger q) (ledger q') →
      (∃ v, v ≠ some m ∧ (ledger q').rmsg = update (ledger q).rmsg c v) →
      (ledger q').times m = (ledger q).times m → (ledger q').arrival m = (ledger q).arrival m →
      Received a (ledger q') c m := by
    rintro q' hmove ⟨v, hv, hr⟩ ht ha
    have hf := hmove.fixed h1.good.queues h1.good.links h1.good.waiting hwait
    refine ⟨hf.loose hloose, by rw [hr]; exact hone v hv, hf.owner.trans howner,
      hf.fragOwner.trans hwhole, fun hc => hnew c ((hf.arrived c).1 hc), fun hs => ?_⟩
    rw [ht, ha]
    exact htime hs
  unfold splitNext
  split
  · have hget := ledger_reqGet env now q c
    have hmove : Move (modeOf env a now w) (fun _ => False) (ledger q)
        (ledger ((reqGet env now q c).setConn c fun k => { k with rmsg := some q.nextMsg })) := by
      rw [hget]
      exact Move.listen _ hkind
    refine ⟨h1.step hmove, hrec _ hmove ⟨some q.nextMsg, ?_, ?_⟩ ?_ ?_, ?_, ?_⟩
    · simpa using hlt.ne'
    · rw [hget]
    · rw [hget]
      exact Function.update_of_ne hlt.ne _ _
    · rw [hget]
      rfl
    · rw [hget]
      exact hkind
    · exact (congrArg Msg.con (Function.update_of_ne hlt.ne _ _)).trans hcon
  · have hset := ledger_setRmsg q c none
    have hmove : Move (modeOf env a now w) (fun _ => False) (ledger q)
        (ledger (q.setConn c fun k => { k with rmsg := none })) := by
      rw [hset]
      exact Move.unread c
    refine ⟨h1.step hmove, hrec _ hmove ⟨none, by simp, congrArg Ledger.rmsg hset⟩ ?_ ?_, ?_, hcon⟩
    · rw [hset]
    · rw [hset]
    · rw [hset]
      exact hkind

/-- **What is assumed of a request** that a client sends. -/
structure Incoming.Meets (env : Env κ ι) (a : Assumed) (x : Incoming κ ι) : Prop where
  splits : env.Splits a x.place x.con
  late : a.late → ∀ i s connecting addOut, x.routes i = .conn s connecting addOut →
    connecting = true

/-- **The loop over the requests of a read.** -/
theorem readLoop_goes (full : a.ample → env.Full) (rest : Option (Content κ))
    (reqs : List (Incoming κ ι)) (meets : ∀ x ∈ reqs, x.Meets env a)
    (h : Fine env a now {} (fun _ => False) p) (client : (ledger p).kind c = .client)
    (reading : (ledger p).rmsg c = some m)
    (single : a.single → reqs ≠ [] → reqs.length = 1 ∧ ((ledger p).times m).recvClient = now) :
    Goes env a now {} (fun _ => False) p (readLoop env now c rest p m reqs) ∧
      (ledger (readLoop env now c rest p m reqs)).kind c = .client := by
  induction reqs generalizing p m with
  | nil =>
    unfold readLoop
    cases rest with
    | none => exact ⟨Goes.refl h, client⟩
    | some con =>
      obtain ⟨h1, hk⟩ := setRest_goes h reading con
      exact ⟨h1, by rw [hk]; exact client⟩
  | cons x xs ih =>
    have hx := meets x List.mem_cons_self
    obtain ⟨h1, hrec, hk1, hcon⟩ := splitNext_goes h client reading x.con
      (fun hs => (single hs (by simp)).2) (!xs.isEmpty || rest.isSome)
    unfold readLoop
    dsimp only
    set p₁ := splitNext env now (setParsed env now p m x.con) c (!xs.isEmpty || rest.isSome)
    obtain ⟨h2, hk2, -⟩ := reqRecvDone_goes full x.place x.routes hx.late h1.good hk1 hrec
      (by rw [hcon]; exact hx.splits)
    set p₂ := reqRecvDone env now p₁ c m x.place x.routes
    have h12 := h1.trans h2
    split
    · exact ⟨h12, hk2⟩
    split
    · obtain ⟨h3, hk3⟩ := reqRecvEof_goes h2.good c
      exact ⟨h12.trans h3, by rw [hk3]; exact hk2⟩
    cases hr : (p₂.conns c).rmsg with
    | none => exact ⟨h12, hk2⟩
    | some =>
      obtain ⟨h3, hk3⟩ := ih (fun y hy => meets y (List.mem_cons_of_mem x hy)) h2.good hk2 hr
        fun hs hne => by
          have := (single hs (by simp)).1
          simp only [List.length_cons, Nat.add_eq_right, List.length_eq_zero_iff] at this
          exact absurd this hne
      exact ⟨h12.trans h3, hk3⟩

/-- **A read from a client.** -/
theorem clientRead_goes (full : a.ample → env.Full) (rest : Option (Content κ))
    (reqs : List (Incoming κ ι)) (meets : ∀ x ∈ reqs, x.Meets env a)
    (single : a.single → reqs.length ≤ 1)
    (h : Fine env a now {} (fun _ => False) p) (client : (ledger p).kind c = .client) :
    Goes env a now {} (fun _ => False) p (clientRead env now p c reqs rest) ∧
      (ledger (clientRead env now p c reqs rest)).kind c = .client := by
  unfold clientRead
  split
  · obtain ⟨h1, hk⟩ := reqRecvEof_goes h c
    exact ⟨h1, by rw [hk]; exact client⟩
  · obtain ⟨h1, hr, hk⟩ := reqRecvNext_goes h client
    have h2 := h1.trans (stampRead_goes h1.good hr)
    have hst := ledger_stampRead now (reqRecvNext env now p c).1 (reqRecvNext env now p c).2
    have h3 := readLoop_goes full rest reqs meets h2.good (by rw [hst]; exact hk)
      (by rw [hst]; exact hr) fun hs hne =>
        ⟨le_antisymm (single hs) (List.length_pos_of_ne_nil hne), by simp [hst]⟩
    exact ⟨h2.trans h3.1, h3.2⟩

/-- **A client closes its half.** -/
theorem clientEof_goes (h : Fine env a now {} (fun _ => False) p)
    (client : (ledger p).kind c = .client) :
    Goes env a now {} (fun _ => False) p (clientEof env now p c) ∧
      (ledger (clientEof env now p c)).kind c = .client := by
  unfold clientEof
  split
  · obtain ⟨h1, hk⟩ := reqRecvEof_goes h c
    exact ⟨h1, by rw [hk]; exact client⟩
  · obtain ⟨h1, hr, hk⟩ := reqRecvNext_goes h client
    have h2 := h1.trans (stampRead_goes h1.good hr)
    have hst := ledger_stampRead now (reqRecvNext env now p c).1 (reqRecvNext env now p c).2
    have hflag := ledger_flag
      (stampRead now (reqRecvNext env now p c).1 (reqRecvNext env now p c).2) c
      (f := fun k => { k with eof := true }) rfl
    have h3 := h2.same hflag
    dsimp only
    set m := (reqRecvNext env now p c).2
    set p₁ := (stampRead now (reqRecvNext env now p c).1 m).setConn c fun k =>
      { k with eof := true }
    have hr1 : (ledger p₁).rmsg c = some m := by rw [hflag, hst]; exact hr
    have hk1 : (ledger p₁).kind c = .client := by rw [hflag, hst]; exact hk
    split
    · -- an empty message is given back like a partial one
      have hdis : ledger (reqPut now (p₁.setConn c fun k => { k with rmsg := none }) .empty m) =
          { ((ledger p₁).put m) with
            rmsg := update (ledger p₁).rmsg c none
            puts := (ledger p₁).puts ++ [(ledger p₁).call .empty now m] } := by
        rw [ledger_reqPut, ledger_setRmsg]
        rfl
      obtain ⟨hloose, -, -, -, howner, -⟩ := h3.good.waiting.reading c m hr1
      have hone : ∀ d, update (ledger p₁).rmsg c none d ≠ some m := by
        intro d hd
        by_cases hdc : d = c
        · simp [hdc] at hd
        · rw [Function.update_of_ne hdc] at hd
          have := (h3.good.waiting.reading d m hd).2.2.2.2.1
          exact hdc (Option.some.inj (this.symm.trans howner))
      have h4 : Goes env a now {} (fun _ => False) p
        (p₁.setConn c fun k => { k with rmsg := none }) := by
        refine h3.step ?_
        rw [ledger_setRmsg]
        exact Move.unread c
      have hu := hloose.1
      have h5 : Goes env a now {} (fun _ => False) p
          (reqPut now (p₁.setConn c fun k => { k with rmsg := none }) .empty m) := by
        refine h4.step ?_
        rw [ledger_reqPut, ledger_setRmsg]
        exact Move.put .empty hu.live hu.request ⟨id, hone⟩ hu.peer hu.inQ hloose.2 (by simp)
      obtain ⟨h6, hk6⟩ := reqRecvEof_goes h5.good c
      refine ⟨h5.trans h6, ?_⟩
      rw [hk6, hdis]
      exact hk1
    · obtain ⟨h4, hk4⟩ := reqRecvEof_goes h3.good c
      exact ⟨h3.trans h4, by rw [hk4]; exact hk1⟩

end CacheProxy
