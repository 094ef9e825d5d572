/-
**Handlers as moves: sending to a client.**

The responses that `msg_send_chain` collects on a client belong to the first requests of its queue,
in their order.  While they are collected, a request in error loses its fragments and its response,
and gets an error line instead.  Behind the write, the requests whose responses were sent leave the
queue from the front; behind a response that was sent in part only empty ones are done.

Main definitions:

* `Picked` — requests and their responses that can be sent;
* `Sending` — the state of a client that sends.

Main results:

* `rspSendNext_first`, `rspSendNext_next` — the next response;
* `clientSend_fine` — a client's socket takes bytes.
-/

import CacheProxy.RefineReceive
import CacheProxy.SendLoop

namespace CacheProxy

open Function (update)
open Ledger

variable {κ ι : Type} {env : Env κ ι} {a : Assumed} {now : ℕ} {w : Work}
  {p p' : Proxy κ} {b b' : Ledger} {c m q r : ℕ} {qs rs rest : List ℕ}

/-! ### Requests and their responses -/

/-- **Requests and their responses that can be sent**: the requests are marked if they are
fragmented. -/
def Picked (b : Ledger) (qs rs : List ℕ) : Prop :=
  List.Forall₂ (fun q r => b.peer q = some r ∧ (b.fragId q = 0 ∨ b.fdone q = true)) qs rs

/-- What other requests keep while one is taken from the queue. -/
structure Same (b b' : Ledger) (q : ℕ) : Prop where
  peer : b'.peer q = b.peer q
  fragId : b'.fragId q = b.fragId q
  fdone : b.fdone q = true → b'.fdone q = true

theorem Same.trans {b'' : Ledger} (h : Same b b' q) (h' : Same b' b'' q) : Same b b'' q :=
  ⟨h'.peer.trans h.peer, h'.fragId.trans h.fragId, fun hf => h'.fdone (h.fdone hf)⟩

theorem Picked.same (h : Picked b qs rs) (hs : ∀ q ∈ qs, Same b b' q) : Picked b' qs rs := by
  unfold Picked at *
  induction h with
  | nil => exact .nil
  | @cons q r qs rs hq _ ih =>
    have hq' := hs q List.mem_cons_self
    refine .cons ⟨hq'.peer.trans hq.1, ?_⟩ (ih fun x hx => hs x (List.mem_cons_of_mem q hx))
    rw [hq'.fragId]
    exact hq.2.imp_right hq'.fdone

theorem Picked.concat (h : Picked b qs rs) (peer : b.peer q = some r)
    (part : b.fragId q = 0 ∨ b.fdone q = true) : Picked b (qs ++ [q]) (rs ++ [r]) :=
  List.rel_append h (.cons ⟨peer, part⟩ .nil)

theorem Picked.last (h : Picked b (qs ++ [q]) (rs ++ [r])) :
    b.peer q = some r ∧ (b.fragId q = 0 ∨ b.fdone q = true) := by
  have hrev := List.rel_reverse h
  rw [List.reverse_append, List.reverse_append] at hrev
  cases hrev with
  | cons hqr => exact hqr

/-- A request that is given back is the response of no other request. -/
theorem Ledger.put_same (hq : Queues b) (hl : Links b) (queued : b.InClient c m)
    (other : b.InClient c q) (hne : q ≠ m) {n : ℕ → List ℕ} :
    Same b (Ledger.put { b with outQ := n } m) q := by
  refine ⟨?_, rfl, id⟩
  obtain ⟨hlive, hreq, -⟩ := hq.client c m queued
  refine if_neg ?_
  rintro (rfl | hp)
  · exact hne rfl
  · have := (hl.pair m q hlive hp).2.2
    simp [hreq, (hq.client c q other).2.1] at this

/-! ### Whether a request can be asked for -/

/-- The work of a client that sends. -/
def clientWork (c : ℕ) : Work := { busy := (· = c), sending := (· = c) }

/-- **The state of a client that sends**: the requests `qs` are at the front of its queue and have
the responses `rs`. -/
structure Sending (env : Env κ ι) (a : Assumed) (now c : ℕ) (p : Proxy κ)
    (qs rs rest : List ℕ) : Prop where
  fine : Fine env a now (clientWork c) (fun _ => False) p
  kind : (ledger p).kind c = .client
  awake : (ledger p).awake c = true
  outQ : (ledger p).outQ c = qs ++ rest
  picked : Picked (ledger p) qs rs

theorem Sending.calm (h : Sending env a now c p qs rs rest) : (ledger p).Calm :=
  h.fine.calm fun _ hl => hl.elim

/-- The request behind one that can be sent is not a fragment that is not marked. -/
theorem Sound.next_own {mode : Mode} {hold : ℕ → Prop} (h : Sound mode hold b)
    (kind : b.kind c = .client) (closing : b.closing c = false)
    (hout : b.outQ c = qs ++ q :: m :: rest) (part : b.fragId q = 0 ∨ b.fdone q = true) :
    b.fragOwner m = none ∨ b.fragOwner m = some m ∨ b.fdone m = true := by
  cases ho : b.fragOwner m with
  | none => exact .inl rfl
  | some o =>
    by_cases hf : b.fdone m = true
    · exact .inr (.inr hf)
    by_cases hom : o = m
    · exact .inr (.inl (by rw [hom]))
    have hm : b.InClient c m := ⟨kind, by simp [hout]⟩
    have hq : b.InClient c q := ⟨kind, by simp [hout]⟩
    obtain ⟨hoo, hid, -⟩ := h.groups.owner m o ho
    have hin := h.parts.behind c m o hm ho (by simpa using hf) closing
    have hfirst := h.parts.first c kind
    have hgroup := h.parts.grouped c kind
    rw [hout] at hin hfirst hgroup
    have hmid : b.fragId m ≠ 0 := fun h0 => by simp [(h.groups.zero m).1 h0] at ho
    -- the owner stands before the fragment, so the request in between is of the same group
    have hqid : b.fragId q = b.fragId m := by
      rcases List.mem_append.1 hin with hin | hin
      · have hsub : [o, q, m].Sublist (qs ++ q :: m :: rest) :=
          (List.singleton_sublist.2 hin).append
            (.cons_cons q (.cons_cons m (List.nil_sublist rest)))
        rw [hgroup o q m hsub hid (by rw [hid]; exact hmid), hid]
      · rcases List.mem_cons.1 hin with rfl | hin
        · exact hid
        · rcases List.mem_cons.1 hin with rfl | hin
          · exact absurd rfl hom
          · have hpair := (List.pairwise_append.1 hfirst).2.1
            exact absurd ho ((List.pairwise_cons.1 (List.pairwise_cons.1 hpair).2).1 o hin)
    have hqo : b.fragOwner q = some o := by
      cases hx : b.fragOwner q with
      | none => exact absurd (hqid.symm.trans ((h.groups.zero q).2 hx)) hmid
      | some x => rw [h.groups.same q o x o hx hoo (hqid.trans hid.symm)]
    have hfd := part.resolve_left (fun h0 => hmid (hqid.symm.trans h0))
    exact absurd ((h.parts.uniform c m q o hm hq ho hqo).trans hfd) hf

/-! ### Requests in error -/

/-- **`req_error`**: only requests that are done are marked as in error. -/
theorem reqError_goes (h : Fine env a now w (fun _ => False) p) (queued : (ledger p).InClient c m)
    (done : (ledger p).done m = true)
    (part : (ledger p).fragId m = 0 ∨ (ledger p).fdone m = true) :
    Goes env a now w (fun _ => False) p (reqError p c m).1 ∧
      ∃ fault : ℕ → Bool, ledger (reqError p c m).1 = { ledger p with fault := fault } ∧
        ((reqError p c m).2 = true → fault m = true) := by
  unfold reqError
  dsimp only
  by_cases he : (p.msgs m).error = true
  · rw [if_pos he]
    exact ⟨Goes.refl h, _, rfl, fun _ => by simp [he]⟩
  rw [if_neg he]
  by_cases hid : (p.msgs m).fragId = 0
  · rw [if_pos hid]
    exact ⟨Goes.refl h, _, rfl, by simp⟩
  rw [if_neg hid]
  by_cases hfe : (p.msgs m).ferror = true
  · rw [if_pos hfe]
    exact ⟨Goes.refl h, _, rfl, fun _ => by simp [hfe]⟩
  rw [if_neg hfe]
  split
  swap
  · exact ⟨Goes.refl h, _, rfl, by simp⟩
  obtain ⟨fault, hf, heq⟩ := ledger_markError (m :: neighbours p c m) p
  refine ⟨(Goes.refl h).step ?_, fault, heq, fun _ => (hf m).2 (.inr List.mem_cons_self)⟩
  rw [heq]
  refine Move.idle _ _ _ (fun _ _ _ => rfl) (fun _ hf => hf.elim) (fun k hk => (hf k).2 (.inl hk))
    (fun k hk => ((hf k).1 hk).imp_right fun hk => ?_) fun _ _ h => h
  rcases List.mem_cons.1 hk with rfl | hk
  · exact done
  · -- a neighbour is marked with the request
    have hk' := (mem_around (h.parts.grouped c queued.1) (h.queues.nodup c).of_append_right
      queued.2 (show (ledger p).fragId m ≠ 0 from hid)).1 hk
    obtain ⟨o, ho⟩ := Option.ne_none_iff_exists'.1 fun hn => hid ((h.groups.zero m).2 hn)
    obtain ⟨x, hx⟩ := Option.ne_none_iff_exists'.1 fun hn =>
      hid (hk'.2.2.symm.trans ((h.groups.zero k).2 hn))
    have hox := h.groups.same k m x o hx ho hk'.2.2
    have hfd := h.parts.uniform c k m o ⟨queued.1, hk'.1⟩ queued (hox ▸ hx) ho
    exact h.parts.fdone_done k (hfd.trans (part.resolve_left hid))

/-- **The fragments of a request in error leave the queue.** -/
theorem dropFragments_goes (ks : List ℕ) (err : ℕ) {pre post : List ℕ}
    (h : Fine env a now w (fun _ => False) p) (kind : (ledger p).kind c = .client) (busy : w.busy c)
    (hout : (ledger p).outQ c = pre ++ ks ++ post)
    (hks : ∀ k ∈ ks, (ledger p).done k = true ∧ (ledger p).fragOwner k ≠ some k ∧
      (ledger p).fragId k ≠ 0) :
    Goes env a now w (fun _ => False) p (dropFragments now c p ks err).1 ∧
      (ledger (dropFragments now c p ks err).1).outQ c = pre ++ post ∧
      (∀ q ∈ pre, Same (ledger p) (ledger (dropFragments now c p ks err).1) q) ∧
      (ledger (dropFragments now c p ks err).1).fault = (ledger p).fault ∧
      (ledger (dropFragments now c p ks err).1).done = (ledger p).done ∧
      (ledger (dropFragments now c p ks err).1).kind = (ledger p).kind ∧
      (ledger (dropFragments now c p ks err).1).awake = (ledger p).awake ∧
      (ledger (dropFragments now c p ks err).1).smsg = (ledger p).smsg := by
  induction ks generalizing p err with
  | nil =>
    rw [List.append_nil] at hout
    exact ⟨Goes.refl h, hout, fun _ _ => ⟨rfl, rfl, id⟩, rfl, rfl, rfl, rfl, rfl⟩
  | cons k ks ih =>
    have hmem : k ∈ (ledger p).outQ c := by simp [hout]
    obtain ⟨hdone, hown, hid⟩ := hks k List.mem_cons_self
    have hput := ledger_reqPut now (p.dequeueOut c k) k .fragment
    rw [ledger_dequeueOut] at hput
    have h1 : Goes env a now w (fun _ => False) p (reqPut now (p.dequeueOut c k) .fragment k) := by
      refine (Goes.refl h).step ?_
      rw [hput]
      exact Move.fragment ⟨kind, hmem⟩ hdone hown hid busy
    have hnodup := (h.queues.nodup c).of_append_right
    rw [hout] at hnodup
    have hnot : k ∉ pre := fun hk => by
      rw [List.append_assoc, List.nodup_append] at hnodup
      exact hnodup.2.2 k hk k (by simp) rfl
    have hout1 : (ledger (reqPut now (p.dequeueOut c k) .fragment k)).outQ c = pre ++ ks ++
      post := by
      rw [hput]
      refine (Function.update_self c _ _).trans ?_
      rw [hout, List.append_assoc, List.erase_append_right _ hnot]
      simp
    have hsame : ∀ q ∈ pre, Same (ledger p)
      (ledger (reqPut now (p.dequeueOut c k) .fragment k)) q := by
      intro q hq
      rw [hput]
      have hs := Ledger.put_same (n := ((ledger p).retire c k).outQ) h.queues h.links ⟨kind, hmem⟩
        (c := c) (q := q) ⟨kind, by simp [hout, hq]⟩ (fun he => hnot (he ▸ hq))
      exact ⟨hs.peer, hs.fragId, hs.fdone⟩
    obtain ⟨h2, ho2, hs2, hf2, hd2, hk2, ha2, hm2⟩ := ih
      (if err = 0 then ((p.dequeueOut c k).msgs k).err else err) h1.good
      (by rw [hput]; exact kind) hout1
      (fun j hj => by
        rw [hput]
        exact hks j (List.mem_cons_of_mem k hj))
    unfold dropFragments
    refine ⟨h1.trans h2, ho2, fun q hq => (hsame q hq).trans (hs2 q hq), ?_, ?_, ?_, ?_, ?_⟩
    · exact hf2.trans (by rw [hput]; rfl)
    · exact hd2.trans (by rw [hput]; rfl)
    · exact hk2.trans (by rw [hput]; rfl)
    · exact ha2.trans (by rw [hput]; rfl)
    · exact hm2.trans (by rw [hput]; rfl)

/-- The fragments behind a request. -/
theorem fragmentsBehind_eq (hn : ((ledger p).outQ c).Nodup)
    (hout : (ledger p).outQ c = qs ++ m :: rest) :
    fragmentsBehind p c m = if (ledger p).fragId m = 0 then []
      else rest.takeWhile fun k => (ledger p).fragId k == (ledger p).fragId m := by
  have hdrop : (p.outQ c).dropWhile (· != m) = m :: rest := by
    rw [show p.outQ c = qs ++ m :: rest from hout]
    have hm : m ∉ qs := fun hm => by
      rw [hout, List.nodup_append] at hn
      exact hn.2.2 m hm m (by simp) rfl
    rw [List.dropWhile_append_of_pos fun x hx => by
      simpa using fun he : x = m => hm (he ▸ hx)]
    simp
  unfold fragmentsBehind
  rw [hdrop]
  rfl

/-- An error takes the place of the response of a request. -/
theorem blame_goes (h : Fine env a now w (fun _ => False) p) (queued : (ledger p).InClient c m)
    (done : (ledger p).done m = true) (fault : (ledger p).fault m = true) (err : ℕ) :
    Goes env a now w (fun _ => False) p
        (link (getError env (dropPeer p m) m err) m (dropPeer p m).nextMsg) ∧
      (ledger (link (getError env (dropPeer p m) m err) m (dropPeer p m).nextMsg)).outQ =
        (ledger p).outQ ∧
      (∀ q, (ledger p).InClient c q → q ≠ m → Same (ledger p)
        (ledger (link (getError env (dropPeer p m) m err) m (dropPeer p m).nextMsg)) q) ∧
      (ledger (link (getError env (dropPeer p m) m err) m (dropPeer p m).nextMsg)).fragId m =
        (ledger p).fragId m ∧
      (ledger (link (getError env (dropPeer p m) m err) m (dropPeer p m).nextMsg)).fdone m =
        (ledger p).fdone m ∧
      (ledger (link (getError env (dropPeer p m) m err) m (dropPeer p m).nextMsg)).kind =
        (ledger p).kind ∧
      (ledger (link (getError env (dropPeer p m) m err) m (dropPeer p m).nextMsg)).awake =
        (ledger p).awake := by
  obtain ⟨hlive, hreq, -⟩ := h.queues.client c m queued
  have hdrop := ledger_dropPeer p m
  have hnext : (dropPeer p m).nextMsg = p.nextMsg := congrArg Ledger.nextMsg hdrop
  have h1 : Goes env a now w (fun _ => False) p (dropPeer p m) := by
    refine (Goes.refl h).step ?_
    rw [hdrop]
    exact Move.unlink queued done fault
  have herr := ledger_getError env (dropPeer p m) m err
  rw [hdrop] at herr
  have hne : m ≠ p.nextMsg := hlive.1.ne
  refine ⟨h1.step ?_, ?_, ?_, ?_, ?_, ?_, ?_⟩
  · rw [herr, hdrop, hnext]
    exact Move.blame (b := (ledger p).unlink m) (c := c) queued done (if_pos (.inl rfl)) fault _ _
  all_goals rw [herr]
  · rfl
  · intro q hq hqm
    obtain ⟨hqlive, hqreq, -⟩ := h.queues.client c q hq
    have hqn : q ≠ p.nextMsg := hqlive.1.ne
    have hpeer : ¬ (q = m ∨ (ledger p).peer m = some q) := by
      rintro (he | hp)
      · exact hqm he
      · have := (h.links.pair m q hlive hp).2.2
        simp [hreq, hqreq] at this
    rw [hnext]
    refine ⟨?_, Function.update_of_ne hqn _ _, fun hf => (Function.update_of_ne hqn _ _).trans hf⟩
    refine (Function.update_of_ne hqn _ _).trans ((Function.update_of_ne hqm _ _).trans ?_)
    exact (Function.update_of_ne hqn _ _).trans (if_neg hpeer)
  · exact Function.update_of_ne hne _ _
  · exact Function.update_of_ne hne _ _
  · rfl
  · rfl

/-! ### The next response -/

/-- **`rsp_make_error`** -/
theorem rspMakeError_goes (h : Fine env a now w (fun _ => False) p)
    (kind : (ledger p).kind c = .client) (busy : w.busy c)
    (hout : (ledger p).outQ c = qs ++ m :: rest) (done : (ledger p).done m = true)
    (fault : (ledger p).fault m = true)
    (part : (ledger p).fragId m = 0 ∨ (ledger p).fdone m = true) :
    Goes env a now w (fun _ => False) p (rspMakeError env now p c m) ∧
      (∃ rest', (ledger (rspMakeError env now p c m)).outQ c = qs ++ m :: rest') ∧
      (∀ q ∈ qs, Same (ledger p) (ledger (rspMakeError env now p c m)) q) ∧
      ((ledger (rspMakeError env now p c m)).fragId m = 0 ∨
        (ledger (rspMakeError env now p c m)).fdone m = true) ∧
      (ledger (rspMakeError env now p c m)).kind = (ledger p).kind ∧
      (ledger (rspMakeError env now p c m)).awake = (ledger p).awake := by
  have hnodup := (h.queues.nodup c).of_append_right
  have hbehind := fragmentsBehind_eq hnodup hout
  have hm : (ledger p).InClient c m := ⟨kind, by simp [hout]⟩
  unfold rspMakeError
  dsimp only
  generalize hks : fragmentsBehind p c m = ks at hbehind ⊢
  generalize (if (p.msgs m).fragId = 0 then (p.msgs m).err else 0) = err
  have hsplit : ∃ post, rest = ks ++ post := by
    rw [hbehind]
    split
    · exact ⟨rest, rfl⟩
    · exact ⟨_, (List.takeWhile_append_dropWhile ..).symm⟩
  obtain ⟨post, hpost⟩ := hsplit
  have hout' : (ledger p).outQ c = (qs ++ [m]) ++ ks ++ post := by simp [hout, hpost]
  -- the fragments are marked with the request, and none of them is the owner
  have hpart : ∀ k ∈ ks, (ledger p).done k = true ∧ (ledger p).fragOwner k ≠ some k ∧
      (ledger p).fragId k ≠ 0 := by
    intro k hk
    have hid : (ledger p).fragId m ≠ 0 := by
      intro h0
      rw [hbehind, if_pos h0] at hk
      cases hk
    have hkid : (ledger p).fragId k = (ledger p).fragId m := by
      rw [hbehind, if_neg hid] at hk
      simpa using List.mem_takeWhile_imp hk
    have hkq : (ledger p).InClient c k := ⟨kind, by simp [hout', hk]⟩
    obtain ⟨o, ho⟩ := Option.ne_none_iff_exists'.1 fun hn => hid ((h.groups.zero m).2 hn)
    obtain ⟨x, hx⟩ := Option.ne_none_iff_exists'.1 fun hn =>
      hid (hkid.symm.trans ((h.groups.zero k).2 hn))
    have hko : (ledger p).fragOwner k = some o := h.groups.same k m x o hx ho hkid ▸ hx
    refine ⟨h.parts.fdone_done k ((h.parts.uniform c k m o hkq hm hko ho).trans
      (part.resolve_left hid)), fun hself => ?_, hkid ▸ hid⟩
    have hok : o = k := Option.some.inj (hko.symm.trans hself)
    have hfirst := h.parts.first c kind
    rw [hout, hpost] at hfirst
    have := (List.pairwise_cons.1 (List.pairwise_append.1 hfirst).2.1).1 k (by simp [hk])
    exact this (hok ▸ ho)
  obtain ⟨h1, ho1, hs1, hf1, hd1, hk1, ha1, -⟩ := dropFragments_goes ks err h kind busy hout' hpart
  set p₁ := (dropFragments now c p ks err).1
  have hm1 : (ledger p₁).InClient c m := ⟨by rw [hk1]; exact kind, by simp [ho1]⟩
  obtain ⟨h2, ho2, hs2, hi2, hfd2, hk2, ha2⟩ := blame_goes h1.good hm1
    (by rw [hd1]; exact done) (by rw [hf1]; exact fault) (dropFragments now c p ks err).2
  refine ⟨h1.trans h2, ⟨post, ?_⟩, fun q hq => ?_, ?_, hk2.trans hk1, ha2.trans ha1⟩
  · rw [ho2, ho1]
    simp
  · have hqm : q ≠ m := by
      rintro rfl
      rw [hout, List.nodup_append] at hnodup
      exact hnodup.2.2 q hq q (by simp) rfl
    exact (hs1 q (by simp [hq])).trans
      (hs2 q ⟨by rw [hk1]; exact kind, by simp [ho1, hq]⟩ hqm)
  · have hsm := hs1 m (by simp)
    rw [hi2, hfd2, hsm.fragId]
    exact part.imp_right hsm.fdone

/-- A connection goes on with a message, or with none. -/
theorem setSmsg_goes (h : Fine env a now w (fun _ => False) p) (v : Option ℕ)
    (hv : v = none ∨ w.sending c) :
    Goes env a now w (fun _ => False) p (p.setConn c fun k => { k with smsg := v }) := by
  refine (Goes.refl h).step ?_
  rw [ledger_setSmsg]
  exact Move.pick v hv

/-- **The response of the request that follows**: it is picked if the request is done. -/
theorem rspSendReq_sending (h : Sending env a now c p qs rs (m :: rest))
    (own : (ledger p).fragOwner m = none ∨ (ledger p).fragOwner m = some m ∨
      (ledger p).fdone m = true) :
    ((rspSendReq env now p c m).2 = none → (∃ rest', Sending env a now c
        (rspSendReq env now p c m).1 qs rs rest') ∧
      (ledger (rspSendReq env now p c m).1).smsg c = none) ∧
    (∀ r, (rspSendReq env now p c m).2 = some r → (∃ rest', Sending env a now c
        (rspSendReq env now p c m).1 (qs ++ [m]) (rs ++ [r]) rest') ∧
      (ledger (rspSendReq env now p c m).1).smsg c = some r) := by
  have queued : (ledger p).InClient c m := ⟨h.kind, by simp [h.outQ]⟩
  obtain ⟨h1, hflag, hidle, fdone, bare, awake, sound, heq, hfd, haw, hmark⟩ :=
    reqDone_spec h.fine queued h.calm rfl own
  unfold rspSendReq
  dsimp only
  by_cases hd : (reqDone env p c m).2 = true
  swap
  · rw [if_pos (by simpa using hd), hidle (by simpa using hd)]
    refine ⟨fun _ => ?_, by simp⟩
    have hset := ledger_setSmsg p c none
    refine ⟨⟨m :: rest, (setSmsg_goes h.fine none (.inl rfl)).good, ?_, ?_, ?_, ?_⟩, ?_⟩
    all_goals rw [hset]
    · exact h.kind
    · exact h.awake
    · exact h.outQ
    · exact h.picked
    · exact Function.update_self ..
  rw [if_neg (by simpa using hd)]
  set p₁ := (reqDone env p c m).1
  have hdone : (ledger p₁).done m = true := by
    rw [heq]
    exact (hflag.1 hd).1
  have hpart : (ledger p₁).fragId m = 0 ∨ (ledger p₁).fdone m = true := by
    rw [heq]
    exact hmark hd
  have hout1 : (ledger p₁).outQ c = qs ++ m :: rest := by
    rw [heq]
    exact h.outQ
  have hkind1 : (ledger p₁).kind c = .client := by
    rw [heq]
    exact h.kind
  have hawake1 : (ledger p₁).awake c = true := by
    rw [heq]
    exact haw c h.awake
  have hpicked1 : Picked (ledger p₁) qs rs := h.picked.same fun q _ => by
    rw [heq]
    exact ⟨rfl, rfl, hfd q⟩
  obtain ⟨h2, fault, heq2, hfault⟩ := reqError_goes (c := c) h1.good
    ⟨hkind1, by simp [hout1]⟩ hdone hpart
  set p₂ := (reqError p₁ c m).1
  -- with or without an error, the request stays where it is
  have h3 : ∃ rest', Sending env a now c (if (reqError p₁ c m).2 then rspMakeError env now p₂ c m
        else p₂) qs rs (m :: rest') ∧
      ((ledger (if (reqError p₁ c m).2 then rspMakeError env now p₂ c m else p₂)).fragId m = 0 ∨
        (ledger (if (reqError p₁ c m).2 then rspMakeError env now p₂ c m else p₂)).fdone m =
          true) := by
    have hpicked2 : Picked (ledger p₂) qs rs := hpicked1.same fun q _ => by
      rw [heq2]
      exact ⟨rfl, rfl, id⟩
    split
    · rename_i he
      have hk2 : (ledger p₂).kind c = .client := by rw [heq2]; exact hkind1
      obtain ⟨h3, ⟨rest', ho3⟩, hs3, hp3, hk3, ha3⟩ := rspMakeError_goes (c := c) h2.good hk2
        rfl (by rw [heq2]; exact hout1) (by rw [heq2]; exact hdone)
        (by rw [heq2]; exact hfault he) (by rw [heq2]; exact hpart)
      refine ⟨rest', ⟨h3.good, by rw [hk3]; exact hk2, ?_, ho3, hpicked2.same hs3⟩, hp3⟩
      rw [ha3, heq2]
      exact hawake1
    · refine ⟨rest, ⟨h2.good, ?_, ?_, ?_, hpicked2⟩, ?_⟩
      all_goals rw [heq2]
      · exact hkind1
      · exact hawake1
      · exact hout1
      · exact hpart
  generalize (if (reqError p₁ c m).2 = true then rspMakeError env now p₂ c m else p₂) = p₃ at h3 ⊢
  obtain ⟨rest', h3, hp3⟩ := h3
  have hset := ledger_setSmsg p₃ c (p₃.msgs m).peer
  have hsend : Sending env a now c (p₃.setConn c fun k => { k with smsg := (p₃.msgs m).peer }) qs rs
      (m :: rest') := by
    refine ⟨(setSmsg_goes h3.fine _ (.inr rfl)).good, ?_, ?_, ?_, ?_⟩
    all_goals rw [hset]
    · exact h3.kind
    · exact h3.awake
    · exact h3.outQ
    · exact h3.picked
  have hsm : (ledger (p₃.setConn c fun k => { k with smsg := (p₃.msgs m).peer })).smsg c =
      (p₃.msgs m).peer := by
    rw [hset]
    exact Function.update_self ..
  refine ⟨fun hn => ⟨⟨_, hsend⟩, hsm.trans hn⟩, fun r hr => ⟨⟨rest', ?_⟩, hsm.trans hr⟩⟩
  refine { hsend with outQ := by simp [hsend.outQ], picked := hsend.picked.concat ?_ ?_ }
  all_goals rw [hset]
  · exact hr
  · exact hp3

/-- **The state of a client between two rounds of sending.** -/
structure Resting (env : Env κ ι) (a : Assumed) (now c : ℕ) (p : Proxy κ) : Prop where
  fine : Fine env a now (clientWork c) (fun _ => False) p
  kind : (ledger p).kind c = .client
  smsg : (ledger p).smsg c = none
  wake : (ledger p).Ready c → (ledger p).awake c = true

/-- Write interest is dropped if the first request is not done. -/
theorem Resting.eventDelOut (h : Resting env a now c p) (hr : ¬ (ledger p).Ready c) :
    Resting env a now c (eventDelOut p c) := by
  have hdel := ledger_eventDelOut p c
  have h1 : Goes env a now (clientWork c) (fun _ => False) p (CacheProxy.eventDelOut p c) := by
    refine (Goes.refl h.fine).step ?_
    rw [hdel]
    exact Move.rest _ rfl
  refine ⟨h1.good, ?_, ?_, ?_⟩
  all_goals rw [hdel]
  · exact h.kind
  · exact h.smsg
  · exact fun hr' => absurd hr' hr

theorem Picked.mem (h : Picked b qs rs) (hq : q ∈ qs) :
    ∃ r, b.peer q = some r ∧ (b.fragId q = 0 ∨ b.fdone q = true) := by
  unfold Picked at h
  induction h with
  | nil => cases hq
  | cons hx _ ih =>
    rcases List.mem_cons.1 hq with rfl | hq
    · exact ⟨_, hx⟩
    · exact ih hq

theorem Picked.init (h : Picked b (qs ++ [q]) (rs ++ [r])) : Picked b qs rs := by
  have hrev := List.rel_reverse h
  rw [List.reverse_append, List.reverse_append] at hrev
  cases hrev with
  | cons _ hrest => exact List.forall₂_reverse_iff.1 hrest

/-- **The first response**: that of the first request of the queue, if it is done. -/
theorem rspSendNext_first (h : Resting env a now c p) :
    ((rspSendNext env now c p).2 = none → Resting env a now c (rspSendNext env now c p).1) ∧
    (∀ r, (rspSendNext env now c p).2 = some r →
      (∃ q rest, Sending env a now c (rspSendNext env now c p).1 [q] [r] rest) ∧
      (ledger (rspSendNext env now c p).1).smsg c = some r) := by
  have calm : (ledger p).Calm := h.fine.calm fun _ hl => hl.elim
  unfold rspSendNext
  cases hq : (ledger p).outQ c with
  | nil =>
    rw [show p.outQ c = [] from hq]
    dsimp only [List.head?_nil]
    have hflag : ledger
      (if (p.conns c).eof then p.setConn c fun k => { k with done := true } else p) =
        ledger p := by
      split
      · exact ledger_flag p c rfl
      · rfl
    generalize (if (p.conns c).eof = true then p.setConn c fun k =>
      { k with done := true } else p) = p₁
      at hflag ⊢
    refine ⟨fun _ => ?_, by simp⟩
    have h1 : Resting env a now c p₁ := by
      refine ⟨?_, ?_, ?_, ?_⟩
      · rw [Fine, hflag]
        exact h.fine
      all_goals rw [hflag]
      · exact h.kind
      · exact h.smsg
      · exact h.wake
    refine h1.eventDelOut ?_
    rintro ⟨m, rest, hm, -⟩
    rw [hflag, hq] at hm
    cases hm
  | cons first rest =>
    rw [show p.outQ c = first :: rest from hq]
    dsimp only [List.head?_cons]
    have own := h.fine.head_own h.kind (calm c h.kind) hq
    obtain ⟨h1, hflag, hidle, fdone, bare, awake, sound, heq, hfd, haw, hmark⟩ :=
      reqDone_spec h.fine ⟨h.kind, by simp [hq]⟩ calm rfl own
    by_cases hd : (reqDone env p c first).2 = true
    swap
    · rw [if_pos (by simpa using hd), hidle (by simpa using hd)]
      refine ⟨fun _ => h.eventDelOut ?_, by simp⟩
      rintro ⟨m, rest', hm, hover⟩
      rw [hq] at hm
      rw [(List.cons.inj hm).1] at hd hflag
      exact hd (hflag.2 hover)
    rw [if_neg (by simpa using hd)]
    have hsm : ((reqDone env p c first).1.conns c).smsg = none := by
      have := congrFun (congrArg Ledger.smsg heq) c
      exact this.trans h.smsg
    rw [hsm]
    dsimp only
    have hready : (ledger p).Ready c := ⟨first, rest, hq, hflag.1 hd⟩
    have hsend : Sending env a now c (reqDone env p c first).1 [] [] (first :: rest) := by
      refine ⟨h1.good, ?_, ?_, ?_, .nil⟩
      all_goals rw [heq]
      · exact h.kind
      · exact haw c (h.wake hready)
      · exact hq
    have own1 : (ledger (reqDone env p c first).1).fragOwner first = none ∨
        (ledger (reqDone env p c first).1).fragOwner first = some first ∨
        (ledger (reqDone env p c first).1).fdone first = true := by
      rw [heq]
      exact own.imp_right fun ho => ho.imp_right (hfd first)
    obtain ⟨hnone, hsome⟩ := rspSendReq_sending hsend own1
    refine ⟨fun hn => ?_, fun r hr => ?_⟩
    · obtain ⟨⟨rest', hs⟩, hsm'⟩ := hnone hn
      exact ⟨hs.fine, hs.kind, hsm', fun _ => hs.awake⟩
    · obtain ⟨⟨rest', hs⟩, hsm'⟩ := hsome r hr
      exact ⟨⟨first, rest', hs⟩, hsm'⟩

/-- The request behind `q` in a queue. -/
theorem successor_eq (hn : (qs ++ q :: rest).Nodup) :
    successor (qs ++ q :: rest) q = rest.head? := by
  have hq : q ∉ qs := fun hq => (List.nodup_append.1 hn).2.2 q hq q (by simp) rfl
  unfold successor
  rw [List.dropWhile_append_of_pos fun x hx => by simpa using fun he : x = q => hq (he ▸ hx)]
  simp

/-- **The next response**: that of the request behind the last one that was picked. -/
theorem rspSendNext_next (h : Sending env a now c p (qs ++ [q]) (rs ++ [r]) rest)
    (hsm : (ledger p).smsg c = some r) :
    ((rspSendNext env now c p).2 = none →
      ∃ rest', Sending env a now c (rspSendNext env now c p).1 (qs ++ [q]) (rs ++ [r]) rest') ∧
    (∀ r', (rspSendNext env now c p).2 = some r' →
      (∃ m rest', Sending env a now c (rspSendNext env now c p).1 (qs ++ [q] ++ [m])
        (rs ++ [r] ++ [r']) rest') ∧ (ledger (rspSendNext env now c p).1).smsg c = some r') := by
  have hmem : ∀ x ∈ qs ++ [q], (ledger p).InClient c x := fun x hx =>
    ⟨h.kind, by rw [h.outQ]; exact List.mem_append_left rest hx⟩
  -- the first request was picked before, so it is done
  obtain ⟨f, hf, hhead⟩ : ∃ f ∈ qs ++ [q], (p.outQ c).head? = some f := by
    have hout : p.outQ c = qs ++ [q] ++ rest := h.outQ
    cases qs with
    | nil => exact ⟨q, by simp, by simp [hout]⟩
    | cons x => exact ⟨x, by simp, by simp [hout]⟩
  obtain ⟨rf, hrf, hpart⟩ := h.picked.mem hf
  obtain ⟨hflive, hfreq, -⟩ := h.fine.queues.client c f (hmem f hf)
  have hfdone := (h.fine.links.linked f rf hflive hfreq hrf).1
  obtain ⟨hpeer, hqpart⟩ := h.picked.last
  obtain ⟨hqlive, -⟩ := h.fine.queues.client c q (hmem q (by simp))
  have hpeer' : (p.msgs r).peer = some q := (h.fine.links.pair q r hqlive hpeer).2.1
  have hnodup := (h.fine.queues.nodup c).of_append_right
  have hout : (ledger p).outQ c = qs ++ q :: rest := by simp [h.outQ]
  have hsucc : successor (p.outQ c) q = rest.head? := by
    rw [hout] at hnodup
    rw [show p.outQ c = qs ++ q :: rest from hout]
    exact successor_eq hnodup
  unfold rspSendNext
  rw [hhead]
  dsimp only
  rw [reqDone_over hfdone hpart, if_neg (by simp), show (p.conns c).smsg = some r from hsm]
  dsimp only
  rw [hpeer', Option.bind_some, hsucc]
  cases hrest : rest with
  | nil =>
    subst hrest
    have hset := ledger_setSmsg p c none
    refine ⟨fun _ => ⟨[], (setSmsg_goes h.fine none (.inl rfl)).good, ?_, ?_, ?_, ?_⟩, by simp⟩
    all_goals
      dsimp only [List.head?_nil]
      rw [hset]
    · exact h.kind
    · exact h.awake
    · exact h.outQ
    · exact h.picked
  | cons m =>
    subst hrest
    dsimp only [List.head?_cons]
    have own := h.fine.next_own h.kind (h.calm c h.kind) hout hqpart
    obtain ⟨hnone, hsome⟩ := rspSendReq_sending h own
    refine ⟨fun hn => (hnone hn).1, fun r' hr' => ?_⟩
    obtain ⟨⟨rest'', hs⟩, hsm'⟩ := hsome r' hr'
    exact ⟨⟨m, rest'', hs⟩, hsm'⟩

/-! ### Behind the write -/

/-- **The state of a client behind the write**: the requests `l` stay, the responses `rs` of the
requests `qs` are still to be looked at. -/
structure Finishing (env : Env κ ι) (a : Assumed) (now c : ℕ) (p : Proxy κ)
    (l qs rs rest : List ℕ) : Prop where
  fine : Fine env a now (clientWork c) (fun _ => False) p
  kind : (ledger p).kind c = .client
  awake : (ledger p).awake c = true
  smsg : (ledger p).smsg c = none
  outQ : (ledger p).outQ c = l ++ (qs ++ rest)
  picked : Picked (ledger p) qs rs

/-- The bytes of a message are not in the ledger. -/
theorem ledger_sendBytes (S : Sender κ) (p : Proxy κ) (m n : ℕ) :
    ledger (S.sendBytes p m n) = ledger p := by
  have h := ledger_setContent p m fun q =>
    { (p.msgs m).con with mhdr := (consume (p.msgs m).con.mhdr n).1 }
  refine Eq.trans h ?_
  exact congrArg (fun v => ({ ledger p with bare := v } : Ledger)) (Function.update_eq_self m _)

/-- **`rsp_send_done`**: the first of the requests leaves the queue. -/
theorem rspSendDone_finishing {l : List ℕ} (h : Finishing env a now c p l (q :: qs) (r :: rs) rest)
    (first : (ledger p).bare r = true ∨ l = []) :
    Finishing env a now c (rspSendDone now c p r) l qs rs rest := by
  obtain ⟨hqr, hrest⟩ := List.forall₂_cons.1 h.picked
  have hpicked : Picked (ledger p) qs rs := hrest
  have hmem : q ∈ (ledger p).outQ c := by simp [h.outQ]
  have queued : (ledger p).InClient c q := ⟨h.kind, hmem⟩
  obtain ⟨hlive, hreq, -⟩ := h.fine.queues.client c q queued
  have hpeer : (p.msgs r).peer = some q := (h.fine.links.pair q r hlive hqr.1).2.1
  have hdone := ledger_rspSendDone now p c q r hpeer
  have hnodup := (h.fine.queues.nodup c).of_append_right
  rw [h.outQ] at hnodup
  have hql : q ∉ l := fun hl => (List.nodup_append.1 hnodup).2.2 q hl q (by simp) rfl
  have h1 : Goes env a now (clientWork c) (fun _ => False) p (rspSendDone now c p r) := by
    refine (Goes.refl h.fine).step ?_
    rw [hdone]
    refine Move.finish queued hqr.1 hqr.2 (first.imp_right fun hl => ?_) rfl
    rw [h.outQ, hl]
    rfl
  refine ⟨h1.good, ?_, ?_, ?_, ?_, ?_⟩
  all_goals rw [hdone]
  · exact h.kind
  · exact h.awake
  · exact h.smsg
  · refine (Function.update_self c _ _).trans ?_
    rw [h.outQ, List.erase_append_right _ hql]
    simp
  · refine hpicked.same fun x hx => ?_
    have hxq : x ≠ q := by
      rintro rfl
      have hn := (List.nodup_append.1 hnodup).2.1
      rw [List.cons_append] at hn
      exact (List.nodup_cons.1 hn).1 (List.mem_append_left rest hx)
    have hs := Ledger.put_same (n := ((ledger p).retire c q).outQ) h.fine.queues h.fine.links queued
      (q := x) ⟨h.kind, by simp [h.outQ, hx]⟩ hxq
    exact ⟨hs.peer, hs.fragId, hs.fdone⟩

/-- The write itself: the connection may be in error. -/
theorem ledger_setWritten (p : Proxy κ) (c err : ℕ) :
    ledger (p.setConn c fun k => { k with smsg := none, err := err }) =
      { ledger p with
        smsg := update (ledger p).smsg c none
        awake := update (ledger p).awake c ((p.conns c).sendActive || err != 0) } := by
  rw [ledger_setConn]
  apply Ledger.ext <;> first | rfl | exact Function.update_eq_self _ _

theorem Sending.written (h : Sending env a now c p qs rs rest) (e : ℕ) :
    Finishing env a now c (p.setConn c fun k =>
      { k with smsg := none, err := if e = 0 then k.err else e }) [] qs rs rest := by
  have hset := ledger_setWritten p c (if e = 0 then (p.conns c).err else e)
  have heq : (p.setConn c fun k => { k with smsg := none, err := if e = 0 then k.err else e }) =
      p.setConn c fun k => { k with smsg := none, err := if e = 0 then (p.conns c).err else e } :=
        rfl
  have hawake : ((p.conns c).sendActive || (if e = 0 then (p.conns c).err else e) != 0) = true := by
    have : ((p.conns c).sendActive || (p.conns c).err != 0) = true := h.awake
    split
    · exact this
    · rename_i he
      simp [he]
  have h1 := h.fine.move (Move.pick (c := c) none (.inl rfl))
  have h2 := h1.move (Move.idle _ _ (update (ledger p).awake c true) (fun _ _ _ => rfl)
    (fun _ hf => hf.elim) (fun _ h => h) (fun _ h => .inl h) fun d _ hd => by
      by_cases hdc : d = c
      · exact hdc ▸ Function.update_self ..
      · exact (Function.update_of_ne hdc _ _).trans hd)
  rw [heq]
  rw [hawake] at hset
  refine ⟨?_, ?_, ?_, ?_, ?_, ?_⟩
  · rw [Fine, hset]
    exact h2
  all_goals rw [hset]
  · exact h.kind
  · exact Function.update_self ..
  · exact Function.update_self ..
  · exact h.outQ
  · exact h.picked

/-- One round: responses are collected, written and finished. -/
theorem msgSendChain_client (h : Sending env a now c p [q] [r] rest)
    (hsm : (ledger p).smsg c = some r) (fuel : ℕ) (w : WriteResult) :
    Resting env a now c ((clientSender env now c).msgSendChain fuel p r w).1 := by
  have hchain := (clientSender env now c).chainMsgs_rule
    (fun _ p ms m _ _ => ∃ qs q rest, Sending env a now c p (qs ++ [q]) (ms ++ [m]) rest ∧
      (ledger p).smsg c = some m)
    (fun p ms _ => ∃ qs rest, Sending env a now c p qs ms rest) ?_ ?_ ?_ ?_ fuel p [] r 0 0
    ⟨[], q, rest, h, hsm⟩
  · obtain ⟨qs', rest', hs⟩ := hchain
    unfold Sender.msgSendChain
    dsimp only
    have hfin := (clientSender env now c).finishMsgs_rule
      (fun p _ ms n => ∃ l qs rest, Finishing env a now c p l qs ms rest ∧ (n ≠ 0 → l = []))
      ?_ ?_ ?_ ?_ _ _ [] (w.nsent ((clientSender env now c).chainMsgs fuel p r 0 0 []).2.2)
      ⟨[], qs', rest', hs.written (w.err ((clientSender env now c).chainMsgs fuel p r 0 0 []).2.2),
        fun _ => rfl⟩
    · obtain ⟨-, -, l, qs₁, rest₁, hf, -⟩ := hfin
      exact ⟨hf.fine, hf.kind, hf.smsg, fun _ => hf.awake⟩
    · rintro p l m ms ⟨l', qs, rest, hf, -⟩ hlen
      cases qs with
      | nil => cases hf.picked
      | cons x xs =>
        refine ⟨l', xs, rest, rspSendDone_finishing hf (.inl ?_), fun hn => absurd rfl hn⟩
        simpa [ledger] using hlen
    · rintro p l m ms ⟨l', qs, rest, hf, -⟩ -
      cases qs with
      | nil => cases hf.picked
      | cons x xs =>
        refine ⟨l' ++ [x], xs, rest, { hf with outQ := by simp [hf.outQ], picked := ?_ },
          fun hn => absurd rfl hn⟩
        exact (List.forall₂_cons.1 hf.picked).2
    · rintro p l m ms n ⟨l', qs, rest, hf, hl⟩ hn -
      cases qs with
      | nil => cases hf.picked
      | cons x xs =>
        have heq := ledger_sendBytes (clientSender env now c) p m n
        have hf' : Finishing env a now c ((clientSender env now c).sendBytes p m n) l' (x :: xs)
            (m :: ms) rest := by
          refine ⟨?_, ?_, ?_, ?_, ?_, ?_⟩
          · rw [Fine, heq]
            exact hf.fine
          all_goals rw [heq]
          · exact hf.kind
          · exact hf.awake
          · exact hf.smsg
          · exact hf.outQ
          · exact hf.picked
        exact ⟨l', xs, rest, rspSendDone_finishing hf' (.inr (hl hn)), fun _ => hl hn⟩
    · rintro p l m ms n ⟨l', qs, rest, hf, hl⟩ hn -
      cases qs with
      | nil => cases hf.picked
      | cons x xs =>
        have heq := ledger_sendBytes (clientSender env now c) p m n
        refine ⟨l' ++ [x], xs, rest, ⟨?_, ?_, ?_, ?_, ?_, ?_⟩, fun hn => absurd rfl hn⟩
        · rw [Fine, heq]
          exact hf.fine
        all_goals rw [heq]
        · exact hf.kind
        · exact hf.awake
        · exact hf.smsg
        · simp [hf.outQ]
        · exact (List.forall₂_cons.1 hf.picked).2
  · rintro p ms m iov nsend ⟨qs, q, rest, hs, -⟩
    exact ⟨qs, q :: rest, { hs with outQ := by simp [hs.outQ], picked := hs.picked.init }⟩
  · rintro fuel p ms m iov nsend ⟨qs, q, rest, hs, -⟩ -
    exact ⟨_, rest, hs⟩
  · rintro fuel p ms m iov nsend ⟨qs, q, rest, hs, hsm⟩ hn -
    obtain ⟨rest', hs'⟩ := (rspSendNext_next hs hsm).1 hn
    exact ⟨_, rest', hs'⟩
  · rintro fuel p ms m iov nsend m' ⟨qs, q, rest, hs, hsm⟩ hn -
    obtain ⟨⟨x, rest', hs'⟩, hsm'⟩ := (rspSendNext_next hs hsm).2 m' hn
    exact ⟨qs ++ [q], x, rest', hs', hsm'⟩

/-- **A client's socket takes bytes.** -/
theorem clientSend_fine (h : Fine env a now {} (fun _ => False) p)
    (client : (ledger p).kind c = .client) (ws : List WriteResult) :
    Fine env a now {} (fun _ => False) (clientSend env now p c ws) ∧
      (ledger (clientSend env now p c ws)).kind c = .client := by
  have h0 : Resting env a now c p := by
    refine ⟨h.retag ⟨fun d hd => (h.settled.opened d hd).imp_right False.elim, fun d hd => ?_,
      fun d hk hr => (h.settled.awake d hk hr).imp_right False.elim⟩, client, ?_, fun hr => ?_⟩
    · exact (h.settled.smsg d hd).elim
    · by_contra hs
      exact h.settled.smsg c hs
    · exact (h.settled.awake c client hr).resolve_right id
  have h1 : Resting env a now c (clientSend env now p c ws) := by
    unfold clientSend
    refine (clientSender env now c).msgSend_rule _ (Resting env a now c) (Resting env a now c)
      (fun _ h => h) (fun p hp hn => (rspSendNext_first hp).1 hn) (fun p m w hp hn => ?_) ws p h0
    obtain ⟨⟨q, rest, hs⟩, hsm⟩ := (rspSendNext_first hp).2 m hn
    exact msgSendChain_client hs hsm _ w
  refine ⟨h1.fine.retag ⟨h1.fine.settled.opened, fun d hd => ?_, fun d hk hr => .inl ?_⟩, h1.kind⟩
  · have hdc : d = c := h1.fine.settled.smsg d hd
    exact hd (hdc ▸ h1.smsg)
  · rcases h1.fine.settled.awake d hk hr with ha | hdc
    · exact ha
    · have hdc : d = c := hdc
      subst hdc
      exact h1.wake hr

end CacheProxy
