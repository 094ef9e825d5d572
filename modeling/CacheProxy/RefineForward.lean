/-
**Handlers as moves: forwarding a request.**

A request that arrived is queued on its client, a connection to its server is found or opened, and
the request is queued there.  Between the two the request is on hold: opening a connection, closing
one that is in error and logging in on one leave it alone.  A request in fragments is queued first,
with a response of the proxy, and its fragments follow one by one; those that are still to come are
on hold.

Main results:

* `reqForward_goes` — forwarding one request;
* `forwardParts_goes` — forwarding the fragments of a request;
* `reqRecvDone_goes` — a request that was received.
-/

import CacheProxy.RefineClose

namespace CacheProxy

open Function (update)
open Ledger

variable {κ ι : Type} {env : Env κ ι} {a : Assumed} {now : ℕ} {w : Work} {hold hold' : ℕ → Prop}
  {p p' p₁ : Proxy κ} {b b' b'' : Ledger} {c m s o : ℕ}

/-! ### A request on hold -/

/-- The message `m` is on hold, too. -/
def Holding (hold : ℕ → Prop) (m : ℕ) : ℕ → Prop := fun k => hold k ∨ k = m

theorem Sound.holding {mode : Mode} (h : Sound mode hold b) (unsent : b.Unsent m)
    (rmsg : ∀ c, b.rmsg c ≠ some m) : Sound mode (Holding hold m) b := by
  refine h.keep fun k hk => ?_
  rcases hk with hk | rfl
  · exact ⟨h.waiting.held k hk, fun d hd => (h.waiting.reading d k hd).2.1 hk⟩
  · exact ⟨unsent, rmsg⟩

theorem Goes.release (h : Goes env a now w hold p p') (sub : ∀ m, hold' m → hold m) :
    Goes env a now w hold' p p' :=
  ⟨h.good.release sub, h.kept.mono sub⟩

/-- What forwarding for the client `c` leaves alone. -/
structure Steady (c : ℕ) (b b' : Ledger) : Prop where
  outQ : b'.outQ c = b.outQ c
  kind : b'.kind c = b.kind c
  rmsg : b'.rmsg = b.rmsg

theorem Steady.refl (c : ℕ) (b : Ledger) : Steady c b b := ⟨rfl, rfl, rfl⟩

theorem Steady.trans (h : Steady c b b') (h' : Steady c b' b'') : Steady c b b'' :=
  ⟨h'.outQ.trans h.outQ, h'.kind.trans h.kind, h'.rmsg.trans h.rmsg⟩

theorem Unmoved.steady (h : Unmoved b b') : Steady c b b' :=
  ⟨congrFun h.outQ c, congrFun h.kind c, h.rmsg⟩

/-- **A request that is to be queued on a server**: it is in the queue of its client `c`, or it has
no reply and is in no queue. -/
structure Sendable (a : Assumed) (hold : ℕ → Prop) (b : Ledger) (c m : ℕ) : Prop where
  unsent : b.Unsent m
  apart : Apart hold b m
  owner : b.fragOwner m ≠ some m
  home : b.noreply m = true ∧ (∀ d, m ∉ b.outQ d) ∨
    b.noreply m = false ∧ b.owner m = some c ∧ m ∈ b.outQ c
  ample : a.ample → b.bare m = false

/-- A request on hold can still be queued. -/
theorem Sendable.after (hs : Sendable a hold b c m) (hk : Kept (Holding hold m) b b')
    (rmsg : b'.rmsg = b.rmsg) : Sendable a hold b' c m where
  unsent := (hk.fixed m (.inr rfl)).unsent hs.unsent
  apart := ⟨hs.apart.1, by rw [rmsg]; exact hs.apart.2⟩
  owner := by
    rw [(hk.fixed m (.inr rfl)).fragOwner]
    exact hs.owner
  home := by
    have hf := hk.fixed m (.inr rfl)
    rw [hk.noreply m (.inr rfl), hf.owner, hf.outQ]
    refine hs.home.imp_left fun hn => ⟨hn.1, fun d hd => hn.2 d ((hf.outQ d).1 hd)⟩
  ample := fun ha => (hk.bare m (.inr rfl)).trans (hs.ample ha)

/-- A step that leaves a request on hold alone. -/
theorem Sendable.goes (hs : Sendable a hold (ledger p) c m)
    (h : Goes env a now w (Holding hold m) p p') (hst : Steady c (ledger p) (ledger p')) :
    Goes env a now w hold p p' ∧ Sendable a hold (ledger p') c m :=
  ⟨h.release fun _ hk => .inl hk, hs.after h.kept hst.rmsg⟩

/-! ### Queueing on a server -/

theorem eventAddOut_goes (h : Fine env a now w hold p) (c : ℕ) :
    Goes env a now w hold p (eventAddOut p c) := by
  refine (Goes.refl h).step ?_
  rw [ledger_eventAddOut]
  refine Move.idle _ _ _ (fun _ _ _ => rfl) (fun _ _ => rfl) (fun _ h => h)
    (fun _ h => .inl h) fun d _ hd => ?_
  by_cases hdc : d = c
  · exact hdc ▸ Function.update_self ..
  · exact (Function.update_of_ne hdc _ _).trans hd

/-- A server is in error. -/
theorem setErr_goes (h : Fine env a now w hold p) (server : (ledger p).kind s = .server) (err : ℕ) :
    Goes env a now w hold p (p.setConn s fun k => { k with err := err }) ∧
      Unmoved (ledger p) (ledger (p.setConn s fun k => { k with err := err })) := by
  have hflags := ledger_setFlags p s (f := fun k => { k with err := err })
    ⟨rfl, rfl, rfl, rfl, rfl, rfl, rfl⟩
  refine ⟨(Goes.refl h).step ?_, ?_⟩
  · rw [hflags]
    refine Move.idle _ _ _ (fun _ _ _ => rfl) (fun _ _ => rfl) (fun _ h => h) (fun _ h => .inl h)
      fun d hk hd => ?_
    have hds : d ≠ s := by
      rintro rfl
      simp [server] at hk
    exact (Function.update_of_ne hds _ _).trans hd
  · rw [hflags]
    exact ⟨rfl, rfl, rfl, rfl, rfl, List.Sublist.refl _⟩

theorem addAuth_goes (h : Fine env a now {} hold p) (server : (ledger p).kind s = .server)
    (require : env.requireAuth = true) (auth : (ledger p).authenticated s = false)
    (full : a.ample → env.Full) (c : ℕ) :
    Goes env a now {} hold p (addAuth env now p c s) := by
  refine (Goes.refl h).step ?_
  rw [ledger_addAuth]
  have closing : (ledger p).closing s = false := by
    by_contra hc
    rcases h.settled.opened s (.inl (by simpa using hc)) with hk | hk
    · simp [server] at hk
    · exact hk
  refine Move.auth c _ _ _ server closing require auth fun hf => ?_
  have hlen : env.auth.mlen ≠ 0 := (hf.elim full id).1
  simpa using hlen

/-- A connection that is not closed is not being closed. -/
theorem Fine.closing (h : Fine env a now {} hold p) (hk : (ledger p).kind s ≠ .closed) :
    (ledger p).closing s = false := by
  by_contra hc
  rcases h.settled.opened s (.inl (by simpa using hc)) with hk' | hl
  · exact hk hk'
  · exact hl

/-- **`req_forward` on a usable connection.** -/
theorem forwardTo_goes (h : Fine env a now {} hold p) (hs : Sendable a hold (ledger p) c m)
    (client : (ledger p).kind c = .client) (server : (ledger p).kind s = .server)
    (full : a.ample → env.Full) (addOut : Option ℕ) :
    Goes env a now {} hold p (forwardTo env now p c m s addOut) ∧
      Steady c (ledger p) (ledger (forwardTo env now p c m s addOut)) := by
  have calm : (ledger p).Calm := fun d hd => h.closing (by simp [hd])
  unfold forwardTo
  split
  · rename_i err _
    obtain ⟨h1, hu1⟩ := reqForwardError_goes h hs.unsent hs.apart hs.owner client calm
      (hs.home.imp_right fun hn => ⟨hn.1, hn.2.1⟩) err
    obtain ⟨h2, hu2⟩ := setErr_goes (s := s) h1.good (by rw [hu1.kind]; exact server) err
    exact ⟨h1.trans h2, hu1.steady.trans hu2.steady⟩
  · dsimp only
    -- the request is on hold until the connection is ready
    have hk := h.holding hs.unsent hs.apart.2
    have h1 : Goes env a now {} (Holding hold m) p
        (if (p.inQ s).isEmpty then eventAddOut p s else p) ∧
        Steady c (ledger p) (ledger (if (p.inQ s).isEmpty then eventAddOut p s else p)) ∧
        (ledger (if (p.inQ s).isEmpty then eventAddOut p s else p)).kind s = .server := by
      split
      · rw [ledger_eventAddOut]
        exact ⟨eventAddOut_goes hk s, ⟨rfl, rfl, rfl⟩, server⟩
      · exact ⟨Goes.refl hk, Steady.refl c _, server⟩
    generalize (if (p.inQ s).isEmpty = true then eventAddOut p s else p) = p₁ at h1 ⊢
    obtain ⟨h1, hst1, server1⟩ := h1
    have h2 : Goes env a now {} (Holding hold m) p
        (if env.requireAuth && !(p₁.conns s).authenticated then addAuth env now p₁ c s else p₁) ∧
        Steady c (ledger p) (ledger
          (if env.requireAuth && !(p₁.conns s).authenticated then addAuth env now p₁ c s else p₁)) ∧
        (ledger (if env.requireAuth && !(p₁.conns s).authenticated then addAuth env now p₁ c s
          else p₁)).kind s = .server ∧
        (env.requireAuth = true → (ledger (if env.requireAuth && !(p₁.conns s).authenticated then
          addAuth env now p₁ c s else p₁)).authenticated s = true) := by
      split
      · rename_i hauth
        rw [Bool.and_eq_true, Bool.not_eq_true'] at hauth
        refine ⟨h1.trans (addAuth_goes h1.good server1 hauth.1 hauth.2 full c), ?_⟩
        rw [ledger_addAuth]
        exact ⟨hst1.trans ⟨rfl, rfl, rfl⟩, server1, fun _ => Function.update_self ..⟩
      · rename_i hauth
        refine ⟨h1, hst1, server1, fun hr => ?_⟩
        simpa [hr, ledger] using hauth
    generalize (if (env.requireAuth && !(p₁.conns s).authenticated) = true then
      addAuth env now p₁ c s else p₁) = p₂ at h2 ⊢
    obtain ⟨h2, hst2, server2, auth2⟩ := h2
    obtain ⟨h3, hs2⟩ := hs.goes h2 hst2
    have hsend := ledger_reqServerEnqueueImsgq env now p₂ s m
    have client2 : (ledger p₂).kind c = .client := hst2.kind.trans client
    refine ⟨h3.step ?_, ?_⟩
    · rw [hsend]
      refine Move.send _ server2 (h3.good.closing (by simp [server2])) hs2.unsent hs2.apart ?_
        hs2.owner hs2.ample auth2
      exact hs2.home.imp_right fun hn => ⟨hn.1, c, hn.2.1, client2, hn.2.2⟩
    · rw [hsend]
      exact hst2.trans ⟨rfl, rfl, rfl⟩

/-! ### `req_forward` -/

/-- A request is queued on its client, unless it has no reply. -/
theorem enqueue_goes (h : Fine env a now {} hold p) (joins : Joins hold (ledger p) c m)
    (group : (ledger p).fragOwner m = none ∨ ∃ o before behind, (ledger p).fragOwner m = some o ∧
      o ≠ m ∧ (ledger p).fdone o = false ∧ (ledger p).outQ c = before ++ o :: behind ∧
      ∀ k ∈ behind, (ledger p).fragId k = (ledger p).fragId o)
    (ample : a.ample → (ledger p).bare m = false) :
    Goes env a now {} hold p (if (p.msgs m).noreply then p else p.enqueueOut c m) ∧
      Sendable a hold (ledger (if (p.msgs m).noreply then p else p.enqueueOut c m)) c m ∧
      (ledger (if (p.msgs m).noreply then p else p.enqueueOut c m)).outQ c =
        (ledger p).outQ c ++ (if (ledger p).noreply m then [] else [m]) ∧
      (ledger (if (p.msgs m).noreply then p else p.enqueueOut c m)).kind = (ledger p).kind ∧
      (ledger (if (p.msgs m).noreply then p else p.enqueueOut c m)).rmsg = (ledger p).rmsg := by
  have howner : (ledger p).fragOwner m ≠ some m := by
    rcases group with hg | ⟨o, -, -, hg, ho, -⟩
    · simp [hg]
    · simp [hg, ho]
  have hnr : (ledger p).noreply m = (p.msgs m).noreply := rfl
  cases hn : (p.msgs m).noreply with
  | true =>
    rw [hnr, hn]
    exact ⟨Goes.refl h, ⟨joins.loose.1, joins.apart, howner, .inl ⟨hn, joins.loose.2⟩, ample⟩,
      (List.append_nil _).symm, rfl, rfl⟩
  | false =>
    rw [hnr, hn]
    have hout := ledger_setOut p c fun q => q ++ [m]
    have hmem : m ∈ update (ledger p).outQ c ((ledger p).outQ c ++ [m]) c := by simp
    simp only [Bool.false_eq_true, if_false]
    refine ⟨(Goes.refl h).step ?_, ?_⟩
    · rw [hout]
      exact Move.queue joins group
    · rw [hout]
      refine ⟨⟨?_, joins.apart, howner, .inr ⟨hn, joins.owner, hmem⟩, ample⟩,
        Function.update_self .., rfl, rfl⟩
      obtain ⟨hlive, hreq, hdone, hfd, hpeer, hin, -, hrest⟩ := joins.loose.1
      refine ⟨hlive, hreq, hdone, hfd, hpeer, hin, fun d hd => ?_, hrest⟩
      by_cases hdc : d = c
      · exact hdc ▸ joins.kind
      · exact absurd (by simpa [hdc] using hd) (joins.loose.2 d)

/-- **`req_forward`**: the request is behind the others in the queue of its client, unless it has no
reply. -/
theorem reqForward_goes (h : Fine env a now {} hold p) (joins : Joins hold (ledger p) c m)
    (group : (ledger p).fragOwner m = none ∨ ∃ o before behind, (ledger p).fragOwner m = some o ∧
      o ≠ m ∧ (ledger p).fdone o = false ∧ (ledger p).outQ c = before ++ o :: behind ∧
      ∀ k ∈ behind, (ledger p).fragId k = (ledger p).fragId o)
    (ample : a.ample → (ledger p).bare m = false) (full : a.ample → env.Full) (route : Route)
    (late : a.late → ∀ s connecting addOut, route = .conn s connecting addOut → connecting = true) :
    Goes env a now {} hold p (reqForward env now p c m route) ∧
      (ledger (reqForward env now p c m route)).outQ c =
        (ledger p).outQ c ++ (if (ledger p).noreply m then [] else [m]) ∧
      (ledger (reqForward env now p c m route)).kind c = .client ∧
      (ledger (reqForward env now p c m route)).rmsg = (ledger p).rmsg := by
  obtain ⟨h1, hs, hout, hkind, hrmsg⟩ := enqueue_goes h joins group ample
  unfold reqForward
  dsimp only
  generalize (if (p.msgs m).noreply = true then p else p.enqueueOut c m) = p₁ at *
  have client : (ledger p₁).kind c = .client := by
    rw [hkind]
    exact joins.kind
  have calm : (ledger p₁).Calm := fun d hd => h1.good.closing (by simp [hd])
  -- it is enough that the rest leaves the client alone
  suffices hrest : ∀ p₂, Goes env a now {} hold p₁ p₂ ∧ Steady c (ledger p₁) (ledger p₂) →
      Goes env a now {} hold p p₂ ∧
        (ledger p₂).outQ c = (ledger p).outQ c ++ (if (ledger p).noreply m then [] else [m]) ∧
        (ledger p₂).kind c = .client ∧ (ledger p₂).rmsg = (ledger p).rmsg by
    have herr : ∀ err, Goes env a now {} hold p₁ (reqForwardError env now p₁ c m err) ∧
        Steady c (ledger p₁) (ledger (reqForwardError env now p₁ c m err)) := fun err =>
      (reqForwardError_goes h1.good hs.unsent hs.apart hs.owner client calm
        (hs.home.imp_right fun hn => ⟨hn.1, hn.2.1⟩) err).imp_right Unmoved.steady
    cases route with
    | none err => exact hrest _ (herr err)
    | conn s connecting addOut =>
      dsimp only
      have hk := h1.good.holding hs.unsent hs.apart.2
      cases hks : (p₁.conns s).kind with
      | unused =>
        have hopen := ledger_openServer p₁ s connecting
        have hcs : c ≠ s := by
          rintro rfl
          simp [show (p₁.conns c).kind = .client from client] at hks
        have hst : Steady c (ledger p₁) (ledger (openServer p₁ s connecting)) := by
          rw [hopen]
          exact ⟨rfl, Function.update_of_ne hcs _ _, rfl⟩
        have h2 : Goes env a now {} (Holding hold m) p₁ (openServer p₁ s connecting) := by
          refine (Goes.refl hk).step ?_
          rw [hopen]
          exact Move.connect .server connecting true hks (.inr rfl) fun hl _ => late hl s _ _ rfl
        obtain ⟨h3, hs3⟩ := hs.goes h2 hst
        obtain ⟨h4, hst4⟩ := forwardTo_goes (s := s) h3.good hs3 (hst.kind.trans client)
          (by rw [hopen]; exact Function.update_self ..) full addOut
        exact hrest _ ⟨h3.trans h4, hst.trans hst4⟩
      | server =>
        dsimp only
        split
        · exact hrest _ (forwardTo_goes h1.good hs client hks full addOut)
        · have hcs : c ≠ s := by
            rintro rfl
            simp [show (p₁.conns c).kind = .client from client] at hks
          obtain ⟨h2, hq, hkd, -, hr, -⟩ := serverClose_goes (s := s) hk hks (fun _ h => h.elim)
          have hst : Steady c (ledger p₁) (ledger (serverClose env now p₁ s)) :=
            ⟨hq c hcs, hkd c hcs, hr⟩
          obtain ⟨h3, hs3⟩ := hs.goes h2 hst
          obtain ⟨h4, hu4⟩ := reqForwardError_goes h3.good hs3.unsent hs3.apart hs3.owner
            (hst.kind.trans client) (fun d hd => h3.good.closing (by simp [hd]))
            (hs3.home.imp_right fun hn => ⟨hn.1, hn.2.1⟩) (p₁.conns s).err
          exact hrest _ ⟨h3.trans h4, hst.trans hu4.steady⟩
      | client => exact hrest _ (herr 0)
      | closed => exact hrest _ (herr 0)
  rintro p₂ ⟨h2, hst⟩
  exact ⟨h1.trans h2, hst.outQ.trans hout, hst.kind.trans client, hst.rmsg.trans hrmsg⟩

/-! ### Fragments -/

/-- **A fragment of `o` that is still to be forwarded.** -/
structure Part (a : Assumed) (b : Ledger) (c o k : ℕ) : Prop where
  loose : b.Loose k
  fragOwner : b.fragOwner k = some o
  apart : k ≠ o
  owner : b.owner k = some c
  noreply : b.noreply k = false
  new : k ∉ b.arrived c
  ample : a.ample → b.bare k = false

theorem Part.after {k : ℕ} (hp : Part a b c o k) (hk : Kept hold b b') (held : hold k) :
    Part a b' c o k where
  loose := (hk.fixed k held).loose hp.loose
  fragOwner := (hk.fixed k held).fragOwner.trans hp.fragOwner
  apart := hp.apart
  owner := (hk.fixed k held).owner.trans hp.owner
  noreply := (hk.noreply k held).trans hp.noreply
  new := fun hc => hp.new (((hk.fixed k held).arrived c).1 hc)
  ample := fun ha => (hk.bare k held).trans (hp.ample ha)

/-- A message that has arrived on the client `c` can be queued there. -/
theorem Fine.joins (h : Fine env a now {} hold p) (kind : (ledger p).kind c = .client)
    (loose : (ledger p).Loose m) (apart : Apart hold (ledger p) m)
    (owner : (ledger p).owner m = some c) : Joins hold (ledger (noteArrival p c m)) c m where
  kind := kind
  closing := h.closing (by simp [kind])
  loose := loose
  apart := apart
  owner := owner
  order := by
    refine ⟨(ledger p).arrived c, Function.update_self .., ?_⟩
    have := h.order.sublist c
    rwa [Ledger.pending, if_pos kind] at this

/-- **The fragments are forwarded** one by one behind their owner; those still to come are on
hold. -/
theorem forwardFragments_goes (full : a.ample → env.Full) (routes : ℕ → Route)
    (late : a.late → ∀ i s connecting addOut, routes i = .conn s connecting addOut →
      connecting = true) (i : ℕ) (ms : List ℕ) (nodup : ms.Nodup)
    (h : Fine env a now {} (· ∈ ms) p) (kind : (ledger p).kind c = .client)
    (parts : ∀ k ∈ ms, Part a (ledger p) c o k)
    (group : ∃ before behind, (ledger p).outQ c = before ++ o :: behind ∧
      ∀ k ∈ behind, (ledger p).fragId k = (ledger p).fragId o) :
    Goes env a now {} (fun _ => False) p (forwardFragments env now c routes p i ms) ∧
      (ledger (forwardFragments env now c routes p i ms)).kind c = .client ∧
      (ledger (forwardFragments env now c routes p i ms)).rmsg = (ledger p).rmsg := by
  induction ms generalizing p i with
  | nil =>
    exact ⟨(Goes.refl h).release fun _ hf => hf.elim, kind, rfl⟩
  | cons k ms ih =>
    obtain ⟨before, behind, hout, hids⟩ := group
    obtain ⟨hkms, nodup⟩ := List.nodup_cons.1 nodup
    have hpart := parts k List.mem_cons_self
    have h0 : Fine env a now {} (· ∈ ms) p := h.release fun j hj => List.mem_cons_of_mem k hj
    have apart : Apart (· ∈ ms) (ledger p) k :=
      ⟨hkms, fun d hd => (h.waiting.reading d k hd).2.1 List.mem_cons_self⟩
    have h1 : Goes env a now {} (· ∈ ms) p (noteArrival p c k) := by
      refine (Goes.refl h0).step ?_
      refine Move.arrive hpart.loose.1.live apart hpart.new fun _ hn => ?_
      simp [hpart.fragOwner] at hn
    have ho := h.groups.owner k o hpart.fragOwner
    -- the owner is not done while a fragment is not
    have hfd : (ledger p).fdone o = false := by
      by_contra hf
      have hmem : o ∈ (ledger p).outQ c := by simp [hout]
      have hdone := h.parts.all c o o ⟨kind, hmem⟩ (by simpa using hf) ho.1 k
        (ho.2.2.2.resolve_left hpart.apart)
      simp [hpart.loose.1.done] at hdone
    obtain ⟨h2, hout2, hk2, hr2⟩ := reqForward_goes h1.good
      (h0.joins kind hpart.loose apart hpart.owner)
      (.inr ⟨o, before, behind, hpart.fragOwner, hpart.apart.symm, hfd, hout, hids⟩) hpart.ample
        full
      (routes i) fun hl s connecting addOut => late hl i s connecting addOut
    have h3 := h1.trans h2
    have hnr : (ledger (noteArrival p c k)).noreply k = false := hpart.noreply
    rw [hnr] at hout2
    have hstep := ih (i + 1) nodup h2.good hk2
      (fun j hj => (parts j (List.mem_cons_of_mem k hj)).after h3.kept hj)
      ⟨before, behind ++ [k], ?_, ?_⟩
    · obtain ⟨h4, hk4, hr4⟩ := hstep
      exact ⟨(h3.release fun _ hf => hf.elim).trans h4, hk4, hr4.trans hr2⟩
    · refine hout2.trans ?_
      have : (ledger (noteArrival p c k)).outQ c = before ++ o :: behind := hout
      simp [this]
    · intro j hj
      have hjo : (ledger p).fragId j = (ledger p).fragId o := by
        rcases List.mem_append.1 hj with hj | hj
        · exact hids j hj
        · rw [List.mem_singleton.1 hj]
          exact ho.2.1.symm
      have hne : (ledger p).fragOwner j ≠ none := by
        intro hn
        have h0 := (h.groups.zero j).2 hn
        rw [hjo] at h0
        simpa [ho.1] using (h.groups.zero o).1 h0
      obtain ⟨x, hx⟩ := Option.ne_none_iff_exists'.1 hne
      rw [h3.kept.fragId j x hx, h3.kept.fragId o o ho.1, hjo]

/-- The parts of a fragmentation that was not possible to record as empty. -/
def Fragmentation.Ample {κ : Type} (f : Fragmentation κ) : Prop :=
  (f.parts = [] → f.rest.mlen ≠ 0) ∧ ∀ con ∈ f.parts, con.mlen ≠ 0

section Split

variable (n : ℕ) (bare : ℕ → Bool)

theorem Ledger.split_owner (b : Ledger) (c m : ℕ) :
    (b.split c m n bare).fragOwner m = some m ∧ (b.split c m n bare).fragId m = b.nextFrag ∧
      (b.split c m n bare).nfrag m = n ∧
      (b.split c m n bare).frags m = List.range' b.nextMsg n := by
  simp [Ledger.split]

theorem Ledger.split_fragId {b : Ledger} {k : ℕ} (c : ℕ) (hm : k ≠ m)
    (hk : k ∉ List.range' b.nextMsg n) : (b.split c m n bare).fragId k = b.fragId k := by
  simp only [Ledger.split, Function.update_of_ne hm, if_neg hk]

end Split

/-- **A request in fragments.** -/
theorem forwardParts_goes (full : a.ample → env.Full) (routes : ℕ → Route)
    (late : a.late → ∀ i s connecting addOut, routes i = .conn s connecting addOut →
      connecting = true) (f : Fragmentation κ) (parts : f.parts ≠ []) (ample : a.ample → f.Ample)
    (h : Fine env a now {} (fun _ => False) p) (joins : Joins (fun _ => False) (ledger p) c m)
    (whole : (ledger p).fragOwner m = none) :
    Goes env a now {} (fun _ => False) p (forwardParts env now p c m f routes) ∧
      (ledger (forwardParts env now p c m f routes)).kind c = .client ∧
      (ledger (forwardParts env now p c m f routes)).rmsg = (ledger p).rmsg := by
  have hlt : m < p.nextMsg := joins.loose.1.live.1
  obtain ⟨bare, times, hbare, heq⟩ := ledger_setOwner env now p c m f hlt
  unfold forwardParts
  dsimp only
  set ids := List.range' p.nextMsg f.parts.length with hids
  set p₁ := setOwner (getFragments env now c p f.parts) m ids f
  have hmids : m ∉ ids := by
    rw [hids, List.mem_range'_1]
    omega
  have h1 : Goes env a now {} (fun _ => False) p p₁ := by
    refine (Goes.refl h).step ?_
    rw [heq]
    refine Move.split f.parts.length bare times _ joins.loose joins.apart joins.owner whole ?_
    intro k hk
    obtain ⟨i, -, hi⟩ := List.mem_filterMap.1 hk
    exact List.mem_of_getElem? hi
  -- the fragments are new messages
  have hnew : ∀ k ∈ ids, ∀ d, k ∉ (ledger p).inQ d ∧ k ∉ (ledger p).outQ d ∧
      k ∉ (ledger p).arrived d ∧ (ledger p).rmsg d ≠ some k := by
    intro k hk d
    rw [hids, List.mem_range'_1] at hk
    refine ⟨fun hq => ?_, fun hq => ?_, fun hq => ?_, fun hq => ?_⟩
    · exact absurd (h.queues.lt_next (.inl hq)) (not_lt.2 hk.1)
    · exact absurd (h.queues.lt_next (.inr hq)) (not_lt.2 hk.1)
    · exact absurd (h.blank.arrived d k hq) (not_lt.2 hk.1)
    · exact absurd (h.waiting.reading d k hq).1.1.live.1 (not_lt.2 hk.1)
  have hpart : ∀ k ∈ ids, Part a (ledger p₁) c m k := by
    intro k hk
    have hkm : k ≠ m := fun he => hmids (he ▸ hk)
    have hk' := hk
    rw [hids, List.mem_range'_1] at hk'
    rw [heq]
    have hon {α : Type} (v : α) (g : ℕ → α) : (if k ∈ ids then v else g k) = v := if_pos hk
    have hup {α : Type} (v x : α) (g : ℕ → α) :
        update (fun j => if j ∈ ids then v else g j) m x k = v :=
      (Function.update_of_ne hkm _ _).trans (if_pos hk)
    refine ⟨⟨⟨⟨hk'.2, h.queues.fresh k hk'.1⟩, hon _ _, hon _ _, hon _ _, hon _ _,
      fun d => (hnew k hk d).1, fun d hd => absurd hd (hnew k hk d).2.1,
      fun e he => ((h.blank.tmo e he).trans_le hk'.1).ne, h.blank.failed k hk'.1,
      h.blank.role k hk'.1, hon _ _⟩, fun d => (hnew k hk d).2.1⟩, hup _ _ _, hkm, hon _ _, hon _ _,
      (hnew k hk c).2.2.1, fun ha => ?_⟩
    obtain ⟨con, hcon, hb⟩ := hbare k hk
    refine (if_pos (List.mem_cons_of_mem m hk)).trans (hb.trans ?_)
    simpa using (ample ha).2 con hcon
  have hhold : Fine env a now {} (· ∈ ids) p₁ := by
    refine h1.good.keep fun k hk => ⟨(hpart k hk).loose.1, fun d => ?_⟩
    rw [heq]
    exact (hnew k hk d).2.2.2
  -- the owner is queued with its response
  have hmake : Goes env a now {} (· ∈ ids) p₁ (reqMakeReply env now p₁ c m) := by
    refine (Goes.refl hhold).step ?_
    rw [ledger_reqMakeReply]
    have hkeep {α : Type} (v : α) (g : ℕ → α) : (if m ∈ ids then v else g m) = g m := if_neg hmids
    have hjoin : Joins (· ∈ ids) (ledger p₁) c m := by
      rw [heq]
      obtain ⟨⟨⟨hl1, hl2⟩, hreq, hdone, hfd, hpeer, hin, hk, htmo, hfail, hrole, hsw⟩, hq⟩ :=
        joins.loose
      refine ⟨joins.kind, joins.closing, ⟨⟨⟨Nat.lt_add_right _ hl1, hl2⟩, (hkeep _ _).trans hreq,
        (hkeep _ _).trans hdone, (hkeep _ _).trans hfd, (hkeep _ _).trans hpeer, hin, hk, htmo,
          hfail,
        hrole, (hkeep _ _).trans hsw⟩, hq⟩, ⟨hmids, joins.apart.2⟩, (hkeep _ _).trans joins.owner,
        joins.order⟩
    have hdone0 : (ledger p).nfragDone m = 0 := h.counts.plain m (by simp [whole])
    obtain ⟨hfo, hid, hnf, hfr⟩ : (ledger p₁).fragOwner m = some m ∧
        (ledger p₁).fragId m = p.nextFrag ∧ (ledger p₁).nfrag m = f.parts.length ∧
        (ledger p₁).frags m = ids := by
      rw [heq]
      exact Ledger.split_owner f.parts.length bare (ledger p) c m
    have hnd : (ledger p₁).nfragDone m = 0 := by
      rw [heq]
      exact (hkeep _ _).trans hdone0
    refine Move.make _ hjoin (.inr ⟨hfo, ?_, hnd, ?_, ?_⟩) (.inr ⟨?_, ?_⟩)
    · rw [hnf, hfr, hids, List.length_range']
    · intro k hk
      rw [hid]
      have hk' : k ∈ (ledger p).outQ c := by rwa [heq] at hk
      have hkm : k ≠ m := fun he => joins.loose.2 c (he ▸ hk')
      have hki : k ∉ ids := fun hki => (hnew k hki c).2.1 hk'
      have hidk : (ledger p₁).fragId k = (ledger p).fragId k := by
        rw [heq]
        exact Ledger.split_fragId f.parts.length bare c hkm hki
      rw [hidk]
      exact (h.groups.bound k).ne
    · intro k hk
      rw [hfr] at hk
      have hu := (hpart k hk).loose.1
      exact ⟨hu.done, hu.failed, hu.swallow⟩
    · rw [hid]
      exact (Nat.zero_le _).trans_lt (h.groups.bound m) |>.ne'
    · rw [hnd, hnf]
      exact List.length_pos_of_ne_nil parts
  have hmk := ledger_reqMakeReply env now p₁ c m
  obtain ⟨h2, hk2, hr2⟩ := forwardFragments_goes (o := m) full routes late 0 ids
    List.nodup_range' hmake.good (by rw [hmk, heq]; exact joins.kind)
    (fun k hk => (hpart k hk).after hmake.kept hk)
    ⟨(ledger p).outQ c, [], by rw [hmk, heq]; exact Function.update_self .., by simp⟩
  refine ⟨(h1.trans (hmake.release fun _ hf => hf.elim)).trans h2, hk2, hr2.trans ?_⟩
  rw [hmk, heq]
  rfl

/-! ### `req_recv_done` -/

/-- The proxy answers a request itself, and the client is woken up. -/
theorem answerLocally_goes {r : ℕ} (h : Fine env a now (w.also c) hold p)
    (client : (ledger p).kind c = .client) (hr : (ledger p).request r = false) :
    Goes env a now w hold p (eventAddOut (answerLocally env p c m r) c) ∧
      Unmoved (ledger p) (ledger (eventAddOut (answerLocally env p c m r) c)) := by
  have hfill := Refilled.setContent p hr fun q =>
    { q.con with
      toMsgBuf := msgAppend env.size p.nextMbuf q.con.toMsgBuf
        (env.reply (p.msgs m).con (!env.requireAuth || (p.conns c).authenticated)).text }
  have h1 := (Goes.refl h).refill hfill
  obtain ⟨bare, awake, -, -, heq⟩ := hfill
  set p₁ := p.setMsg r fun q =>
    { q with
      con :=
        { q.con with
          toMsgBuf := msgAppend env.size p.nextMbuf q.con.toMsgBuf
            (env.reply (p.msgs m).con (!env.requireAuth || (p.conns c).authenticated)).text } }
  have hlogin : ledger (answerLocally env p c m r) =
      { ledger p₁ with
        authenticated := update (ledger p₁).authenticated c
          (env.reply (p.msgs m).con
            (!env.requireAuth || (p.conns c).authenticated)).authenticated } :=
    ledger_setAuthenticated p₁ c _
  have h2 : Goes env a now (w.also c) hold p (answerLocally env p c m r) := by
    refine h1.step ?_
    rw [hlogin]
    refine Move.login _ ?_
    rw [heq]
    exact client
  have hadd := ledger_eventAddOut (answerLocally env p c m r) c
  refine ⟨(h2.trans (eventAddOut_goes h2.good c)).not_also fun _ _ => ?_, ?_⟩
  · rw [hadd]
    exact Function.update_self ..
  · rw [hadd, hlogin, heq]
    exact ⟨rfl, rfl, rfl, rfl, rfl, List.Sublist.refl _⟩

/-- **A request that was received** on the client `c` and in which nothing was changed yet. -/
structure Received (a : Assumed) (b : Ledger) (c m : ℕ) : Prop where
  loose : b.Loose m
  rmsg : ∀ d, b.rmsg d ≠ some m
  owner : b.owner m = some c
  whole : b.fragOwner m = none
  new : m ∉ b.arrived c
  single : a.single → (b.times m).recvClient = b.arrival m

/-- **What is assumed of fragmenting a request**: no allocation fails, and if lengths are assumed
not to be zero, those of what is forwarded are not. -/
def Env.Splits (env : Env κ ι) (a : Assumed) (place : ι) (con : Content κ) : Prop :=
  ∀ n, ∃ f, env.fragment place n con = some f ∧ (a.ample → f.Ample)

/-- **`req_recv_done`** -/
theorem reqRecvDone_goes (full : a.ample → env.Full) (place : ι) (routes : ℕ → Route)
    (late : a.late → ∀ i s connecting addOut, routes i = .conn s connecting addOut →
      connecting = true) (h : Fine env a now {} (fun _ => False) p)
    (client : (ledger p).kind c = .client) (rec : Received a (ledger p) c m)
    (splits : env.Splits a place (p.msgs m).con) :
    Goes env a now {} (fun _ => False) p (reqRecvDone env now p c m place routes) ∧
      (ledger (reqRecvDone env now p c m place routes)).kind c = .client ∧
      (ledger (reqRecvDone env now p c m place routes)).rmsg = (ledger p).rmsg := by
  have apart : Apart (fun _ => False) (ledger p) m := ⟨id, rec.rmsg⟩
  have h1 : Goes env a now {} (fun _ => False) p (noteArrival p c m) := by
    refine (Goes.refl h).step ?_
    exact Move.arrive rec.loose.1.live apart rec.new fun hs _ => rec.single hs
  have joins := h.joins client rec.loose apart rec.owner
  have hmsgs : (noteArrival p c m).msgs = p.msgs := rfl
  have hmbuf : (noteArrival p c m).nextMbuf = p.nextMbuf := rfl
  have hrmsg : (ledger (noteArrival p c m)).rmsg = (ledger p).rmsg := rfl
  have whole : (ledger (noteArrival p c m)).fragOwner m = none := rec.whole
  unfold reqRecvDone
  dsimp only
  generalize noteArrival p c m = p₁ at *
  -- a request that is dropped
  have hput : ∀ site p₂, ledger p₂ = ledger p₁ → site ∉ [.discarded, .fragment, .finished] →
      Goes env a now {} (fun _ => False) p (reqPut now p₂ site m) ∧
        (ledger (reqPut now p₂ site m)).kind c = .client ∧
        (ledger (reqPut now p₂ site m)).rmsg = (ledger p).rmsg := by
    intro site p₂ heq away
    have hput := ledger_reqPut now p₂ m site
    rw [heq] at hput
    refine ⟨h1.step ?_, ?_, ?_⟩
    · rw [hput]
      have hu := joins.loose.1
      exact Move.put site hu.live hu.request joins.apart hu.peer hu.inQ joins.loose.2 away
    · rw [hput]
      exact joins.kind
    · rw [hput]
      exact hrmsg
  split
  · exact hput .empty p₁ rfl (by simp)
  split
  · refine hput .quit _ ?_ (by simp)
    rw [ledger_setFlags p₁ c (f := fun k => { k with eof := true })
      ⟨rfl, rfl, rfl, rfl, rfl, rfl, rfl⟩]
    apply Ledger.ext <;> first | rfl | exact Function.update_eq_self _ _
  split
  · have hmake := ledger_reqMakeReply env now p₁ c m
    have h2 : Goes env a now (Work.also {} c) (fun _ => False) p₁
      (reqMakeReply env now p₁ c m) := by
      refine (Goes.refl (h1.good.also c)).step ?_
      rw [hmake]
      exact Move.make _ joins (.inl whole) (.inl (.inl rfl))
    obtain ⟨h3, hu⟩ := answerLocally_goes (m := m) (r := p₁.nextMsg) h2.good
      (by rw [hmake]; exact joins.kind) (by rw [hmake]; exact Function.update_self ..)
    refine ⟨(h1.trans h2).trans h3, ?_, hu.rmsg.trans ?_⟩
    · rw [hu.kind, hmake]
      exact joins.kind
    · rw [hmake]
      exact hrmsg
  obtain ⟨f, hf, hample⟩ := splits p₁.nextMbuf
  rw [hmsgs, hf]
  dsimp only
  split
  · rename_i hparts
    rw [List.isEmpty_iff] at hparts
    have hcon : ledger
      ({ p₁.setMsg m fun q => { q with con := f.rest } with nextMbuf := f.nextMbuf } :
        Proxy κ) = { ledger p₁ with bare := update (ledger p₁).bare m (f.rest.mlen == 0) } :=
      ledger_setContent p₁ m fun _ => f.rest
    generalize ({ p₁.setMsg m fun q => { q with con := f.rest } with nextMbuf := f.nextMbuf } :
        Proxy κ) = p₂ at hcon ⊢
    have h2 : Goes env a now {} (fun _ => False) p p₂ := by
      refine h1.step ?_
      rw [hcon]
      refine Move.idle _ _ _ (fun s k hk => Function.update_of_ne ?_ _ _) (fun _ hf => hf.elim)
        (fun _ h => h) (fun _ h => .inl h) fun _ _ h => h
      rintro rfl
      exact joins.loose.1.inQ s hk
    obtain ⟨h3, -, hk3, hr3⟩ := reqForward_goes (c := c) (m := m) h2.good
      (by rw [hcon]; exact { joins with }) (.inl (by rw [hcon]; exact whole))
      (fun ha => by
        rw [hcon]
        exact (Function.update_self ..).trans (by simpa using (hample ha).1 hparts))
      full (routes 0) fun hl s connecting addOut => late hl 0 s connecting addOut
    refine ⟨h2.trans h3, hk3, hr3.trans ?_⟩
    rw [hcon]
    exact hrmsg
  · rename_i hparts
    rw [List.isEmpty_iff] at hparts
    obtain ⟨h2, hk2, hr2⟩ := forwardParts_goes full routes late f hparts hample h1.good joins whole
    exact ⟨h1.trans h2, hk2, hr2.trans hrmsg⟩

end CacheProxy
