/-
**The ledger of a state of the proxy.**

What the operations of the proxy do to its ledger: each equation says of one operation which part
of a move it is.  Contents, socket flags and observations are not in the ledger, so operations on
those leave it as it is.

Main definitions:

* `ledger` — the ledger of a state;
* `modeOf` — what the queues depend on in a pool.
-/

import CacheProxy.Ledger

namespace CacheProxy

open Function (update)

variable {κ ι : Type}

/-- A call of `req_put` in the ledger. -/
def noteOf (x : PutCall κ) : PutNote where
  site := x.site
  now := x.now
  id := x.id
  peer := x.rsp.map fun _ => x.req.peer.getD 0
  ownerless := x.rsp.any fun r => r.owner.isNone
  fault := x.req.error || x.req.ferror
  startTs := x.req.startTs
  times := x.req.times
  fragId := x.req.fragId
  fragOwner := x.req.fragOwner

/-- **The ledger of a state.** -/
def ledger (p : Proxy κ) : Ledger where
  nextMsg := p.nextMsg
  nextFrag := p.nextFrag
  freed := p.freed
  tmo := p.tmo
  kind := fun c => (p.conns c).kind
  inQ := p.inQ
  outQ := p.outQ
  rmsg := fun c => (p.conns c).rmsg
  smsg := fun c => (p.conns c).smsg
  awake := fun c => (p.conns c).sendActive || (p.conns c).err != 0
  connecting := fun c => (p.conns c).connecting
  authenticated := fun c => (p.conns c).authenticated
  request := fun m => (p.msgs m).request
  owner := fun m => (p.msgs m).owner
  peer := fun m => (p.msgs m).peer
  fragOwner := fun m => (p.msgs m).fragOwner
  startTs := fun m => (p.msgs m).startTs
  times := fun m => (p.msgs m).times
  fragSeq := fun m => (p.msgs m).fragSeq
  fragId := fun m => (p.msgs m).fragId
  nfrag := fun m => (p.msgs m).nfrag
  nfragDone := fun m => (p.msgs m).nfragDone
  noreply := fun m => (p.msgs m).noreply
  done := fun m => (p.msgs m).done
  fdone := fun m => (p.msgs m).fdone
  swallow := fun m => (p.msgs m).swallow
  fault := fun m => (p.msgs m).error || (p.msgs m).ferror
  bare := fun m => (p.msgs m).con.mlen == 0
  inbox := p.hist.inbox
  answers := p.hist.answers
  attached := p.hist.attached
  arrived := p.hist.arrived
  finished := p.hist.finished
  frags := p.hist.frags
  failed := p.hist.failed
  closing := p.hist.closing
  mute := p.hist.mute
  role := p.hist.role
  sentTo := p.hist.sentTo
  arrival := p.obs.arrival
  puts := p.hist.puts.map noteOf
  sound := p.hist.derefs.all Deref.ok
  stray := p.obs.badClose

/-- What is assumed of the events of a run. -/
structure Assumed where
  /-- the recorded length of no request, fragment or reply is zero -/
  ample : Prop
  /-- no read of a client completes more than one request -/
  single : Prop
  /-- no connection to a server is established at once -/
  late : Prop
  /-- the times of events are not zero -/
  ticking : Prop

/-- What a handler is at: the clients whose queue it changes, the connections it closes, and those
that send. -/
structure Work where
  busy : ℕ → Prop := fun _ => False
  leaving : ℕ → Prop := fun _ => False
  sending : ℕ → Prop := fun _ => False

/-- The recorded lengths of the proxy's own requests are not zero. -/
def Env.Full (env : Env κ ι) : Prop := env.auth.mlen ≠ 0 ∧ ∀ con ∈ env.select, con.mlen ≠ 0

/-- The mode of a pool at an event. -/
def modeOf (env : Env κ ι) (a : Assumed) (now : ℕ) (w : Work) : Mode where
  timeout := env.timeout
  requireAuth := env.requireAuth
  select := env.select.isSome
  ample := a.ample
  single := a.single
  now := now
  late := a.late
  full := env.Full
  ticking := a.ticking
  busy := w.busy
  leaving := w.leaving
  sending := w.sending

/-! ### Fields after an update -/

/-- A field of an updated function is the updated field. -/
theorem field_update {α β : Type} (g : α → β) (f : ℕ → α) (m : ℕ) (v : α) :
    (fun k => g (update f m v k)) = update (fun k => g (f k)) m (g v) := by
  funext k
  by_cases hk : k = m
  · subst hk
    rw [Function.update_self, Function.update_self]
  · rw [Function.update_of_ne hk, Function.update_of_ne hk]

section

variable (env : Env κ ι) (now : ℕ) (p : Proxy κ) (s c m r k : ℕ)

/-! ### Messages -/

theorem ledger_setMsg (f : Msg κ → Msg κ) :
    ledger (p.setMsg m f) =
      { ledger p with
        request := update (ledger p).request m (f (p.msgs m)).request
        owner := update (ledger p).owner m (f (p.msgs m)).owner
        peer := update (ledger p).peer m (f (p.msgs m)).peer
        fragOwner := update (ledger p).fragOwner m (f (p.msgs m)).fragOwner
        startTs := update (ledger p).startTs m (f (p.msgs m)).startTs
        times := update (ledger p).times m (f (p.msgs m)).times
        fragSeq := update (ledger p).fragSeq m (f (p.msgs m)).fragSeq
        fragId := update (ledger p).fragId m (f (p.msgs m)).fragId
        nfrag := update (ledger p).nfrag m (f (p.msgs m)).nfrag
        nfragDone := update (ledger p).nfragDone m (f (p.msgs m)).nfragDone
        noreply := update (ledger p).noreply m (f (p.msgs m)).noreply
        done := update (ledger p).done m (f (p.msgs m)).done
        fdone := update (ledger p).fdone m (f (p.msgs m)).fdone
        swallow := update (ledger p).swallow m (f (p.msgs m)).swallow
        fault := update (ledger p).fault m ((f (p.msgs m)).error || (f (p.msgs m)).ferror)
        bare := update (ledger p).bare m ((f (p.msgs m)).con.mlen == 0) } := by
  apply Ledger.ext
  case request => exact field_update Msg.request _ _ _
  case owner => exact field_update Msg.owner _ _ _
  case peer => exact field_update Msg.peer _ _ _
  case fragOwner => exact field_update Msg.fragOwner _ _ _
  case startTs => exact field_update Msg.startTs _ _ _
  case times => exact field_update Msg.times _ _ _
  case fragSeq => exact field_update Msg.fragSeq _ _ _
  case fragId => exact field_update Msg.fragId _ _ _
  case nfrag => exact field_update Msg.nfrag _ _ _
  case nfragDone => exact field_update Msg.nfragDone _ _ _
  case noreply => exact field_update Msg.noreply _ _ _
  case done => exact field_update Msg.done _ _ _
  case fdone => exact field_update Msg.fdone _ _ _
  case swallow => exact field_update Msg.swallow _ _ _
  case fault => exact field_update (fun q : Msg κ => q.error || q.ferror) _ _ _
  case bare => exact field_update (fun q : Msg κ => q.con.mlen == 0) _ _ _
  all_goals rfl

theorem ledger_setDone :
    ledger (p.setMsg m fun q => { q with done := true }) =
      { ledger p with done := update (ledger p).done m true } := by
  rw [ledger_setMsg]
  apply Ledger.ext <;> first | rfl | exact Function.update_eq_self _ _

theorem ledger_setPeer (v : Option ℕ) :
    ledger (p.setMsg m fun q => { q with peer := v }) =
      { ledger p with peer := update (ledger p).peer m v } := by
  rw [ledger_setMsg]
  apply Ledger.ext <;> first | rfl | exact Function.update_eq_self _ _

theorem ledger_setSwallow :
    ledger (p.setMsg m fun q => { q with swallow := true }) =
      { ledger p with swallow := update (ledger p).swallow m true } := by
  rw [ledger_setMsg]
  apply Ledger.ext <;> first | rfl | exact Function.update_eq_self _ _

theorem ledger_setTimes (f : Msg κ → Times) :
    ledger (p.setMsg m fun q => { q with times := f q }) =
      { ledger p with times := update (ledger p).times m (f (p.msgs m)) } := by
  rw [ledger_setMsg]
  apply Ledger.ext <;> first | rfl | exact Function.update_eq_self _ _

theorem ledger_setContent (f : Msg κ → Content κ) :
    ledger (p.setMsg m fun q => { q with con := f q }) =
      { ledger p with bare := update (ledger p).bare m ((f (p.msgs m)).mlen == 0) } := by
  rw [ledger_setMsg]
  apply Ledger.ext <;> first | rfl | exact Function.update_eq_self _ _

theorem ledger_setFailed (err : ℕ) :
    ledger (setFailed p m err) =
      { ledger p with
        done := update (ledger p).done m true
        fault := update (ledger p).fault m true } := by
  rw [setFailed, ledger_setMsg]
  apply Ledger.ext <;> first | rfl | exact Function.update_eq_self _ _

theorem ledger_setError (err : ℕ) :
    ledger (p.setMsg m fun q => { q with error := true, err := err }) =
      { ledger p with fault := update (ledger p).fault m true } := by
  rw [ledger_setMsg]
  apply Ledger.ext <;> first | rfl | exact Function.update_eq_self _ _

theorem ledger_stampRead :
    ledger (stampRead now p m) =
      { ledger p with
        times := update (ledger p).times m { (ledger p).times m with recvClient := now } } :=
  ledger_setTimes p m _

/-! ### Connections -/

theorem ledger_setConn (f : Conn → Conn) :
    ledger (p.setConn c f) =
      { ledger p with
        kind := update (ledger p).kind c (f (p.conns c)).kind
        inQ := update (ledger p).inQ c (f (p.conns c)).imsgQ
        outQ := update (ledger p).outQ c (f (p.conns c)).omsgQ
        rmsg := update (ledger p).rmsg c (f (p.conns c)).rmsg
        smsg := update (ledger p).smsg c (f (p.conns c)).smsg
        awake := update (ledger p).awake c
          ((f (p.conns c)).sendActive || (f (p.conns c)).err != 0)
        connecting := update (ledger p).connecting c (f (p.conns c)).connecting
        authenticated := update (ledger p).authenticated c (f (p.conns c)).authenticated } := by
  apply Ledger.ext
  case kind => exact field_update Conn.kind _ _ _
  case inQ => exact field_update Conn.imsgQ _ _ _
  case outQ => exact field_update Conn.omsgQ _ _ _
  case rmsg => exact field_update Conn.rmsg _ _ _
  case smsg => exact field_update Conn.smsg _ _ _
  case awake => exact field_update (fun k : Conn => k.sendActive || k.err != 0) _ _ _
  case connecting => exact field_update Conn.connecting _ _ _
  case authenticated => exact field_update Conn.authenticated _ _ _
  all_goals rfl

/-- Of the flags and the error of a connection the ledger has whether it is awake. -/
theorem ledger_setFlags {f : Conn → Conn}
    (h : (f (p.conns c)).kind = (p.conns c).kind ∧ (f (p.conns c)).imsgQ = (p.conns c).imsgQ ∧
      (f (p.conns c)).omsgQ = (p.conns c).omsgQ ∧ (f (p.conns c)).rmsg = (p.conns c).rmsg ∧
      (f (p.conns c)).smsg = (p.conns c).smsg ∧
      (f (p.conns c)).connecting = (p.conns c).connecting ∧
      (f (p.conns c)).authenticated = (p.conns c).authenticated) :
    ledger (p.setConn c f) =
      { ledger p with
        awake := update (ledger p).awake c
          ((f (p.conns c)).sendActive || (f (p.conns c)).err != 0) } := by
  obtain ⟨h1, h2, h3, h4, h5, h6, h7⟩ := h
  rw [ledger_setConn, h1, h2, h3, h4, h5, h6, h7]
  apply Ledger.ext <;> first | rfl | exact Function.update_eq_self _ _

theorem ledger_setIn (f : List ℕ → List ℕ) :
    ledger (p.setIn s f) =
      { ledger p with inQ := update (ledger p).inQ s (f ((ledger p).inQ s)) } := by
  rw [Proxy.setIn, ledger_setConn]
  apply Ledger.ext <;> first | rfl | exact Function.update_eq_self _ _

theorem ledger_setOut (f : List ℕ → List ℕ) :
    ledger (p.setOut c f) =
      { ledger p with outQ := update (ledger p).outQ c (f ((ledger p).outQ c)) } := by
  rw [Proxy.setOut, ledger_setConn]
  apply Ledger.ext <;> first | rfl | exact Function.update_eq_self _ _

theorem ledger_setRmsg (v : Option ℕ) :
    ledger (p.setConn c fun k => { k with rmsg := v }) =
      { ledger p with rmsg := update (ledger p).rmsg c v } := by
  rw [ledger_setConn]
  apply Ledger.ext <;> first | rfl | exact Function.update_eq_self _ _

theorem ledger_setKind (v : ConnKind) :
    ledger (p.setConn c fun k => { k with kind := v }) =
      { ledger p with kind := update (ledger p).kind c v } := by
  rw [ledger_setConn]
  apply Ledger.ext <;> first | rfl | exact Function.update_eq_self _ _

theorem ledger_setAuthenticated (v : Bool) :
    ledger (p.setConn c fun k => { k with authenticated := v }) =
      { ledger p with authenticated := update (ledger p).authenticated c v } := by
  rw [ledger_setConn]
  apply Ledger.ext <;> first | rfl | exact Function.update_eq_self _ _

theorem ledger_setConnecting (v : Bool) :
    ledger (p.setConn c fun k => { k with connecting := v }) =
      { ledger p with connecting := update (ledger p).connecting c v } := by
  rw [ledger_setConn]
  apply Ledger.ext <;> first | rfl | exact Function.update_eq_self _ _

theorem ledger_setSmsg (v : Option ℕ) :
    ledger (p.setConn c fun k => { k with smsg := v }) =
      { ledger p with smsg := update (ledger p).smsg c v } := by
  rw [ledger_setConn]
  apply Ledger.ext <;> first | rfl | exact Function.update_eq_self _ _

theorem ledger_eventAddOut :
    ledger (eventAddOut p c) = { ledger p with awake := update (ledger p).awake c true } :=
  ledger_setFlags p c ⟨rfl, rfl, rfl, rfl, rfl, rfl, rfl⟩

theorem ledger_eventDelOut :
    ledger (eventDelOut p c) =
      { ledger p with awake := update (ledger p).awake c ((p.conns c).err != 0) } :=
  ledger_setFlags p c ⟨rfl, rfl, rfl, rfl, rfl, rfl, rfl⟩

theorem ledger_openServer (connecting : Bool) :
    ledger (openServer p s connecting) =
      { ledger p with
        kind := update (ledger p).kind s .server
        connecting := update (ledger p).connecting s connecting
        awake := update (ledger p).awake s true } := by
  rw [openServer, ledger_setConn]
  apply Ledger.ext <;> first | rfl | exact Function.update_eq_self _ _

/-! ### Taking and giving back -/

/-- What a new message has in its timestamps. -/
def freshTimes : Times := if p.nfree = 0 then env.junk p.nextMsg else {}

theorem ledger_msgGet (con : Content κ) (request swallow : Bool) (owner : Option ℕ) (ts : ℕ) :
    ledger (msgGet env p
        { con := con, request := request, owner := owner, startTs := ts, swallow := swallow }) =
      ((ledger p).take request owner swallow (con.mlen == 0)).start p.nextMsg ts
        (freshTimes env p) := by
  -- the message is set in a proxy that has one number less to give
  let p' : Proxy κ := { p with nextMsg := p.nextMsg + 1, nfree := p.nfree - 1 }
  exact ledger_setMsg p' p.nextMsg fun _ =>
    { con := con, request := request, owner := owner, startTs := ts, swallow := swallow
      times := freshTimes env p }

theorem ledger_msgPut : ledger (msgPut p m) = (ledger p).free m := rfl

theorem ledger_msgTmoDelete : ledger (msgTmoDelete p m) = (ledger p).untime m := rfl

theorem ledger_dropPeer : ledger (dropPeer p m) = (ledger p).unlink m := by
  unfold dropPeer
  cases h : (p.msgs m).peer with
  | none =>
    have hp : (ledger p).peer m = none := h
    apply Ledger.ext <;> try rfl
    case peer =>
      funext k
      simp only [Ledger.unlink, hp, reduceCtorEq, or_false]
      split
      · subst k
        exact h
      · rfl
    case freed =>
      funext k
      rw [Ledger.unlink, hp]
      simp
  | some r =>
    have hp : (ledger p).peer m = some r := h
    dsimp only
    rw [ledger_msgPut, ledger_setPeer, ledger_setPeer]
    apply Ledger.ext <;> try rfl
    case peer =>
      funext k
      simp only [Ledger.unlink, Ledger.free, hp, Function.update_apply, Option.some.injEq]
      grind
    case freed =>
      funext k
      simp only [Ledger.unlink, Ledger.free, hp, Function.update_apply]
      grind

theorem ledger_reqPut (site : PutSite) :
    ledger (reqPut now p site m) =
      { (ledger p).put m with puts := (ledger p).puts ++ [(ledger p).call site now m] } := by
  rw [reqPut, ledger_msgPut, ledger_msgTmoDelete, ledger_dropPeer]
  apply Ledger.ext <;> try rfl
  simp only [ledger, Ledger.free, Ledger.untime, Ledger.unlink, Proxy.note, List.map_append,
    List.map_cons, List.map_nil, Ledger.call, noteOf]
  cases (p.msgs m).peer <;> rfl

theorem ledger_link : ledger (link p m r) = (ledger p).link m r := by
  rw [link, ledger_setPeer, ledger_setPeer]
  rfl

/-! ### Queues of servers -/

/-- The time at which a request that is queued now expires. -/
def expiry : ℤ := (now / 1000 : ℕ) + env.timeout

theorem ledger_msgTmoInsert :
    ledger (if (p.msgs m).noreply then p else msgTmoInsert env now p m s) =
      (ledger p).time env.timeout (expiry env now) s m := by
  have hn : (ledger p).noreply m = (p.msgs m).noreply := rfl
  cases h : (p.msgs m).noreply
  · rw [if_neg Bool.false_ne_true, msgTmoInsert]
    split
    · simp [Ledger.time, *]
    · apply Ledger.ext <;> try rfl
      simp [Ledger.time, *]
      rfl
  · simp [Ledger.time, hn, h]

theorem ledger_reqServerEnqueueImsgq :
    ledger (reqServerEnqueueImsgq env now p s m) =
      { (ledger p).time env.timeout (expiry env now) s m with
        inQ := update (ledger p).inQ s ((ledger p).inQ s ++ [m]) } := by
  rw [reqServerEnqueueImsgq, Proxy.enqueueIn, ledger_setIn, ledger_msgTmoInsert]
  rfl

theorem ledger_reqServerEnqueueImsgqHead :
    ledger (reqServerEnqueueImsgqHead env now p s m) =
      { (ledger p).time env.timeout (expiry env now) s m with
        inQ := update (ledger p).inQ s (m :: (ledger p).inQ s) } := by
  rw [reqServerEnqueueImsgqHead, Proxy.enqueueInHead, ledger_setIn, ledger_msgTmoInsert]
  rfl

/-- A request leaves the in-queue. -/
theorem ledger_dequeueIn (out : m ∉ (ledger p).outQ s) :
    ledger (p.dequeueIn s m) = (ledger p).leave s m := by
  rw [Proxy.dequeueIn, ledger_setIn]
  apply Ledger.ext <;> try rfl
  case outQ =>
    simp only [Ledger.leave, List.erase_of_not_mem out]
    exact (Function.update_eq_self _ _).symm
  case tmo => exact (if_neg out).symm

/-- A request leaves the out-queue. -/
theorem ledger_reqServerDequeueOmsgq (out : m ∈ (ledger p).outQ s) (new : m ∉ (ledger p).inQ s) :
    ledger (reqServerDequeueOmsgq p s m) = (ledger p).leave s m := by
  rw [reqServerDequeueOmsgq, Proxy.dequeueOut, ledger_setOut, ledger_msgTmoDelete]
  apply Ledger.ext <;> try rfl
  case inQ =>
    simp only [Ledger.leave, List.erase_of_not_mem new]
    exact (Function.update_eq_self _ _).symm
  case tmo => exact (if_pos out).symm

theorem ledger_addAuth :
    ledger (addAuth env now p c s) =
      { (((ledger p).take true (some c) true (env.auth.mlen == 0)).time env.timeout
          (expiry env now) s p.nextMsg).start p.nextMsg now (freshTimes env p) with
        inQ := update (ledger p).inQ s ((ledger p).inQ s ++ [p.nextMsg])
        role := update (ledger p).role p.nextMsg .auth
        authenticated := update (ledger p).authenticated s true } := by
  have hget := ledger_msgGet env p env.auth true true (some c) now
  rw [addAuth, ledger_setAuthenticated, ledger_reqServerEnqueueImsgq]
  exact congrArg (fun b : Ledger =>
    ({ b.time env.timeout (expiry env now) s p.nextMsg with
      inQ := update b.inQ s (b.inQ s ++ [p.nextMsg])
      role := update b.role p.nextMsg .auth
      authenticated := update b.authenticated s true } : Ledger)) hget

theorem ledger_serverConnected_none (h : env.select = none) :
    ledger (serverConnected env now p s) =
      { ledger p with connecting := update (ledger p).connecting s false } := by
  rw [serverConnected, h]
  exact ledger_setConnecting p s false

theorem ledger_serverConnected_some {con : Content κ} (h : env.select = some con) :
    ledger (serverConnected env now p s) =
      { (((ledger p).take true none true (con.mlen == 0)).time env.timeout
          (expiry env now) s p.nextMsg).start p.nextMsg now (freshTimes env p) with
        inQ := update (ledger p).inQ s (p.nextMsg :: (ledger p).inQ s)
        role := update (ledger p).role p.nextMsg .select
        connecting := update (ledger p).connecting s false } := by
  have hget := ledger_msgGet env (p.setConn s fun k => { k with connecting := false }) con true true
    none now
  rw [ledger_setConnecting] at hget
  rw [serverConnected, h]
  refine (ledger_reqServerEnqueueImsgqHead env now _ s _).trans ?_
  exact congrArg (fun b : Ledger =>
    ({ b.time env.timeout (expiry env now) s p.nextMsg with
      inQ := update b.inQ s (p.nextMsg :: b.inQ s)
      role := update b.role p.nextMsg .select } : Ledger)) hget

/-! ### Responses -/

theorem ledger_getAnswer (con : Content κ) :
    ledger (getAnswer env now p s con) =
      ((ledger p).reply s (con.mlen == 0)).start p.nextMsg now (freshTimes env p) :=
  congrArg (fun b : Ledger =>
    ({ b with
      answers := update b.answers p.nextMsg (b.inbox s).head?
      inbox := update b.inbox s (b.inbox s).tail } : Ledger))
    (ledger_msgGet env p con false false (some s) now)

theorem ledger_reqMakeReply :
    ledger (reqMakeReply env now p c m) =
      { (((ledger p).take false (some c) false true).link m p.nextMsg).start p.nextMsg now
          (freshTimes env p) with
        done := update (update (ledger p).done p.nextMsg false) m true
        answers := update (ledger p).answers p.nextMsg (some m)
        outQ := update (ledger p).outQ c ((ledger p).outQ c ++ [m]) } := by
  have hget := ledger_msgGet env p { regs := env.blank } false false (some c) now
  rw [reqMakeReply, Proxy.enqueueOut, ledger_setOut, ledger_setDone, ledger_link]
  exact congrArg (fun b : Ledger =>
    ({ b.link m p.nextMsg with
      done := update b.done m true
      answers := update b.answers p.nextMsg (some m)
      outQ := update b.outQ c (b.outQ c ++ [m]) } : Ledger)) hget

theorem ledger_bumpOwner : ledger (bumpOwner p m) = (ledger p).bump m := by
  have ho : (ledger p).fragOwner m = (p.msgs m).fragOwner := rfl
  unfold bumpOwner
  cases h : (p.msgs m).fragOwner with
  | none =>
    apply Ledger.ext <;> try rfl
    case nfragDone => simp [Ledger.bump, ho, h]
    case sound => simp [Ledger.bump, ho, h]
  | some o =>
    dsimp only
    rw [ledger_setMsg]
    apply Ledger.ext <;> try first | rfl | exact Function.update_eq_self _ _
    case nfragDone =>
      funext k
      by_cases hk : o = k
      · subst hk
        simp [Ledger.bump, ho, h]
        rfl
      · simp [Ledger.bump, ho, h, hk, Function.update_of_ne (Ne.symm hk)]
        rfl
    case sound =>
      simp [Ledger.bump, h, noteDeref, ledger]
      rfl

/-- `fdone` in the messages of a list. -/
theorem ledger_markDone (ms : List ℕ) (q : Proxy κ) :
    ledger (markDone q ms) =
      { ledger q with fdone := fun k => if k ∈ ms then true else (ledger q).fdone k } := by
  induction ms generalizing q with
  | nil => rfl
  | cons m ms ih =>
    rw [markDone, List.foldl_cons, ← markDone, ih, ledger_setMsg]
    apply Ledger.ext <;> try first | rfl | exact Function.update_eq_self _ _
    funext k
    by_cases hk : k = m
    · subst hk
      simp
    · simp [hk]

/-- `ferror` in the messages of a list. -/
theorem ledger_markError (ms : List ℕ) (q : Proxy κ) :
    ∃ fault : ℕ → Bool, (∀ k, fault k = true ↔ (ledger q).fault k = true ∨ k ∈ ms) ∧
      ledger (markError q ms) = { ledger q with fault := fault } := by
  induction ms generalizing q with
  | nil => exact ⟨(ledger q).fault, by simp, rfl⟩
  | cons m ms ih =>
    obtain ⟨fault, hf, heq⟩ := ih (q.setMsg m fun x => { x with ferror := true })
    have hset : ledger (q.setMsg m fun x => { x with ferror := true }) =
        { ledger q with fault := update (ledger q).fault m true } := by
      rw [ledger_setMsg]
      apply Ledger.ext <;> try first | rfl | exact Function.update_eq_self _ _
      simp
    rw [hset] at hf heq
    refine ⟨fault, fun k => (hf k).trans ?_, heq⟩
    by_cases hkm : k = m
    · simp [hkm]
    · simp [hkm]

theorem ledger_noteDeref (o : ℕ) :
    ledger (noteDeref p m o) =
      { ledger p with sound := (ledger p).sound && (ledger p).ownerQueued m o } := by
  apply Ledger.ext <;> try rfl
  simp [noteDeref, ledger]
  rfl

/-- A request leaves the out-queue when the reply is there. -/
theorem ledger_dequeueAnswered (con : Content κ) (out : m ∈ (ledger p).outQ s)
    (new : m ∉ (ledger p).inQ s) :
    ledger (reqServerDequeueOmsgq (getAnswer env now p s con) s m) =
      (((ledger p).reply s (con.mlen == 0)).start p.nextMsg now (freshTimes env p)).leave s m := by
  have hans := ledger_getAnswer env now p s con
  have hout : m ∈ (ledger (getAnswer env now p s con)).outQ s := by rw [hans]; exact out
  have hin : m ∉ (ledger (getAnswer env now p s con)).inQ s := by rw [hans]; exact new
  rw [ledger_reqServerDequeueOmsgq (getAnswer env now p s con) s m hout hin, hans]

/-- The reply to the first request of the out-queue. -/
theorem ledger_attach (con : Content κ) (out : m ∈ (ledger p).outQ s) (new : m ∉ (ledger p).inQ s) :
    ledger (bumpOwner (attach now (getAnswer env now p s con) s m p.nextMsg) m) =
      (Ledger.bump
        { (((ledger p).reply s (con.mlen == 0)).leave s m).link m p.nextMsg with
          done := update (update (ledger p).done p.nextMsg false) m true
          attached := (ledger p).attached ++ [(m, p.nextMsg)] } m).start p.nextMsg now
        { freshTimes env p with recvServer := now } := by
  have hleave := ledger_dequeueAnswered env now p s m con out new
  have hlink := ledger_link (((reqServerDequeueOmsgq (getAnswer env now p s con) s m).setMsg m
    fun q => { q with done := true }).setMsg p.nextMsg fun q =>
      { q with times := { q.times with recvServer := now } }) m p.nextMsg
  rw [ledger_setTimes, ledger_setDone, hleave] at hlink
  rw [ledger_bumpOwner]
  have hattach : ledger (attach now (getAnswer env now p s con) s m p.nextMsg) =
      ({ ledger (link (((reqServerDequeueOmsgq (getAnswer env now p s con) s m).setMsg m
        fun q => { q with done := true }).setMsg p.nextMsg fun q =>
          { q with times := { q.times with recvServer := now } }) m p.nextMsg) with
        attached := (ledger p).attached ++ [(m, p.nextMsg)] } : Ledger) := rfl
  rw [hattach, hlink]
  have htimes : ((((reqServerDequeueOmsgq (getAnswer env now p s con) s m).setMsg m
      fun q => { q with done := true }).msgs p.nextMsg).times) = freshTimes env p := by
    have := congrFun (congrArg Ledger.times (ledger_setDone
      (reqServerDequeueOmsgq (getAnswer env now p s con) s m) m)) p.nextMsg
    rw [hleave] at this
    exact this.trans (Function.update_self ..)
  apply Ledger.ext <;> try rfl
  rw [htimes]
  exact Function.update_idem ..

/-- The reply to a request whose client is gone. -/
theorem ledger_swallowReply (con : Content κ) (out : m ∈ (ledger p).outQ s)
    (new : m ∉ (ledger p).inQ s) (old : m < p.nextMsg) (peer : (ledger p).peer m = none) :
    ledger (swallowReply now (getAnswer env now p s con) s m p.nextMsg) =
      { (Ledger.put
          { (((ledger p).reply s (con.mlen == 0)).free p.nextMsg).leave s m with
            done := update (update (ledger p).done p.nextMsg false) m true } m).start p.nextMsg now
          (freshTimes env p) with
        puts := (ledger p).puts ++ [(ledger p).call .swallowed now m] } := by
  have hne : m ≠ p.nextMsg := old.ne
  rw [swallowReply, ledger_reqPut, ledger_msgPut, ledger_setDone,
    ledger_dequeueAnswered env now p s m con out new]
  apply Ledger.ext <;> try rfl
  have hn : m ≠ (ledger p).nextMsg := hne
  simp [Ledger.call, Ledger.free, Ledger.leave, Ledger.start, Ledger.reply, Ledger.take,
    Function.update_of_ne hne, Function.update_of_ne hn, peer]

theorem ledger_dropReply (con : Content κ) :
    ledger (dropReply (getAnswer env now p s con) s p.nextMsg) =
      { (((ledger p).reply s (con.mlen == 0)).free p.nextMsg).start p.nextMsg now
          (freshTimes env p) with
        mute := update (ledger p).mute s ((ledger p).mute s || true)
        awake := update (ledger p).awake s true } := by
  have hans := ledger_getAnswer env now p s con
  have h1 := ledger_setFlags (msgPut (getAnswer env now p s con) p.nextMsg) s
    (f := fun k => { k with err := EINVAL, done := true }) ⟨rfl, rfl, rfl, rfl, rfl, rfl, rfl⟩
  rw [ledger_msgPut, hans] at h1
  rw [Bool.or_true]
  refine (congrArg (fun b : Ledger => ({ b with mute := update b.mute s true } : Ledger))
    h1).trans ?_
  apply Ledger.ext <;> try rfl
  simp [EINVAL, Ledger.free, Ledger.start, Ledger.reply, Ledger.take]

theorem ledger_emptyReply (con : Content κ) :
    ledger (msgPut (getAnswer env now p s con) p.nextMsg) =
      { (((ledger p).reply s (con.mlen == 0)).free p.nextMsg).start p.nextMsg now
          (freshTimes env p) with
        mute := update (ledger p).mute s ((ledger p).mute s || false) } := by
  rw [ledger_msgPut, ledger_getAnswer, Bool.or_false]
  apply Ledger.ext <;> try rfl
  exact (Function.update_eq_self _ _).symm

/-- An error takes the place of a response. -/
theorem ledger_getError (err : ℕ) :
    ledger (link (getError env p m err) m p.nextMsg) =
      { (((ledger p).take false none false (wrap32 (errorLine env err).length == 0)).link m
          p.nextMsg).start p.nextMsg 0 (freshTimes env p) with
        answers := update (ledger p).answers p.nextMsg (some m) } := by
  rw [ledger_link]
  exact congrArg (fun b : Ledger => ({ b.link m p.nextMsg with
      answers := update b.answers p.nextMsg (some m) } : Ledger))
    (ledger_msgGet env p
      { mhdr := [mbufCopy (mbufGet p.nextMbuf) (errorLine env err)]
        mlen := wrap32 (errorLine env err).length
        regs := env.blank } false false none 0)

/-! ### Clients -/

theorem ledger_dequeueOut : ledger (p.dequeueOut c m) = (ledger p).retire c m := ledger_setOut p c _

theorem ledger_reqGet :
    ledger ((reqGet env now p c).setConn c fun k => { k with rmsg := some p.nextMsg }) =
      { ((ledger p).take true (some c) false true).start p.nextMsg now (freshTimes env p) with
        rmsg := update (ledger p).rmsg c (some p.nextMsg) } := by
  rw [ledger_setRmsg, reqGet]
  exact congrArg (fun b : Ledger =>
    ({ b with rmsg := update b.rmsg c (some p.nextMsg) } : Ledger))
    (ledger_msgGet env p { regs := env.blank } true false (some c) now)

theorem ledger_setParsed (con : Content κ) :
    ledger (setParsed env now p m con) =
      { ledger p with
        noreply := update (ledger p).noreply m (env.noreply con.regs)
        bare := update (ledger p).bare m (con.mlen == 0)
        arrival := update (ledger p).arrival m now } := by
  have h := ledger_setMsg p m fun q =>
    { q with con := con, noreply := env.noreply con.regs, noforward := env.noforward con.regs }
  refine (congrArg (fun b : Ledger =>
    ({ b with arrival := update b.arrival m now } : Ledger)) h).trans ?_
  apply Ledger.ext <;> first | rfl | exact Function.update_eq_self _ _

theorem ledger_noteFinished :
    ledger (noteFinished p c m r) =
      { ledger p with
        finished := if (ledger p).bare r then (ledger p).finished
          else update (ledger p).finished c ((ledger p).finished c ++ [(m, r)]) } := by
  have hb : (ledger p).bare r = ((p.msgs r).con.mlen == 0) := rfl
  rw [noteFinished, hb]
  by_cases h : (p.msgs r).con.mlen = 0
  · simp [h]
  · simp only [h, if_false, beq_iff_eq]
    rfl

theorem ledger_rspSendDone (peer : (p.msgs r).peer = some m) :
    ledger (rspSendDone now c p r) =
      { Ledger.put
          { (ledger p).retire c m with
            finished := if (ledger p).bare r then (ledger p).finished
              else update (ledger p).finished c ((ledger p).finished c ++ [(m, r)]) } m with
        times := update (ledger p).times m { (ledger p).times m with sendClient := now }
        puts := (ledger p).puts ++
          [{ (ledger p).call .finished now m with
            times := { (ledger p).times m with sendClient := now } }] } := by
  have htimes : (((noteFinished p c m r).dequeueOut c m).msgs m).times = (p.msgs m).times := by
    unfold noteFinished
    split <;> rfl
  rw [rspSendDone, peer]
  dsimp only
  rw [ledger_reqPut, ledger_setTimes, ledger_dequeueOut, ledger_noteFinished, htimes]
  apply Ledger.ext <;> try rfl
  simp only [Ledger.call, Ledger.retire, Function.update_self]
  rfl

/-! ### Sending -/

/-- A request goes from the in-queue to the out-queue, if it is to be answered. -/
def moveOut : Proxy κ :=
  if (p.msgs m).noreply then p.dequeueIn s m else (p.dequeueIn s m).enqueueOut s m

theorem ledger_moveOut :
    ledger (moveOut p s m) =
      { ledger p with
        inQ := update (ledger p).inQ s (((ledger p).inQ s).erase m)
        outQ := if (ledger p).noreply m then (ledger p).outQ
          else update (ledger p).outQ s ((ledger p).outQ s ++ [m]) } := by
  have hn : (ledger p).noreply m = (p.msgs m).noreply := rfl
  rw [moveOut, hn]
  cases (p.msgs m).noreply
  · rw [if_neg Bool.false_ne_true, if_neg Bool.false_ne_true, Proxy.enqueueOut, ledger_setOut,
      ledger_setIn]
  · rw [if_pos rfl, if_pos rfl, ledger_setIn]

theorem ledger_moveOut_sent {rest : List ℕ} (first : (ledger p).inQ s = m :: rest) :
    ledger (moveOut (reqSent now s p m) s m) =
      { ledger p with
        inQ := update (ledger p).inQ s rest
        outQ := if (ledger p).noreply m then (ledger p).outQ
          else update (ledger p).outQ s ((ledger p).outQ s ++ [m])
        times := update (ledger p).times m { (ledger p).times m with sendServer := now }
        sentTo := update (ledger p).sentTo s ((ledger p).sentTo s ++ [m])
        inbox := if (ledger p).noreply m then (ledger p).inbox
          else update (ledger p).inbox s ((ledger p).inbox s ++ [m]) } := by
  have hsent : ledger (reqSent now s p m) =
      { ledger p with
        times := update (ledger p).times m { (ledger p).times m with sendServer := now }
        sentTo := update (ledger p).sentTo s ((ledger p).sentTo s ++ [m])
        inbox := if (ledger p).noreply m then (ledger p).inbox
          else update (ledger p).inbox s ((ledger p).inbox s ++ [m]) } :=
    congrArg (fun b : Ledger => ({ b with
      sentTo := update b.sentTo s (b.sentTo s ++ [m])
      inbox := if (ledger p).noreply m then b.inbox
        else update b.inbox s (b.inbox s ++ [m]) } : Ledger))
      (ledger_setTimes p m fun q => { q.times with sendServer := now })
  rw [ledger_moveOut, hsent, first, List.erase_cons_head]

/-! ### Fragments -/

theorem getFragments_rest (parts : List (Content κ)) (q : Proxy κ) :
    (getFragments env now c q parts).nextMsg = q.nextMsg + parts.length ∧
      (getFragments env now c q parts).conns = q.conns ∧
      (getFragments env now c q parts).hist = q.hist ∧
      (getFragments env now c q parts).freed = q.freed ∧
      (getFragments env now c q parts).tmo = q.tmo ∧
      (getFragments env now c q parts).nextFrag = q.nextFrag ∧
      (getFragments env now c q parts).obs = q.obs := by
  induction parts generalizing q with
  | nil => simp [getFragments]
  | cons con parts ih =>
    obtain ⟨h1, hrest⟩ := ih
      (msgGet env q { con := con, request := true, owner := some c, startTs := now })
    refine ⟨?_, hrest⟩
    rw [getFragments, h1, List.length_cons]
    simp only [msgGet]
    omega

theorem getFragments_old (parts : List (Content κ)) (q : Proxy κ) (hk : k < q.nextMsg) :
    (getFragments env now c q parts).msgs k = q.msgs k := by
  induction parts generalizing q with
  | nil => rfl
  | cons con parts ih =>
    rw [getFragments, ih _ (Nat.lt_succ_of_lt hk)]
    exact Function.update_of_ne hk.ne _ _

theorem getFragments_beyond (parts : List (Content κ)) (q : Proxy κ)
    (hk : q.nextMsg + parts.length ≤ k) :
    (getFragments env now c q parts).msgs k = q.msgs k := by
  induction parts generalizing q with
  | nil => rfl
  | cons con parts ih =>
    rw [List.length_cons] at hk
    rw [getFragments, ih _ (by simp only [msgGet]; omega)]
    exact Function.update_of_ne (by omega) _ _

theorem getFragments_new (parts : List (Content κ)) (q : Proxy κ) (hk : q.nextMsg ≤ k)
    (hk' : k < q.nextMsg + parts.length) :
    ∃ con ∈ parts, ∃ times, (getFragments env now c q parts).msgs k =
      { con := con, request := true, owner := some c, startTs := now, times := times } := by
  induction parts generalizing q with
  | nil => simp at hk'; omega
  | cons con parts ih =>
    rw [List.length_cons] at hk'
    rw [getFragments]
    by_cases hkn : k = q.nextMsg
    · rw [getFragments_old env now c k _ _ (by simp only [msgGet]; omega), hkn]
      exact ⟨con, List.mem_cons_self, _, Function.update_self ..⟩
    · obtain ⟨con', hcon', times, heq⟩ :=
        ih (msgGet env q { con := con, request := true, owner := some c, startTs := now })
          (by simp only [msgGet]; omega) (by simp only [msgGet]; omega)
      exact ⟨con', List.mem_cons_of_mem con hcon', times, heq⟩

theorem setFragments_msgs (o id : ℕ) (ids : List ℕ) (q : Proxy κ) :
    (setFragments q o id ids).msgs k =
      if k ∈ ids then { q.msgs k with fragId := id, fragOwner := some o } else q.msgs k := by
  induction ids generalizing q with
  | nil => simp [setFragments]
  | cons f ids ih =>
    rw [setFragments, List.foldl_cons, ← setFragments, ih]
    by_cases hkf : k = f
    · subst hkf
      by_cases hk : k ∈ ids <;> simp [hk, Proxy.setMsg]
    · by_cases hk : k ∈ ids <;> simp [hk, hkf, Proxy.setMsg]

theorem setFragments_rest (o id : ℕ) (ids : List ℕ) (q : Proxy κ) :
    (setFragments q o id ids).conns = q.conns ∧ (setFragments q o id ids).hist = q.hist ∧
      (setFragments q o id ids).freed = q.freed ∧ (setFragments q o id ids).tmo = q.tmo ∧
      (setFragments q o id ids).nextMsg = q.nextMsg ∧ (setFragments q o id ids).obs = q.obs := by
  induction ids generalizing q with
  | nil => exact ⟨rfl, rfl, rfl, rfl, rfl, rfl⟩
  | cons f ids ih => exact ih _

/-- A request becomes the owner of its fragments. -/
theorem ledger_setOwner (f : Fragmentation κ) (live : m < p.nextMsg) :
    ∃ (bare : ℕ → Bool) (times : ℕ → Times),
      (∀ k ∈ List.range' p.nextMsg f.parts.length, ∃ con ∈ f.parts, bare k = (con.mlen == 0)) ∧
      ledger (setOwner (getFragments env now c p f.parts) m
        (List.range' p.nextMsg f.parts.length) f) =
      { (ledger p).split c m f.parts.length bare with
        startTs := fun k =>
          if k ∈ List.range' p.nextMsg f.parts.length then now else (ledger p).startTs k
        times := fun k =>
          if k ∈ List.range' p.nextMsg f.parts.length then times k else (ledger p).times k
        fragSeq := update (fun k =>
          if k ∈ List.range' p.nextMsg f.parts.length then [] else (ledger p).fragSeq k) m
          (f.seq.filterMap fun i => (List.range' p.nextMsg f.parts.length)[i]?) } := by
  obtain ⟨h1, h2, h3, h4, h5, h6, h7⟩ := getFragments_rest env now c f.parts p
  set ids := List.range' p.nextMsg f.parts.length with hids
  set q := getFragments env now c p f.parts
  obtain ⟨g1, g2, g3, g4, g5, g6⟩ := setFragments_rest m q.nextFrag ids q
  have hm : m ∉ ids := by
    rw [hids, List.mem_range'_1]
    omega
  have hmsgs : (setOwner q m ids f).msgs = Function.update (setFragments q m q.nextFrag ids).msgs m
      { (setFragments q m q.nextFrag ids).msgs m with
        con := f.rest, fragId := q.nextFrag, fragOwner := some m, nfrag := ids.length
        fragSeq := f.seq.filterMap fun i => ids[i]? } := rfl
  -- the messages after the split: the owner, the fragments, the others
  have hself : (setOwner q m ids f).msgs m =
      { p.msgs m with
        con := f.rest, fragId := p.nextFrag, fragOwner := some m, nfrag := ids.length
        fragSeq := f.seq.filterMap fun i => ids[i]? } := by
    have : (setFragments q m q.nextFrag ids).msgs m = p.msgs m := by
      rw [setFragments_msgs, if_neg hm]
      exact getFragments_old env now c m f.parts p live
    rw [hmsgs, Function.update_self, this, h6]
  have hpart : ∀ k ∈ ids, ∃ con ∈ f.parts, ∃ times, (setOwner q m ids f).msgs k =
      { con := con, request := true, owner := some c, startTs := now, times := times,
        fragId := p.nextFrag, fragOwner := some m } := by
    intro k hk
    have hkm : k ≠ m := fun h => hm (h ▸ hk)
    have hk' := hk
    rw [hids, List.mem_range'_1] at hk'
    obtain ⟨con, hmem, times, hcon⟩ := getFragments_new env now c k f.parts p hk'.1 hk'.2
    refine ⟨con, hmem, times, ?_⟩
    have : (setFragments q m q.nextFrag ids).msgs k = _ := setFragments_msgs k m _ ids q
    rw [if_pos hk, hcon] at this
    rw [hmsgs, Function.update_of_ne hkm, this, h6]
  have hold : ∀ k, k ≠ m → k ∉ ids → (setOwner q m ids f).msgs k = p.msgs k := by
    intro k hkm hk
    have hk' := hk
    rw [hids, List.mem_range'_1] at hk'
    have : (setFragments q m q.nextFrag ids).msgs k = p.msgs k := by
      rw [setFragments_msgs, if_neg hk]
      by_cases hlt : k < p.nextMsg
      · exact getFragments_old env now c k f.parts p hlt
      · exact getFragments_beyond env now c k f.parts p (by omega)
    rw [hmsgs, Function.update_of_ne hkm, this]
  -- a field that the owner keeps, and one that it does not
  have hon {β : Type} (g : Msg κ → β) (v : β)
      (hv : ∀ con times, g
        { con := con, request := true, owner := some c, startTs := now, times := times,
          fragId := p.nextFrag, fragOwner := some m } = v)
      (hgm : g ((setOwner q m ids f).msgs m) = g (p.msgs m)) :
      (fun k => g ((setOwner q m ids f).msgs k)) = fun k =>
      if k ∈ ids then v else g (p.msgs k) := by
    funext k
    by_cases hk : k ∈ ids
    · obtain ⟨con, -, times, hcon⟩ := hpart k hk
      rw [if_pos hk, hcon, hv]
    · rw [if_neg hk]
      by_cases hkm : k = m
      · rw [hkm, hgm]
      · rw [hold k hkm hk]
  have hup {β : Type} (g : Msg κ → β) (v w : β)
      (hv : ∀ con times, g
        { con := con, request := true, owner := some c, startTs := now, times := times,
          fragId := p.nextFrag, fragOwner := some m } = v)
      (hgm : g ((setOwner q m ids f).msgs m) = w) :
      (fun k => g ((setOwner q m ids f).msgs k)) =
        Function.update (fun k => if k ∈ ids then v else g (p.msgs k)) m w := by
    funext k
    by_cases hkm : k = m
    · rw [hkm, Function.update_self, hgm]
    · rw [Function.update_of_ne hkm]
      by_cases hk : k ∈ ids
      · obtain ⟨con, -, times, hcon⟩ := hpart k hk
        rw [if_pos hk, hcon, hv]
      · rw [if_neg hk, hold k hkm hk]
  refine ⟨fun k => ((setOwner q m ids f).msgs k).con.mlen == 0,
    fun k => ((setOwner q m ids f).msgs k).times, ?_, ?_⟩
  · intro k hk
    obtain ⟨con, hmem, times, hcon⟩ := hpart k hk
    exact ⟨con, hmem, congrArg (fun q : Msg κ => q.con.mlen == 0) hcon⟩
  have hconns : (setOwner q m ids f).conns = p.conns := g1.trans h2
  have hhist : (setOwner q m ids f).hist =
      { p.hist with frags := Function.update p.hist.frags m ids } := by
    simp only [setOwner, Proxy.note, Proxy.setMsg, g2, h3]
  have hlen : ids.length = f.parts.length := by simp [hids]
  apply Ledger.ext
  case bare =>
    funext k
    by_cases hk : k ∈ m :: ids
    · exact (if_pos hk).symm
    · have hk' := hk
      rw [List.mem_cons, not_or] at hk'
      refine Eq.trans ?_ (if_neg hk).symm
      simp only [ledger, hold k hk'.1 hk'.2]
  case nextMsg => exact g5.trans h1
  case nextFrag => exact congrArg (· + 1) h6
  case freed => exact g3.trans h4
  case tmo => exact g4.trans h5
  case fragOwner => exact hup Msg.fragOwner _ _ (fun _ _ => rfl) (by rw [hself])
  case fragSeq => exact hup Msg.fragSeq _ _ (fun _ _ => rfl) (by rw [hself])
  case fragId => exact hup Msg.fragId _ _ (fun _ _ => rfl) (by rw [hself]; rfl)
  case nfrag => exact hup Msg.nfrag _ _ (fun _ _ => rfl) (by rw [hself]; exact hlen)
  case request => exact hon Msg.request _ (fun _ _ => rfl) (by rw [hself])
  case owner => exact hon Msg.owner _ (fun _ _ => rfl) (by rw [hself])
  case peer => exact hon Msg.peer _ (fun _ _ => rfl) (by rw [hself])
  case nfragDone => exact hon Msg.nfragDone _ (fun _ _ => rfl) (by rw [hself])
  case noreply => exact hon Msg.noreply _ (fun _ _ => rfl) (by rw [hself])
  case done => exact hon Msg.done _ (fun _ _ => rfl) (by rw [hself])
  case fdone => exact hon Msg.fdone _ (fun _ _ => rfl) (by rw [hself])
  case swallow => exact hon Msg.swallow _ (fun _ _ => rfl) (by rw [hself])
  case fault => exact hon (fun q => q.error || q.ferror) _ (fun _ _ => rfl) (by rw [hself])
  case inQ => exact funext fun s => congrArg (fun f => (f s).imsgQ) hconns
  case outQ => exact funext fun s => congrArg (fun f => (f s).omsgQ) hconns
  case kind | rmsg | smsg | awake | connecting | authenticated =>
    simp only [ledger, Ledger.split, hconns]
  case startTs => exact hon Msg.startTs _ (fun _ _ => rfl) (by rw [hself])
  case times =>
    funext k
    by_cases hk : k ∈ ids
    · exact (if_pos hk).symm
    · refine Eq.trans ?_ (if_neg hk).symm
      by_cases hkm : k = m
      · rw [hkm]
        exact (congrArg Msg.times hself).trans rfl
      · exact congrArg Msg.times (hold k hkm hk)
  case arrival => exact congrArg Observed.arrival (g6.trans h7)
  case stray => exact congrArg Observed.badClose (g6.trans h7)
  all_goals
    simp only [ledger, hhist]
    rfl

end

end CacheProxy
