/-
**Forwarding requests and responses.**

The handlers of the proxy: a request that was received is filtered, answered by the proxy itself,
or forwarded, whole or in fragments; a response that was received is linked to the request it
answers; a closing connection fails or drops what is queued on it.

Main definitions:

* `reqDone`, `reqError`, `postCoalesce` — whether a request is done or in error, and the response
  of a fragmented request;
* `reqForwardError`, `reqMakeReply`, `reqForward`, `reqRecvDone` — requests;
* `rspFilter`, `rspForward`, `rspRecvDone` — responses;
* `serverClose`, `clientClose` — closing.
-/

import CacheProxy.ProxyState

namespace CacheProxy

variable {κ ι : Type}

/-- `EINVAL` -/
def EINVAL : ℕ := 22

/-! ### Requests that are done or in error -/

/-- The neighbours of a request in its queue that have its fragment id, first those before it,
the nearest first, then those behind it. -/
def neighbours (p : Proxy κ) (c m : ℕ) : List ℕ :=
  let same := fun k => (p.msgs k).fragId == (p.msgs m).fragId
  ((p.outQ c).takeWhile (· != m)).reverse.takeWhile same ++
    ((p.outQ c).dropWhile (· != m)).tail.takeWhile same

/-- The loop of `post_coalesce` over `frag_seq`; the flag says whether it got to the end. -/
def gatherLoop (env : Env κ ι) (r : ℕ) : Proxy κ → List ℕ → Proxy κ × Bool
  | p, [] => (p, true)
  | p, f :: fs =>
      match (p.msgs f).peer with
      | none => (p, false)
      | some s =>
          match env.copyBulk p.nextMbuf (p.msgs r).con (p.msgs s).con with
          | none => (p, false)
          | some (dst, src) =>
              let p := (p.setMsg r fun m => { m with con := dst }).setMsg s fun m =>
                { m with con := src }
              gatherLoop env r { p with nextMbuf := p.nextMbuf + 1 } fs

/-- `response->owner->err = 1` -/
def failOwner (p : Proxy κ) (r : ℕ) : Proxy κ :=
  match (p.msgs r).owner with
  | none => p
  | some c => p.setConn c fun k => { k with err := 1 }

/-- The content of the response `r` is replaced, with one mbuf taken for it. -/
def setResponse (p : Proxy κ) (r : ℕ) (con : Content κ) : Proxy κ :=
  { p.setMsg r fun m => { m with con := con } with nextMbuf := p.nextMbuf + 1 }

/-- `msg->post_coalesce` of a request whose response is `r`. -/
def coalesceInto (env : Env κ ι) (p : Proxy κ) (q : Msg κ) (r : ℕ) : Proxy κ :=
  if q.error || q.ferror then
    if env.closesOnError then failOwner p r else p
  else
    match env.coalesceHead p.nextMbuf q.con (p.msgs r).con with
    | none => failOwner p r
    | some con =>
        let g := if env.gathers q.con.regs then gatherLoop env r (setResponse p r con) q.fragSeq
          else (setResponse p r con, true)
        if g.2 then
          setResponse g.1 r (env.coalesceTail g.1.nextMbuf q.con (g.1.msgs r).con)
        else failOwner g.1 r

/-- `msg->post_coalesce`; the owner of fragments has the response made by `req_make_reply`. -/
def postCoalesce (env : Env κ ι) (p : Proxy κ) (o : ℕ) : Proxy κ :=
  let p := p.observe fun h =>
    { h with coalesced := Function.update h.coalesced o (h.coalesced o + 1) }
  match (p.msgs o).peer with
  | none => p
  | some r => coalesceInto env p (p.msgs o) r

/-- Whether the owner `o` of the fragments is a message of the client of `m` that was not given
back and is in the client's queue. -/
def ownerQueued (p : Proxy κ) (m o : ℕ) : Bool :=
  decide (o < p.nextMsg) && !p.freed o &&
    match (p.msgs m).owner with
    | none => false
    | some c => (p.outQ c).contains o

/-- Notes that `frag_owner` of `m` is followed. -/
def noteDeref (p : Proxy κ) (m o : ℕ) : Proxy κ :=
  p.note fun h => { h with derefs := h.derefs ++ [⟨m, o, ownerQueued p m o⟩] }

/-- Sets `fdone` in some messages. -/
def markDone (p : Proxy κ) (ms : List ℕ) : Proxy κ :=
  ms.foldl (fun p m => p.setMsg m fun q => { q with fdone := true }) p

/-- Sets `ferror` in some messages. -/
def markError (p : Proxy κ) (ms : List ℕ) : Proxy κ :=
  ms.foldl (fun p m => p.setMsg m fun q => { q with ferror := true }) p

/-- **`req_done`**: a request is done if its response is there, and a fragmented one if those of
all fragments are; then the response of the owner is put together. -/
def reqDone (env : Env κ ι) (p : Proxy κ) (c m : ℕ) : Proxy κ × Bool :=
  let q := p.msgs m
  if !q.done then (p, false)
  else if q.fragId = 0 then (p, true)
  else if q.fdone then (p, true)
  else if q.nfragDone < q.nfrag then (p, false)
  else if (neighbours p c m).any fun k => !(p.msgs k).done then (p, false)
  else
    let p' := markDone p (m :: neighbours p c m)
    match q.fragOwner with
    | none => (p', true)
    | some o => (postCoalesce env (noteDeref p' m o) o, true)

/-- `req_error` -/
def reqError (p : Proxy κ) (c m : ℕ) : Proxy κ × Bool :=
  let q := p.msgs m
  if q.error then (p, true)
  else if q.fragId = 0 then (p, false)
  else if q.ferror then (p, true)
  else if (neighbours p c m).any fun k => (p.msgs k).error then
    (markError p (m :: neighbours p c m), true)
  else (p, false)

/-- `event_add_out` -/
def eventAddOut (p : Proxy κ) (c : ℕ) : Proxy κ := p.setConn c fun k =>
    { k with sendActive := true }

/-- `event_del_out` -/
def eventDelOut (p : Proxy κ) (c : ℕ) : Proxy κ := p.setConn c fun k =>
    { k with sendActive := false }

/-- `event_add_out` if the first request of the client is done. -/
def reqDoneFirst (env : Env κ ι) (p : Proxy κ) (c : ℕ) : Proxy κ :=
  match (p.outQ c).head? with
  | none => p
  | some m =>
      let d := reqDone env p c m
      if d.2 then eventAddOut d.1 c else d.1

/-! ### Requests in error -/

/-- `done`, `error` and `err` of a request that will not be answered. -/
def setFailed (p : Proxy κ) (m err : ℕ) : Proxy κ :=
  p.setMsg m fun q => { q with done := true, error := true, err := err }

/-- `frag_owner->nfrag_done++`, if there is one. -/
def bumpOwner (p : Proxy κ) (m : ℕ) : Proxy κ :=
  match (p.msgs m).fragOwner with
  | none => p
  | some o => (noteDeref p m o).setMsg o fun q => { q with nfragDone := q.nfragDone + 1 }

/-- `req_forward_error` -/
def reqForwardError (env : Env κ ι) (now : ℕ) (p : Proxy κ) (c m err : ℕ) : Proxy κ :=
  let p := (setFailed p m err).note fun h => { h with failed := Function.update h.failed m true }
  if (p.msgs m).noreply then reqPut now p .unforwarded m
  else reqDoneFirst env p c

/-! ### Closing a server -/

/-- A request of a closing server that is neither swallowed nor without reply: it is in error, and
its client is told. -/
def failQueued (env : Env κ ι) (p : Proxy κ) (m err : ℕ) : Proxy κ :=
  let p := bumpOwner (setFailed p m err) m
  match (p.msgs m).owner with
  | none => p
  | some c => reqDoneFirst env p c

/-- The loop of `server_close` over the in-queue. -/
def closeIn (env : Env κ ι) (now s err : ℕ) : Proxy κ → List ℕ → Proxy κ
  | p, [] => p
  | p, m :: ms =>
      let p := p.dequeueIn s m
      if (p.msgs m).swallow || (p.msgs m).noreply then
        closeIn env now s err (reqPut now p .dropped m) ms
      else closeIn env now s err (failQueued env p m err) ms

/-- The loop of `server_close` over the out-queue. -/
def closeOut (env : Env κ ι) (now s err : ℕ) : Proxy κ → List ℕ → Proxy κ
  | p, [] => p
  | p, m :: ms =>
      let p := reqServerDequeueOmsgq p s m
      if (p.msgs m).swallow then
        closeOut env now s err (reqPut now p .dropped m) ms
      else closeOut env now s err (failQueued env p m err) ms

/-- Notes that a connection is being closed. -/
def noteClosing (p : Proxy κ) (c : ℕ) : Proxy κ :=
  p.note fun h => { h with closing := Function.update h.closing c true }

/-- **`server_close`** -/
def serverClose (env : Env κ ι) (now : ℕ) (p : Proxy κ) (s : ℕ) : Proxy κ :=
  let p := noteClosing p s
  let p := closeIn env now s (p.conns s).err p (p.inQ s)
  let p := closeOut env now s (p.conns s).err p (p.outQ s)
  p.setConn s fun k => { k with kind := .closed }

/-! ### Forwarding a request -/

/-- What `server_pool_conn` and the calls behind it come to. -/
inductive Route where
  /-- no connection, with this `errno` -/
  | none (err : ℕ)
  /-- a connection, a new one if the number is not in use; `connecting` if it is not established,
  and `addOut` the result of `event_add_out` -/
  | conn (s : ℕ) (connecting : Bool) (addOut : Option ℕ)
  deriving DecidableEq, Repr

/-- `msg->add_auth` -/
def addAuth (env : Env κ ι) (now : ℕ) (p : Proxy κ) (c s : ℕ) : Proxy κ :=
  let p' := (msgGet env p
    { con := env.auth, request := true, owner := some c, startTs := now, swallow := true }).note
    fun h => { h with role := Function.update h.role p.nextMsg .auth }
  (reqServerEnqueueImsgq env now p' s p.nextMsg).setConn s fun k => { k with authenticated := true }

/-- `req_forward` on a connection that is usable. -/
def forwardTo (env : Env κ ι) (now : ℕ) (p : Proxy κ) (c m s : ℕ) (addOut : Option ℕ) : Proxy κ :=
  match if (p.inQ s).isEmpty then addOut else none with
  | some err =>
      (reqForwardError env now p c m err).setConn s fun k => { k with err := err }
  | none =>
      let p := if (p.inQ s).isEmpty then eventAddOut p s else p
      let p := if env.requireAuth && !(p.conns s).authenticated then addAuth env now p c s else p
      reqServerEnqueueImsgq env now p s m

/-- A new connection to a server: `server_connect` with `event_add_conn`. -/
def openServer (p : Proxy κ) (s : ℕ) (connecting : Bool) : Proxy κ :=
  p.setConn s fun k => { k with kind := .server, connecting := connecting, sendActive := true }

/-- **`req_forward`** -/
def reqForward (env : Env κ ι) (now : ℕ) (p : Proxy κ) (c m : ℕ) (route : Route) : Proxy κ :=
  let p := if (p.msgs m).noreply then p else p.enqueueOut c m
  match route with
  | .none err => reqForwardError env now p c m err
  | .conn s connecting addOut =>
      match (p.conns s).kind with
      | .unused =>
          forwardTo env now (openServer p s connecting) c m s addOut
      | .server =>
          if (p.conns s).err = 0 then forwardTo env now p c m s addOut
          -- `server_connect` refuses a connection that is in error
          else reqForwardError env now (serverClose env now p s) c m (p.conns s).err
      -- not a connection that `server_pool_conn` gives
      | _ => reqForwardError env now p c m 0

/-! ### Receiving a request -/

/-- The response `r` is linked to the request `m`. -/
def link (p : Proxy κ) (m r : ℕ) : Proxy κ :=
  (p.setMsg m fun q => { q with peer := some r }).setMsg r fun q => { q with peer := some m }

/-- A response of the proxy itself to the request `m`, owned by the connection `c`. -/
def getReply (env : Env κ ι) (now : ℕ) (p : Proxy κ) (c m : ℕ) : Proxy κ :=
  (msgGet env p
    { con := { regs := env.blank }, request := false, owner := some c, startTs := now }).note
    fun h => { h with answers := Function.update h.answers p.nextMsg (some m) }

/-- `req_make_reply` -/
def reqMakeReply (env : Env κ ι) (now : ℕ) (p : Proxy κ) (c m : ℕ) : Proxy κ :=
  let p' := link (getReply env now p c m) m p.nextMsg
  (p'.setMsg m fun q => { q with done := true }).enqueueOut c m

/-- `msg->reply` and what it changes. -/
def answerLocally (env : Env κ ι) (p : Proxy κ) (c m r : ℕ) : Proxy κ :=
  let a := env.reply (p.msgs m).con (!env.requireAuth || (p.conns c).authenticated)
  let p := p.setMsg r fun q =>
    { q with con := { q.con with toMsgBuf := msgAppend env.size p.nextMbuf q.con.toMsgBuf a.text } }
  let p := p.setConn c fun k => { k with authenticated := a.authenticated }
  { p with nextMbuf := p.nextMbuf + 1, slowThreshold := a.threshold.getD p.slowThreshold }

/-- Adds the request `m` to those that arrived on `c`. -/
def noteArrival (p : Proxy κ) (c m : ℕ) : Proxy κ :=
  p.note fun h => { h with arrived := Function.update h.arrived c (h.arrived c ++ [m]) }

/-- The messages of the fragments. -/
def getFragments (env : Env κ ι) (now c : ℕ) : Proxy κ → List (Content κ) → Proxy κ
  | p, [] => p
  | p, con :: cons =>
      getFragments env now c
        (msgGet env p { con := con, request := true, owner := some c, startTs := now }) cons

/-- The messages `ids` become fragments of `o`. -/
def setFragments (p : Proxy κ) (o id : ℕ) (ids : List ℕ) : Proxy κ :=
  ids.foldl (fun p f => p.setMsg f fun q => { q with fragId := id, fragOwner := some o }) p

/-- The request becomes the owner of the fragments `ids`. -/
def setOwner (p : Proxy κ) (m : ℕ) (ids : List ℕ) (f : Fragmentation κ) : Proxy κ :=
  let p' := (setFragments p m p.nextFrag ids).setMsg m fun q =>
    { q with
      con := f.rest
      fragId := p.nextFrag
      fragOwner := some m
      nfrag := ids.length
      fragSeq := f.seq.filterMap fun i => ids[i]? }
  { p' with nextFrag := p.nextFrag + 1, nextMbuf := f.nextMbuf }.note fun h =>
    { h with frags := Function.update h.frags m ids }

/-- The fragments are forwarded. -/
def forwardFragments (env : Env κ ι) (now c : ℕ) (routes : ℕ → Route) :
    Proxy κ → ℕ → List ℕ → Proxy κ
  | p, _, [] => p
  | p, i, m :: ms =>
      forwardFragments env now c routes
        (reqForward env now (noteArrival p c m) c m (routes i)) (i + 1) ms

/-- `req_recv_done` for a request in fragments. -/
def forwardParts (env : Env κ ι) (now : ℕ) (p : Proxy κ) (c m : ℕ) (f : Fragmentation κ)
    (routes : ℕ → Route) : Proxy κ :=
  let ids := List.range' p.nextMsg f.parts.length
  let p := setOwner (getFragments env now c p f.parts) m ids f
  forwardFragments env now c routes (reqMakeReply env now p c m) 0 ids

/-- **`req_recv_done`**, with the distribution of keys and the routes of what is forwarded. -/
def reqRecvDone (env : Env κ ι) (now : ℕ) (p : Proxy κ) (c m : ℕ) (place : ι)
    (routes : ℕ → Route) : Proxy κ :=
  let p := noteArrival p c m
  let q := p.msgs m
  if q.con.mlen = 0 then reqPut now p .empty m
  else if env.quit q.con.regs then
    reqPut now (p.setConn c fun k => { k with eof := true }) .quit m
  else if q.noforward || (env.requireAuth && !(p.conns c).authenticated) then
    eventAddOut (answerLocally env (reqMakeReply env now p c m) c m p.nextMsg) c
  else
    match env.fragment place p.nextMbuf q.con with
    | none =>
        -- the request is put into the queue, and then forwarded like one without fragments
        let p := if q.noreply then p else p.enqueueOut c m
        reqForward env now (reqForwardError env now p c m 0) c m (routes 0)
    | some f =>
        if f.parts.isEmpty then
          reqForward env now
            { p.setMsg m fun q => { q with con := f.rest } with nextMbuf := f.nextMbuf } c m
              (routes 0)
        else forwardParts env now p c m f routes

/-! ### Receiving a response -/

/-- `msg->pre_coalesce` behind the counter, for the response `r` of the fragment `m` of `o`. -/
def coalescePart (env : Env κ ι) (p : Proxy κ) (m r o : ℕ) : Proxy κ :=
  let x := env.preCoalesce (p.msgs m).con (p.msgs r).con (p.msgs o).con
  let p := (p.setMsg r fun q => { q with con := x.1 }).setMsg o fun q => { q with con := x.2.1 }
  if x.2.2 then p.setMsg m fun q => { q with error := true, err := EINVAL } else p

/-- `msg->pre_coalesce` for the response `r` of the request `m`. -/
def preCoalesce (env : Env κ ι) (p : Proxy κ) (m r : ℕ) : Proxy κ :=
  if (p.msgs m).fragId = 0 then p
  else
    let p := bumpOwner p m
    match (p.msgs m).fragOwner with
    | none => p
    | some o => coalescePart env p m r o

/-- A response is thrown away and the connection is to be closed. -/
def dropReply (p : Proxy κ) (s r : ℕ) : Proxy κ :=
  ((msgPut p r).setConn s fun k => { k with err := EINVAL, done := true }).note fun h =>
    { h with mute := Function.update h.mute s true }

/-- The response `r` is linked to the request `m`, which is done. -/
def attach (now : ℕ) (p : Proxy κ) (s m r : ℕ) : Proxy κ :=
  let p := (reqServerDequeueOmsgq p s m).setMsg m fun q => { q with done := true }
  let p := p.setMsg r fun q => { q with times := { q.times with recvServer := now } }
  (link p m r).note fun h => { h with attached := h.attached ++ [(m, r)] }

/-- **`rsp_forward`**: the response belongs to the first request in the out-queue. -/
def rspForward (env : Env κ ι) (now : ℕ) (p : Proxy κ) (s m r : ℕ) : Proxy κ :=
  let p := preCoalesce env (attach now p s m r) m r
  match (p.msgs m).owner with
  | none => p
  | some c => reqDoneFirst env p c

/-- `rsp_filter` for the first request `m` in the out-queue, if it is to be swallowed. -/
def swallowReply (now : ℕ) (p : Proxy κ) (s m r : ℕ) : Proxy κ :=
  let p := (reqServerDequeueOmsgq p s m).setMsg m fun q => { q with done := true }
  reqPut now (msgPut p r) .swallowed m

/-- **`rsp_recv_done`** with `rsp_filter`. -/
def rspRecvDone (env : Env κ ι) (now : ℕ) (p : Proxy κ) (s r : ℕ) : Proxy κ :=
  if (p.msgs r).con.mlen = 0 then msgPut p r
  else
    match (p.outQ s).head? with
    | none => dropReply p s r
    | some m =>
        if env.failure (p.msgs r).con then dropReply p s r
        else if (p.msgs m).swallow then swallowReply now p s m r
        else rspForward env now p s m r

/-! ### Closing a client -/

/-- The loop of `client_close` over the out-queue. -/
def discardOut (now c : ℕ) : Proxy κ → List ℕ → Proxy κ
  | p, [] => p
  | p, m :: ms =>
      let p := p.dequeueOut c m
      if (p.msgs m).done then discardOut now c (reqPut now p .discarded m) ms
      else discardOut now c (p.setMsg m fun q => { q with swallow := true }) ms

/-- The request that is being received is given back, if there is one. -/
def discardPartial (now : ℕ) (p : Proxy κ) (c : ℕ) : Proxy κ :=
  match (p.conns c).rmsg with
  | none => p
  | some m => reqPut now (p.setConn c fun k => { k with rmsg := none }) .incomplete m

/-- **`client_close`** -/
def clientClose (now : ℕ) (p : Proxy κ) (c : ℕ) : Proxy κ :=
  let p := discardPartial now (noteClosing p c) c
  (discardOut now c p (p.outQ c)).setConn c fun k => { k with kind := .closed }

end CacheProxy
