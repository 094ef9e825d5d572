/-
**Sending.**

`msg_send_chain` collects the messages that are ready on a connection, hands their mbufs to
`writev`, and then goes through the same messages with the number of bytes that were written: a
message whose mbufs are all sent is done, one that was sent in part stays, and once no written
bytes are left only messages without bytes are done.  The same loop serves both directions; a
connection brings its own `send_next` and `send_done`.

Main definitions:

* `addIov`, `consume`, `chainMsgs`, `finishMsgs`, `msgSendChain`, `msgSend` — the loops;
* `rspMakeError`, `rspSendNext`, `rspSendDone` — a client;
* `reqSendNext`, `reqSendDone` — a server.
-/

import CacheProxy.Forwarding

namespace CacheProxy

variable {κ ι : Type}

/-! ### The loops of `msg_send_chain` -/

/-- `NC_IOV_MAX` -/
def iovMax : ℕ := 128

/-- What `writev` does. -/
inductive WriteResult where
  | sent (n : ℕ)
  | again
  | error (err : ℕ)
  deriving DecidableEq, Repr

/-- The bytes that were sent, of `nsend` that were to be sent. -/
def WriteResult.nsent : WriteResult → ℕ → ℕ
  | .sent n, nsend => min n nsend
  | _, _ => 0

/-- Whether the socket takes more: `send_ready` stays set if all bytes were sent, and if there
were none and `writev` was not called. -/
def WriteResult.ready : WriteResult → ℕ → Bool
  | .sent n, nsend => decide (nsend ≤ n)
  | _, nsend => decide (nsend = 0)

/-- The error of the socket, if `writev` was called. -/
def WriteResult.err : WriteResult → ℕ → ℕ
  | .error e, nsend => if nsend = 0 then 0 else e
  | _, _ => 0

/-- The mbufs of a message go into the vector: the entries used, and the bytes to send. -/
def addIov : List Mbuf → ℕ → ℕ → ℕ × ℕ
  | [], iov, nsend => (iov, nsend)
  | b :: bs, iov, nsend =>
      if iov < iovMax then
        if b.body.isEmpty then addIov bs iov nsend
        else addIov bs (iov + 1) (nsend + mbufLength b)
      else (iov, nsend)

/-- The mbufs of a message after `nsent` more bytes were sent: the mbufs, the bytes that are left
for the messages behind, and whether the message was sent completely. -/
def consume : List Mbuf → ℕ → List Mbuf × ℕ × Bool
  | [], nsent => ([], nsent, true)
  | b :: bs, nsent =>
      if mbufLength b ≤ nsent then
        let r := consume bs (nsent - mbufLength b)
        (b.advance (mbufLength b) :: r.1, r.2)
      else (b.advance nsent :: bs, 0, false)

/-- A connection's part in sending. -/
structure Sender (κ : Type) where
  conn : ℕ
  /-- `conn->send_next` -/
  next : Proxy κ → Proxy κ × Option ℕ
  /-- what `msg_send_chain` does with a message that was sent completely -/
  sent : Proxy κ → ℕ → Proxy κ
  /-- `conn->send_done` -/
  done : Proxy κ → ℕ → Proxy κ

namespace Sender

variable (S : Sender κ)

/-- The first loop: the messages to be sent, and the number of their bytes. -/
def chainMsgs : ℕ → Proxy κ → ℕ → ℕ → ℕ → List ℕ → Proxy κ × List ℕ × ℕ
  | 0, p, _, _, nsend, ms => (p, ms, nsend)
  | fuel + 1, p, m, iov, nsend, ms =>
      let a := addIov (p.msgs m).con.mhdr iov nsend
      if iovMax ≤ a.1 then (p, ms ++ [m], a.2)
      else
        match S.next p with
        | (p, none) => (p, ms ++ [m], a.2)
        | (p, some m') => chainMsgs fuel p m' a.1 a.2 (ms ++ [m])

/-- `nsent` bytes of the message are sent, as far as it has them. -/
def sendBytes (p : Proxy κ) (m nsent : ℕ) : Proxy κ :=
  let con := (p.msgs m).con
  (p.setMsg m fun q => { q with con := { con with mhdr := (consume con.mhdr nsent).1 } }).observe
    fun h => { h with
      written := Function.update h.written S.conn
        (h.written S.conn ++ con.toMsgBuf.bytes.take nsent) }

/-- The second loop. -/
def finishMsgs : Proxy κ → List ℕ → ℕ → Proxy κ
  | p, [], _ => p
  | p, m :: ms, nsent =>
      if nsent = 0 then
        if (p.msgs m).con.mlen = 0 then finishMsgs (S.done p m) ms 0 else finishMsgs p ms 0
      else
        let r := consume (p.msgs m).con.mhdr nsent
        let p := S.sendBytes p m nsent
        if r.2.2 then finishMsgs (S.done (S.sent p m) m) ms r.2.1 else finishMsgs p ms 0

/-- `msg_send_chain` from the message `m` on; the flag says whether `send_ready` stays set. -/
def msgSendChain (fuel : ℕ) (p : Proxy κ) (m : ℕ) (w : WriteResult) : Proxy κ × Bool :=
  let r := S.chainMsgs fuel p m 0 0 []
  let p := r.1.setConn S.conn fun k =>
    { k with smsg := none, err := if w.err r.2.2 = 0 then k.err else w.err r.2.2 }
  (S.finishMsgs p r.2.1 (w.nsent r.2.2), w.ready r.2.2)

/-- `msg_send`, as long as there are results of `writev`. -/
def msgSend (fuel : Proxy κ → ℕ) : Proxy κ → List WriteResult → Proxy κ
  | p, [] => p
  | p, w :: ws =>
      match S.next p with
      | (p, none) => p
      | (p, some m) =>
          let r := S.msgSendChain (fuel p) p m w
          if r.2 then msgSend fuel r.1 ws else r.1

end Sender

/-! ### A client -/

/-- The element behind `m`. -/
def successor (q : List ℕ) (m : ℕ) : Option ℕ := (q.dropWhile (· != m)).tail.head?

/-- The line that `msg_get_error` prints. -/
def errorLine (env : Env κ ι) (err : ℕ) : List Byte :=
  (env.protstr ++ [32] ++ (if err = 0 then str "unknown" else env.strerror err) ++
    [CR, LF]).take (env.size - 1)

/-- `msg_get_error`, for the request `m`. -/
def getError (env : Env κ ι) (p : Proxy κ) (m err : ℕ) : Proxy κ :=
  let line := errorLine env err
  let con : Content κ :=
    { mhdr := [mbufCopy (mbufGet p.nextMbuf) line], mlen := wrap32 line.length, regs := env.blank }
  let p' := msgGet env p { con := con, request := false }
  { p' with nextMbuf := p.nextMbuf + 1 }.note fun h =>
    { h with answers := Function.update h.answers p.nextMsg (some m) }

/-- The loop of `rsp_make_error`: the fragments leave the queue; the error is the first one. -/
def dropFragments (now c : ℕ) : Proxy κ → List ℕ → ℕ → Proxy κ × ℕ
  | p, [], err => (p, err)
  | p, m :: ms, err =>
      let p := p.dequeueOut c m
      dropFragments now c (reqPut now p .fragment m) ms
        (if err = 0 then (p.msgs m).err else err)

/-- The fragments of `rsp_make_error`. -/
def fragmentsBehind (p : Proxy κ) (c m : ℕ) : List ℕ :=
  if (p.msgs m).fragId = 0 then []
  else ((p.outQ c).dropWhile (· != m)).tail.takeWhile fun k =>
    (p.msgs k).fragId == (p.msgs m).fragId

/-- `rsp_make_error`, and the link of the new response that `rsp_send_next` makes. -/
def rspMakeError (env : Env κ ι) (now : ℕ) (p : Proxy κ) (c m : ℕ) : Proxy κ :=
  let r := dropFragments now c p (fragmentsBehind p c m)
    (if (p.msgs m).fragId = 0 then (p.msgs m).err else 0)
  let p := dropPeer r.1 m
  link (getError env p m r.2) m p.nextMsg

/-- `rsp_send_next` for the request `m` that follows in the queue. -/
def rspSendReq (env : Env κ ι) (now : ℕ) (p : Proxy κ) (c m : ℕ) : Proxy κ × Option ℕ :=
  let d := reqDone env p c m
  if !d.2 then (d.1.setConn c fun k => { k with smsg := none }, none)
  else
    let e := reqError d.1 c m
    let p := if e.2 then rspMakeError env now e.1 c m else e.1
    (p.setConn c fun k => { k with smsg := (p.msgs m).peer }, (p.msgs m).peer)

/-- **`rsp_send_next`** -/
def rspSendNext (env : Env κ ι) (now c : ℕ) (p : Proxy κ) : Proxy κ × Option ℕ :=
  match (p.outQ c).head? with
  | none =>
      let p := if (p.conns c).eof then p.setConn c fun k => { k with done := true } else p
      (eventDelOut p c, none)
  | some first =>
      let d := reqDone env p c first
      if !d.2 then (eventDelOut d.1 c, none)
      else
        let p := d.1
        let following := match (p.conns c).smsg with
          | none => some first
          | some r => (p.msgs r).peer.bind (successor (p.outQ c))
        match following with
        | none => (p.setConn c fun k => { k with smsg := none }, none)
        | some m => rspSendReq env now p c m

/-- Adds a finished response to the history, if it is not empty. -/
def noteFinished (p : Proxy κ) (c m r : ℕ) : Proxy κ :=
  if (p.msgs r).con.mlen = 0 then p
  else p.note fun h =>
    { h with finished := Function.update h.finished c (h.finished c ++ [(m, r)]) }

/-- **`rsp_send_done`** -/
def rspSendDone (now c : ℕ) (p : Proxy κ) (r : ℕ) : Proxy κ :=
  match (p.msgs r).peer with
  | none => p
  | some m =>
      let p := (noteFinished p c m r).dequeueOut c m
      let p := p.setMsg m fun q => { q with times := { q.times with sendClient := now } }
      reqPut now p .finished m

/-- How a client sends. -/
def clientSender (env : Env κ ι) (now c : ℕ) : Sender κ where
  conn := c
  next := rspSendNext env now c
  sent := fun p _ => p
  done := rspSendDone now c

/-! ### A server -/

/-- `server_connected` with `post_connect`; the nested `msg_send` is a send like every other. -/
def serverConnected (env : Env κ ι) (now : ℕ) (p : Proxy κ) (s : ℕ) : Proxy κ :=
  let p := p.setConn s fun k => { k with connecting := false }
  match env.select with
  | none => p
  | some con =>
      let p' := (msgGet env p { con := con, request := true, startTs := now, swallow := true }).note
        fun h => { h with role := Function.update h.role p.nextMsg .select }
      reqServerEnqueueImsgqHead env now p' s p.nextMsg

/-- **`req_send_next`** -/
def reqSendNext (env : Env κ ι) (now s : ℕ) (p : Proxy κ) : Proxy κ × Option ℕ :=
  let p := if (p.conns s).connecting then serverConnected env now p s else p
  match (p.inQ s).head? with
  | none => (eventDelOut p s, none)
  | some first =>
      let following := match (p.conns s).smsg with
        | none => some first
        | some m => successor (p.inQ s) m
      (p.setConn s fun k => { k with smsg := following }, following)

/-- The request was sent completely: the time is taken, and the server has it. -/
def reqSent (now s : ℕ) (p : Proxy κ) (m : ℕ) : Proxy κ :=
  (p.setMsg m fun q => { q with times := { q.times with sendServer := now } }).note fun h =>
    { h with
      sentTo := Function.update h.sentTo s (h.sentTo s ++ [m])
      inbox := if (p.msgs m).noreply then h.inbox
        else Function.update h.inbox s (h.inbox s ++ [m]) }

/-- **`req_send_done`** -/
def reqSendDone (now s : ℕ) (p : Proxy κ) (m : ℕ) : Proxy κ :=
  let p := p.dequeueIn s m
  if (p.msgs m).noreply then reqPut now p .unanswered m else p.enqueueOut s m

/-- How a server sends. -/
def serverSender (env : Env κ ι) (now s : ℕ) : Sender κ where
  conn := s
  next := reqSendNext env now s
  sent := reqSent now s
  done := reqSendDone now s

end CacheProxy
