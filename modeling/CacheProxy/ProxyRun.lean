/-
**Runs of the proxy.**

What happens to the proxy is a list of events, in any order and on any number of connections: a
client connects, bytes are read from a client, a client closes its half, a socket takes bytes, a
server answers, a connection is closed.  Each event is one call from the event loop: a connection
that is in error or done when the call returns is closed at once.

A server answers what it was sent.  An answer on a connection is the answer to the first request
the server has received there and not answered; the history keeps them in `inbox`.

Main definitions:

* `Event`, `step`, `run` — events, what one does, and a run;
* `clientRead`, `clientEof`, `serverReply` — the calls that receive;
* `coreTimeout` — requests that expired.
-/

import CacheProxy.Sending

namespace CacheProxy

variable {κ ι : Type}

/-! ### Events -/

/-- A request as the parser found it in the bytes of a client, with the distribution of keys and
the routes that forwarding it meets. -/
structure Incoming (κ ι : Type) where
  con : Content κ
  place : ι
  routes : ℕ → Route

/-- **What can happen.** -/
inductive Event (κ ι : Type) where
  | accept (c : ℕ)
  /-- one read: the requests it completes, and the rest behind them -/
  | clientRead (c : ℕ) (reqs : List (Incoming κ ι)) (rest : Option (Content κ))
  | clientEof (c : ℕ)
  | serverSend (s : ℕ) (ws : List WriteResult)
  | reply (s : ℕ) (con : Content κ)
  | clientSend (c : ℕ) (ws : List WriteResult)
  | serverClose (s err : ℕ)
  | clientClose (c : ℕ)
  /-- a connection to a server that no request waits for -/
  | preconnect (s : ℕ) (connecting : Bool)
  | timeout

/-! ### Receiving -/

/-- `req_get` -/
def reqGet (env : Env κ ι) (now : ℕ) (p : Proxy κ) (c : ℕ) : Proxy κ :=
  msgGet env p
    { con := { regs := env.blank }, request := true, owner := some c, startTs := now }

/-- `req_recv_next`, if the client has not closed its half: the message to read into. -/
def reqRecvNext (env : Env κ ι) (now : ℕ) (p : Proxy κ) (c : ℕ) : Proxy κ × ℕ :=
  match (p.conns c).rmsg with
  | some m => (p, m)
  | none => ((reqGet env now p c).setConn c fun k => { k with rmsg := some p.nextMsg }, p.nextMsg)

/-- `req_recv_next`, if the client has closed its half. -/
def reqRecvEof (now : ℕ) (p : Proxy κ) (c : ℕ) : Proxy κ :=
  let p := discardPartial now p c
  if (p.outQ c).isEmpty then p.setConn c fun k => { k with done := true } else p

/-- What the parser found goes into the message. -/
def setParsed (env : Env κ ι) (now : ℕ) (p : Proxy κ) (m : ℕ) (con : Content κ) : Proxy κ :=
  (p.setMsg m fun q =>
    { q with
      con := con, noreply := env.noreply con.regs,
      noforward := env.noforward con.regs }).observe
    fun h => { h with arrival := Function.update h.arrival m now }

/-- `msg_parsed`: the message behind `m`, if there are more bytes. -/
def splitNext (env : Env κ ι) (now : ℕ) (p : Proxy κ) (c : ℕ) (more : Bool) : Proxy κ :=
  if more then (reqGet env now p c).setConn c fun k => { k with rmsg := some p.nextMsg }
  else p.setConn c fun k => { k with rmsg := none }

/-- The loop of `msg_recv_chain` over the requests in the bytes that were read; `m` is the message
the bytes of the first one are in. -/
def readLoop (env : Env κ ι) (now c : ℕ) (rest : Option (Content κ)) :
    Proxy κ → ℕ → List (Incoming κ ι) → Proxy κ
  | p, m, [] =>
      match rest with
      | none => p
      | some con => p.setMsg m fun q => { q with con := con }
  | p, m, x :: xs =>
      let p := splitNext env now (setParsed env now p m x.con) c (!xs.isEmpty || rest.isSome)
      let p := reqRecvDone env now p c m x.place x.routes
      if (p.conns c).err ≠ 0 then p
      else if (p.conns c).eof then reqRecvEof now p c
      else
        match (p.conns c).rmsg with
        | none => p
        | some m' => readLoop env now c rest p m' xs

/-- The time of a read goes into the message that is read into. -/
def stampRead (now : ℕ) (p : Proxy κ) (m : ℕ) : Proxy κ :=
  p.setMsg m fun q => { q with times := { q.times with recvClient := now } }

/-- A read from a client. -/
def clientRead (env : Env κ ι) (now : ℕ) (p : Proxy κ) (c : ℕ) (reqs : List (Incoming κ ι))
    (rest : Option (Content κ)) : Proxy κ :=
  if (p.conns c).eof then reqRecvEof now p c
  else
    let r := reqRecvNext env now p c
    readLoop env now c rest (stampRead now r.1 r.2) r.2 reqs

/-- A read from a client that has closed its half: an empty message is filtered, a part of a
request is given back. -/
def clientEof (env : Env κ ι) (now : ℕ) (p : Proxy κ) (c : ℕ) : Proxy κ :=
  if (p.conns c).eof then reqRecvEof now p c
  else
    let r := reqRecvNext env now p c
    let p := (stampRead now r.1 r.2).setConn c fun k => { k with eof := true }
    if (p.msgs r.2).con.mlen = 0 then
      reqRecvEof now
        (reqPut now (p.setConn c fun k => { k with rmsg := none }) .empty r.2) c
    else reqRecvEof now p c

/-- The message of an answer of the server `s`: it answers the first request the server has. -/
def getAnswer (env : Env κ ι) (now : ℕ) (p : Proxy κ) (s : ℕ) (con : Content κ) : Proxy κ :=
  (msgGet env p { con := con, request := false, owner := some s, startTs := now }).note fun h =>
    { h with
      answers := Function.update h.answers p.nextMsg (h.inbox s).head?
      inbox := Function.update h.inbox s (h.inbox s).tail }

/-- An answer of a server. -/
def serverReply (env : Env κ ι) (now : ℕ) (p : Proxy κ) (s : ℕ) (con : Content κ) : Proxy κ :=
  rspRecvDone env now (getAnswer env now p s con) s p.nextMsg

/-! ### Steps and runs -/

/-- `core_core` closes a client that is in error or done. -/
def checkClient (now : ℕ) (p : Proxy κ) (c : ℕ) : Proxy κ :=
  if (p.conns c).err ≠ 0 ∨ (p.conns c).done = true then clientClose now p c else p

/-- `core_core` closes a server that is in error or done. -/
def checkServer (env : Env κ ι) (now : ℕ) (p : Proxy κ) (s : ℕ) : Proxy κ :=
  if (p.conns s).err ≠ 0 ∨ (p.conns s).done = true then serverClose env now p s else p

/-- `ETIMEDOUT` -/
def ETIMEDOUT : ℕ := 110

/-- `msg_tmo_min`: the first of the nodes that expire first. -/
def tmoMin : List TmoNode → Option TmoNode
  | [] => none
  | e :: es =>
      match tmoMin es with
      | none => some e
      | some e' => if e.key ≤ e'.key then some e else some e'

/-- A request that has expired: it leaves the tree, and `core_close` is called on its
connection. -/
def closeExpired (env : Env κ ι) (now : ℕ) (p : Proxy κ) (e : TmoNode) : Proxy κ :=
  let p := (msgTmoDelete (noteClosing p e.conn) e.msg).setConn e.conn fun k =>
    { k with err := ETIMEDOUT }
  if (p.conns e.conn).kind = .server then serverClose env now p e.conn
  else p.observe fun o => { o with badClose := true }

/-- The loop of `core_timeout`; the flag says whether it ended. -/
def timeoutLoop (env : Env κ ι) (now : ℕ) : ℕ → Proxy κ → Proxy κ × Bool
  | 0, p => (p, false)
  | fuel + 1, p =>
      match tmoMin p.tmo with
      | none => (p, true)
      | some e =>
          if (p.msgs e.msg).error || (p.msgs e.msg).done then
            timeoutLoop env now fuel (msgTmoDelete p e.msg)
          else if ((now / 1000 : ℕ) : ℤ) < e.key then (p, true)
          else timeoutLoop env now fuel (closeExpired env now p e)

/-- **`core_timeout`** -/
def coreTimeout (env : Env κ ι) (now : ℕ) (p : Proxy κ) : Proxy κ :=
  (timeoutLoop env now (p.tmo.length + 1) p).1

/-- A client's socket takes bytes. -/
def clientSend (env : Env κ ι) (now : ℕ) (p : Proxy κ) (c : ℕ) (ws : List WriteResult) : Proxy κ :=
  (clientSender env now c).msgSend (fun p => (p.outQ c).length) p ws

/-- A server's socket takes bytes. -/
def serverSend (env : Env κ ι) (now : ℕ) (p : Proxy κ) (s : ℕ) (ws : List WriteResult) : Proxy κ :=
  (serverSender env now s).msgSend (fun p => (p.inQ s).length) p ws

/-- **One event** at the time `now`. -/
def step (env : Env κ ι) (now : ℕ) (p : Proxy κ) : Event κ ι → Proxy κ
  | .accept c =>
      if (p.conns c).kind = .unused then
        p.setConn c fun k => { k with kind := .client, sendActive := true }
      else p
  | .clientRead c reqs rest =>
      if (p.conns c).kind = .client then checkClient now (clientRead env now p c reqs rest) c
      else p
  | .clientEof c =>
      if (p.conns c).kind = .client then checkClient now (clientEof env now p c) c else p
  | .serverSend s ws =>
      if (p.conns s).kind = .server then checkServer env now (serverSend env now p s ws) s else p
  | .reply s con =>
      if (p.conns s).kind = .server then checkServer env now (serverReply env now p s con) s else p
  | .clientSend c ws =>
      if (p.conns c).kind = .client then checkClient now (clientSend env now p c ws) c else p
  | .serverClose s err =>
      if (p.conns s).kind = .server then
        serverClose env now (p.setConn s fun k => { k with err := err }) s
      else p
  | .clientClose c => if (p.conns c).kind = .client then clientClose now p c else p
  | .preconnect s connecting =>
      if (p.conns s).kind = .unused then openServer p s connecting else p
  | .timeout => coreTimeout env now p

/-- The proxy before anything happened. -/
def initial (env : Env κ ι) : Proxy κ :=
  { msgs := fun _ => { con := { regs := env.blank }, request := false } }

/-- **A run**: events with their times. -/
def run (env : Env κ ι) : List (ℕ × Event κ ι) → Proxy κ
  | es => es.foldl (fun p e => step env e.1 p e.2) (initial env)

end CacheProxy
