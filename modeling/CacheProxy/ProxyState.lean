/-
**The state of the proxy: messages, connections and their queues.**

Requests and responses are messages on a heap, named by the number `msg->id` that every
`_msg_get` draws anew.  A client connection keeps the requests it still has to answer in its
out-queue; a server connection keeps the requests to be sent in its in-queue and those sent and not
yet answered in its out-queue.  A request and its response are linked through `peer`.

The protocol of the pool is a parameter, `Env`: what its parser found out about a message, how it
fragments a request, and how it puts the responses of fragments together.  Allocations do not fail,
except where `fragment` says so, and the clock is read once for each event.

Next to what the proxy stores there is a `History`, which no function reads: what each server was
sent, which request a response answers, in which order requests arrived and were finished.

The timeout tree is the list of its nodes; what is left of the red-black tree is its least node.

Main definitions:

* `Msg`, `Conn`, `Env`, `Proxy` — messages, connections, the pool's protocol, the state;
* `msgTmoInsert`, `msgTmoDelete` — the timeout tree;
* `msgGet`, `msgPut` — taking a message from the free list and giving it back;
* `reqLog`, `reqPut` — the log of a finished request, and its end.
-/

import CacheProxy.Receive

namespace CacheProxy

/-! ### Messages and connections -/

/-- The bytes of a message with what the parser keeps about them. -/
structure Content (κ : Type) extends MsgBuf where
  regs : κ

/-- The four timestamps of a message, in microseconds. -/
structure Times where
  recvClient : ℕ := 0
  sendServer : ℕ := 0
  recvServer : ℕ := 0
  sendClient : ℕ := 0
  deriving DecidableEq, Repr

/-- **A message** (`struct msg`). -/
structure Msg (κ : Type) where
  con : Content κ
  request : Bool
  owner : Option ℕ := none
  peer : Option ℕ := none
  startTs : ℕ := 0
  times : Times := {}
  fragOwner : Option ℕ := none
  fragSeq : List ℕ := []
  nfrag : ℕ := 0
  nfragDone : ℕ := 0
  fragId : ℕ := 0
  err : ℕ := 0
  error : Bool := false
  ferror : Bool := false
  noreply : Bool := false
  noforward : Bool := false
  done : Bool := false
  fdone : Bool := false
  swallow : Bool := false

/-- What a connection number stands for. -/
inductive ConnKind where
  | unused
  | client
  | server
  | closed
  deriving DecidableEq, Repr

/-- **A connection** (`struct conn`). -/
structure Conn where
  kind : ConnKind := .unused
  imsgQ : List ℕ := []
  omsgQ : List ℕ := []
  rmsg : Option ℕ := none
  smsg : Option ℕ := none
  eof : Bool := false
  done : Bool := false
  connecting : Bool := false
  authenticated : Bool := false
  sendActive : Bool := false
  err : ℕ := 0
  deriving DecidableEq, Repr

/-- A node of the timeout tree: the message, the time it expires, in milliseconds, and the
connection it waits for. -/
structure TmoNode where
  msg : ℕ
  key : ℤ
  conn : ℕ
  deriving DecidableEq, Repr

/-! ### The protocol of the pool -/

/-- What `msg->fragment` made of a request: its own content afterwards, the contents of the
fragments in the order of `frag_msgq`, for each key the place of its fragment, and the next mbuf.
Without fragments the request is forwarded as it is. -/
structure Fragmentation (κ : Type) where
  rest : Content κ
  parts : List (Content κ) := []
  seq : List ℕ := []
  nextMbuf : ℕ

/-- What `msg->reply` does for a request that is answered by the proxy: the text of the answer,
whether the client is authenticated afterwards, and the threshold it set, if any. -/
structure LocalReply where
  text : List Byte
  authenticated : Bool
  threshold : Option ℤ := none

/-- **The pool and its protocol.**  `ι` is what the distribution of keys is computed from. -/
structure Env (κ ι : Type) where
  /-- `mbuf_data_size()` -/
  size : ℕ
  /-- the registers of a message that was not parsed -/
  blank : κ
  /-- `array_n(msg->keys)` -/
  nkeys : κ → ℕ
  noreply : κ → Bool
  quit : κ → Bool
  noforward : κ → Bool
  /-- `msg->fragment`; `none` if an allocation failed -/
  fragment : ι → ℕ → Content κ → Option (Fragmentation κ)
  /-- `msg->failure` -/
  failure : Content κ → Bool
  /-- the part of `msg->pre_coalesce` behind the counter: request, response and owner of the
  fragments to the response, the owner, and whether the request is in error -/
  preCoalesce : Content κ → Content κ → Content κ → Content κ × Content κ × Bool
  /-- `msg->post_coalesce` before its loop: request and response to the response -/
  coalesceHead : ℕ → Content κ → Content κ → Option (Content κ)
  /-- whether `msg->post_coalesce` has a loop over the keys -/
  gathers : κ → Bool
  /-- the body of that loop: from the response of a fragment to the response of the owner -/
  copyBulk : ℕ → Content κ → Content κ → Option (Content κ × Content κ)
  /-- `msg->post_coalesce` behind its loop -/
  coalesceTail : ℕ → Content κ → Content κ → Content κ
  /-- whether `msg->post_coalesce` closes the client if the owner is in error -/
  closesOnError : Bool
  /-- `msg->reply`, for a client that is authenticated or not -/
  reply : Content κ → Bool → LocalReply
  /-- `-ERR` or `SERVER_ERROR` -/
  protstr : List Byte
  strerror : ℕ → List Byte
  requireAuth : Bool
  /-- the message of `add_auth` -/
  auth : Content κ
  /-- the message of `post_connect`, if the pool selects a database -/
  select : Option (Content κ)
  /-- `pool->timeout`, in milliseconds -/
  timeout : ℤ
  /-- `trace_conf->slow_threshold`, if `trace_conf` is loaded -/
  trace : Option ℤ
  /-- what a message from `malloc` holds in its timestamps -/
  junk : ℕ → Times

/-! ### History -/

/-- The places from which `req_put` is called. -/
inductive PutSite where
  /-- `req_filter`, an empty request -/
  | empty
  /-- `req_filter`, `quit` -/
  | quit
  /-- a request that was not received completely -/
  | incomplete
  /-- `req_forward_error`, a noreply request -/
  | unforwarded
  /-- `req_send_done`, a noreply request -/
  | unanswered
  /-- `rsp_filter`, a request whose client is gone, or one of the proxy's own -/
  | swallowed
  /-- `server_close`, a noreply request or one whose client is gone -/
  | dropped
  /-- `client_close`, a request that is done -/
  | discarded
  /-- `rsp_make_error`, a fragment -/
  | fragment
  /-- `rsp_send_done` -/
  | finished
  deriving DecidableEq, Repr

/-- How a call of `req_log` ends. -/
inductive LogOutcome where
  /-- without a record -/
  | silent
  /-- reading `rsp->recv_server_time` with `rsp == NULL` -/
  | nullPeer
  /-- reading `rsp->owner->sd` with `rsp->owner == NULL` -/
  | nullOwner
  /-- reading `server->owner` with a `conn->owner` that is no server: `NULL` if the connection was
  closed, the pool if it is one of a client -/
  | noServer
  /-- a record with this difference of times -/
  | record (diff : ℕ)
  deriving DecidableEq, Repr

/-- A call of `req_put`: where and when, and what `req_log` reads, the request, its response, what
the response's connection is, and `g_slow_threshold`. -/
structure PutCall (κ : Type) where
  site : PutSite
  now : ℕ
  id : ℕ
  req : Msg κ
  rsp : Option (Msg κ)
  conn : ConnKind
  threshold : ℤ

/-- Who made a request. -/
inductive Role where
  | client
  | auth
  | select
  deriving DecidableEq, Repr

/-- A use of `frag_owner`: of which request, which message it is, and whether that is a message of
the same client that was not given back and is in the client's queue. -/
structure Deref where
  msg : ℕ
  owner : ℕ
  ok : Bool
  deriving DecidableEq, Repr

/-- **What has happened** to messages and queues, as far as the state does not say it. -/
structure History (κ : Type) where
  /-- the requests a server has received and not answered -/
  inbox : ℕ → List ℕ := fun _ => []
  /-- the request a response was made for -/
  answers : ℕ → Option ℕ := fun _ => none
  /-- the pairs of request and response that `rsp_forward` linked -/
  attached : List (ℕ × ℕ) := []
  /-- the requests of a client, each followed by its fragments, in the order they came -/
  arrived : ℕ → List ℕ := fun _ => []
  /-- the pairs of request and non-empty response finished on a client -/
  finished : ℕ → List (ℕ × ℕ) := fun _ => []
  /-- the fragments of a request -/
  frags : ℕ → List ℕ := fun _ => []
  /-- the requests that could not be forwarded -/
  failed : ℕ → Bool := fun _ => false
  /-- the connections that are being closed or are closed -/
  closing : ℕ → Bool := fun _ => false
  /-- the servers on which a response was thrown away -/
  mute : ℕ → Bool := fun _ => false
  role : ℕ → Role := fun _ => .client
  /-- the requests that were written to a server -/
  sentTo : ℕ → List ℕ := fun _ => []
  puts : List (PutCall κ) := []
  derefs : List Deref := []

/-- What can be seen from outside: the bytes written to a connection, how often `post_coalesce` was
called for a request, and the time of the read that brought a request's last byte. -/
structure Observed where
  written : ℕ → List Byte := fun _ => []
  coalesced : ℕ → ℕ := fun _ => 0
  arrival : ℕ → ℕ := fun _ => 0
  /-- whether a connection was closed that was not open -/
  badClose : Bool := false

/-- **The state of the proxy.** -/
structure Proxy (κ : Type) where
  msgs : ℕ → Msg κ
  conns : ℕ → Conn := fun _ => {}
  /-- the next `msg->id` -/
  nextMsg : ℕ := 0
  nextFrag : ℕ := 1
  nextMbuf : ℕ := 0
  /-- whether a message was given back -/
  freed : ℕ → Bool := fun _ => false
  /-- the length of `free_msgq` -/
  nfree : ℕ := 0
  /-- `g_slow_threshold` -/
  slowThreshold : ℤ := 0
  /-- the timeout tree -/
  tmo : List TmoNode := []
  hist : History κ := {}
  obs : Observed := {}

variable {κ ι : Type}

namespace Proxy

/-- Changes one message. -/
@[simps] def setMsg (p : Proxy κ) (m : ℕ) (f : Msg κ → Msg κ) : Proxy κ :=
  { p with msgs := Function.update p.msgs m (f (p.msgs m)) }

/-- Changes one connection. -/
@[simps] def setConn (p : Proxy κ) (c : ℕ) (f : Conn → Conn) : Proxy κ :=
  { p with conns := Function.update p.conns c (f (p.conns c)) }

/-- Adds to the history. -/
@[simps] def note (p : Proxy κ) (f : History κ → History κ) : Proxy κ := { p with hist := f p.hist }

/-- Adds to what was seen. -/
@[simps] def observe (p : Proxy κ) (f : Observed → Observed) : Proxy κ := { p with obs := f p.obs }

/-- A message that was taken and not given back. -/
def Live (p : Proxy κ) (m : ℕ) : Prop := m < p.nextMsg ∧ p.freed m = false

/-- The out-queue of a connection. -/
def outQ (p : Proxy κ) (c : ℕ) : List ℕ := (p.conns c).omsgQ

/-- The in-queue of a connection. -/
def inQ (p : Proxy κ) (s : ℕ) : List ℕ := (p.conns s).imsgQ

/-! ### Queues -/

/-- Changes the in-queue of a connection. -/
def setIn (p : Proxy κ) (s : ℕ) (f : List ℕ → List ℕ) : Proxy κ :=
  p.setConn s fun k => { k with imsgQ := f k.imsgQ }

/-- Changes the out-queue of a connection. -/
def setOut (p : Proxy κ) (c : ℕ) (f : List ℕ → List ℕ) : Proxy κ :=
  p.setConn c fun k => { k with omsgQ := f k.omsgQ }

/-- `TAILQ_INSERT_TAIL` on the out-queue -/
abbrev enqueueOut (p : Proxy κ) (c m : ℕ) : Proxy κ := p.setOut c fun q => q ++ [m]

/-- `TAILQ_INSERT_TAIL` on the in-queue -/
abbrev enqueueIn (p : Proxy κ) (s m : ℕ) : Proxy κ := p.setIn s fun q => q ++ [m]

/-- `TAILQ_INSERT_HEAD` on the in-queue -/
abbrev enqueueInHead (p : Proxy κ) (s m : ℕ) : Proxy κ := p.setIn s fun q => m :: q

/-- `TAILQ_REMOVE` on the out-queue -/
abbrev dequeueOut (p : Proxy κ) (c m : ℕ) : Proxy κ := p.setOut c fun q => q.erase m

/-- `TAILQ_REMOVE` on the in-queue -/
abbrev dequeueIn (p : Proxy κ) (s m : ℕ) : Proxy κ := p.setIn s fun q => q.erase m

end Proxy

/-! ### The timeout tree -/

/-- `msg_tmo_insert` -/
def msgTmoInsert (env : Env κ ι) (now : ℕ) (p : Proxy κ) (m s : ℕ) : Proxy κ :=
  if env.timeout ≤ 0 then p
  else { p with tmo := p.tmo ++ [⟨m, (now / 1000 : ℕ) + env.timeout, s⟩] }

/-- `msg_tmo_delete` -/
def msgTmoDelete (p : Proxy κ) (m : ℕ) : Proxy κ :=
  { p with tmo := p.tmo.eraseP fun e => e.msg == m }

/-- `req_server_enqueue_imsgq` -/
def reqServerEnqueueImsgq (env : Env κ ι) (now : ℕ) (p : Proxy κ) (s m : ℕ) : Proxy κ :=
  (if (p.msgs m).noreply then p else msgTmoInsert env now p m s).enqueueIn s m

/-- `req_server_enqueue_imsgq_head` -/
def reqServerEnqueueImsgqHead (env : Env κ ι) (now : ℕ) (p : Proxy κ) (s m : ℕ) : Proxy κ :=
  (if (p.msgs m).noreply then p else msgTmoInsert env now p m s).enqueueInHead s m

/-- `req_server_dequeue_omsgq` -/
def reqServerDequeueOmsgq (p : Proxy κ) (s m : ℕ) : Proxy κ := (msgTmoDelete p m).dequeueOut s m

/-! ### Taking and giving back messages -/

/-- `_msg_get`, and what `msg_get` and its callers set: the timestamps are not initialised, so they
are zero in a message from the free list and anything in one from `malloc`. -/
def msgGet (env : Env κ ι) (p : Proxy κ) (m : Msg κ) : Proxy κ :=
  { p with
    msgs := Function.update p.msgs p.nextMsg
      { m with times := if p.nfree = 0 then env.junk p.nextMsg else {} }
    nextMsg := p.nextMsg + 1
    nfree := p.nfree - 1 }

/-- `msg_put` -/
def msgPut (p : Proxy κ) (m : ℕ) : Proxy κ :=
  { p with freed := Function.update p.freed m true, nfree := p.nfree + 1 }

/-! ### The end of a request -/

/-- `a - b` of two `uint64_t`. -/
def sub64 (a b : ℕ) : ℕ := (a + (2 ^ 64 - b % 2 ^ 64)) % 2 ^ 64

/-- `(int)n` for a `uint64_t`. -/
def toInt32 (n : ℕ) : ℤ :=
  if n % 2 ^ 32 < 2 ^ 31 then ((n % 2 ^ 32 : ℕ) : ℤ) else ((n % 2 ^ 32 : ℕ) : ℤ) - 2 ^ 32

/-- The variable `dur` of `req_log`, in milliseconds. -/
def logDur (t : Times) : ℤ := (toInt32 (sub64 t.sendClient t.recvClient)).tdiv 1000

/-- The threshold `req_log` compares with. -/
def slowThreshold (g conf : ℤ) : ℤ := if 0 < g then g else conf

/-- Whether `req_log` gets to the response: the request is not a fragment of another one, not
empty, has a start time and a key. -/
def logged (env : Env κ ι) (id : ℕ) (q : Msg κ) : Bool :=
  !(q.fragId != 0 && q.fragOwner != some id) && q.con.mlen != 0 && q.startTs != 0 &&
    env.nkeys q.con.regs != 0

/-- Whether `req_log` makes a record of a request that has a response: tracing is on, the request
was sent to a server, and its duration is over the threshold. -/
def slow (env : Env κ ι) (g : ℤ) (q : Msg κ) : Bool :=
  match env.trace with
  | none => false
  | some conf =>
      q.times.sendServer != 0 && slowThreshold g conf != 0 &&
        decide (slowThreshold g conf < logDur q.times)

/-- `req_log` -/
def reqLog (env : Env κ ι) (x : PutCall κ) : LogOutcome :=
  if !logged env x.id x.req then .silent
  else
    match x.rsp with
    | none => .nullPeer
    | some r =>
        if !slow env x.threshold x.req then .silent
        else
          match r.owner with
          | none => .nullOwner
          | some _ =>
              if x.conn = .server then .record (sub64 x.req.times.sendClient x.req.times.recvClient)
              else .noServer

/-- The response of a request is taken from it and given back, if there is one. -/
def dropPeer (p : Proxy κ) (m : ℕ) : Proxy κ :=
  match (p.msgs m).peer with
  | none => p
  | some r =>
      msgPut ((p.setMsg m fun q => { q with peer := none }).setMsg r fun q =>
        { q with peer := none }) r

/-- What the connection of the response of a request is. -/
def peerConn (p : Proxy κ) (m : ℕ) : ConnKind :=
  match (p.msgs m).peer.bind fun r => (p.msgs r).owner with
  | none => .unused
  | some s => (p.conns s).kind

/-- `req_put` -/
def reqPut (now : ℕ) (p : Proxy κ) (site : PutSite) (m : ℕ) : Proxy κ :=
  let call : PutCall κ :=
    ⟨site, now, m, p.msgs m, (p.msgs m).peer.map p.msgs, peerConn p m, p.slowThreshold⟩
  msgPut (msgTmoDelete (dropPeer (p.note fun h => { h with puts := h.puts ++ [call] }) m) m) m

end CacheProxy
