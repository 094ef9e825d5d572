/-
**The ledger: who holds which message.**

What the proxy does to bytes and what it does to queues are two things.  The ledger is the second:
which connection has a request in which queue, which response a request is linked to, which
requests are fragments of which, and what has happened to them, without the contents of messages.
Its transitions are the *moves*.  Every handler of the proxy is a sequence of moves, so an
invariant of the queues is looked at once for each move and not once for each handler.

A move comes with what the handler knows when it makes it.  Messages that a handler has taken and
not yet queued are on *hold*: no move touches them.

Main definitions:

* `Ledger` — the queues, links and flags;
* `Move` — the moves.
-/

import CacheProxy.Grouping
import CacheProxy.ProxyRun

namespace CacheProxy

open Function (update)

/-- A call of `req_put`, as far as the ledger knows of it. -/
structure PutNote where
  site : PutSite
  now : ℕ
  id : ℕ
  peer : Option ℕ
  /-- the response belongs to no connection -/
  ownerless : Bool
  fault : Bool
  startTs : ℕ
  times : Times
  fragId : ℕ
  fragOwner : Option ℕ
  deriving DecidableEq

/-- **The ledger** of the proxy. -/
@[ext] structure Ledger where
  nextMsg : ℕ
  nextFrag : ℕ
  freed : ℕ → Bool
  tmo : List TmoNode
  kind : ℕ → ConnKind
  inQ : ℕ → List ℕ
  outQ : ℕ → List ℕ
  rmsg : ℕ → Option ℕ
  smsg : ℕ → Option ℕ
  /-- the connection waits for its socket, or is in error -/
  awake : ℕ → Bool
  connecting : ℕ → Bool
  authenticated : ℕ → Bool
  request : ℕ → Bool
  owner : ℕ → Option ℕ
  peer : ℕ → Option ℕ
  fragOwner : ℕ → Option ℕ
  startTs : ℕ → ℕ
  times : ℕ → Times
  fragSeq : ℕ → List ℕ
  fragId : ℕ → ℕ
  nfrag : ℕ → ℕ
  nfragDone : ℕ → ℕ
  noreply : ℕ → Bool
  done : ℕ → Bool
  fdone : ℕ → Bool
  swallow : ℕ → Bool
  /-- the message is in error -/
  fault : ℕ → Bool
  /-- the recorded length of the message is zero -/
  bare : ℕ → Bool
  inbox : ℕ → List ℕ
  answers : ℕ → Option ℕ
  attached : List (ℕ × ℕ)
  arrived : ℕ → List ℕ
  finished : ℕ → List (ℕ × ℕ)
  frags : ℕ → List ℕ
  failed : ℕ → Bool
  closing : ℕ → Bool
  mute : ℕ → Bool
  role : ℕ → Role
  sentTo : ℕ → List ℕ
  arrival : ℕ → ℕ
  puts : List PutNote
  /-- every `frag_owner` that was followed was a queued message of the same client -/
  sound : Bool
  /-- a connection was closed that was not open -/
  stray : Bool

namespace Ledger

/-! ### Places -/

/-- A message that was taken and not given back. -/
@[grind] def Live (b : Ledger) (m : ℕ) : Prop := m < b.nextMsg ∧ b.freed m = false

/-- A request is in a queue of the server `s`. -/
@[grind] def InServer (b : Ledger) (s m : ℕ) : Prop := b.kind s = .server ∧
  (m ∈ b.inQ s ∨ m ∈ b.outQ s)

/-- A request is in the queue of the client `c`. -/
@[grind] def InClient (b : Ledger) (c m : ℕ) : Prop := b.kind c = .client ∧ m ∈ b.outQ c

/-- No client is being closed. -/
@[grind] def Calm (b : Ledger) : Prop := ∀ c, b.kind c = .client → b.closing c = false

/-- **A request that no server has been given**: it is not linked, not done and not in the timeout
tree, and if it is in a queue, then in that of a client. -/
@[grind] def Unsent (b : Ledger) (m : ℕ) : Prop :=
  b.Live m ∧ b.request m = true ∧ b.done m = false ∧ b.fdone m = false ∧ b.peer m = none ∧
    (∀ c, m ∉ b.inQ c) ∧ (∀ c, m ∈ b.outQ c → b.kind c = .client) ∧ (∀ e ∈ b.tmo, e.msg ≠ m) ∧
    b.failed m = false ∧ b.role m = .client ∧ b.swallow m = false

/-- A request that is in no queue at all. -/
@[grind] def Loose (b : Ledger) (m : ℕ) : Prop := b.Unsent m ∧ ∀ c, m ∉ b.outQ c

/-- A message that no handler holds and that is not being received. -/
@[grind] def Apart (hold : ℕ → Prop) (b : Ledger) (m : ℕ) : Prop := ¬ hold m ∧ ∀ c,
  b.rmsg c ≠ some m

/-- A request that has just arrived on the client `c` and is about to be queued there. -/
structure Joins (hold : ℕ → Prop) (b : Ledger) (c m : ℕ) : Prop where
  kind : b.kind c = .client
  closing : b.closing c = false
  loose : Loose b m
  apart : Apart hold b m
  owner : b.owner m = some c
  order : ∃ before, b.arrived c = before ++ [m] ∧
    ((b.finished c).map Prod.fst ++ b.outQ c).Sublist before

section Unsent

variable {b : Ledger} {m : ℕ} (h : b.Unsent m)

include h

theorem Unsent.live : b.Live m := h.1

theorem Unsent.request : b.request m = true := h.2.1

theorem Unsent.done : b.done m = false := h.2.2.1

theorem Unsent.fdone : b.fdone m = false := h.2.2.2.1

theorem Unsent.peer : b.peer m = none := h.2.2.2.2.1

theorem Unsent.inQ (c : ℕ) : m ∉ b.inQ c := h.2.2.2.2.2.1 c

theorem Unsent.kind {c : ℕ} (hc : m ∈ b.outQ c) : b.kind c = .client := h.2.2.2.2.2.2.1 c hc

theorem Unsent.tmo {e : TmoNode} (he : e ∈ b.tmo) : e.msg ≠ m := h.2.2.2.2.2.2.2.1 e he

theorem Unsent.failed : b.failed m = false := h.2.2.2.2.2.2.2.2.1

theorem Unsent.role : b.role m = .client := h.2.2.2.2.2.2.2.2.2.1

theorem Unsent.swallow : b.swallow m = false := h.2.2.2.2.2.2.2.2.2.2

theorem Unsent.not_inServer (s : ℕ) : ¬ b.InServer s m := by
  rintro ⟨hs, hi | ho⟩
  · exact h.inQ s hi
  · simpa [hs] using h.kind ho

end Unsent

/-- The neighbours of a request in its queue that have its fragment id. -/
def neighbours (b : Ledger) (c m : ℕ) : List ℕ := around b.fragId (b.outQ c) m

/-- A request in the queue of the client `c` is done, and so are its fragments. -/
def Over (b : Ledger) (c m : ℕ) : Prop :=
  b.done m = true ∧ (b.fragId m = 0 ∨ b.fdone m = true ∨
    b.nfrag m ≤ b.nfragDone m ∧ ∀ k ∈ b.outQ c, b.fragId k = b.fragId m → b.done k = true)

/-- The first request of a client is done, and so are its fragments. -/
def Ready (b : Ledger) (c : ℕ) : Prop := ∃ m rest, b.outQ c = m :: rest ∧ b.Over c m

/-! ### Parts of moves -/

/-- A message is taken. -/
def take (b : Ledger) (request : Bool) (owner : Option ℕ) (swallow bare : Bool) : Ledger :=
  { b with
    nextMsg := b.nextMsg + 1
    request := update b.request b.nextMsg request
    owner := update b.owner b.nextMsg owner
    peer := update b.peer b.nextMsg none
    fragOwner := update b.fragOwner b.nextMsg none
    fragId := update b.fragId b.nextMsg 0
    nfrag := update b.nfrag b.nextMsg 0
    nfragDone := update b.nfragDone b.nextMsg 0
    noreply := update b.noreply b.nextMsg false
    done := update b.done b.nextMsg false
    fdone := update b.fdone b.nextMsg false
    swallow := update b.swallow b.nextMsg swallow
    fault := update b.fault b.nextMsg false
    bare := update b.bare b.nextMsg bare }

/-- A message is given back. -/
def free (b : Ledger) (m : ℕ) : Ledger := { b with freed := update b.freed m true }

/-- The response of a request, if it has one, is taken from it and given back. -/
def unlink (b : Ledger) (m : ℕ) : Ledger :=
  { b with
    peer := fun k => if k = m ∨ b.peer m = some k then none else b.peer k
    freed := fun k => b.freed k || b.peer m == some k }

/-- A node leaves the timeout tree. -/
def untime (b : Ledger) (m : ℕ) : Ledger := { b with tmo := b.tmo.eraseP fun e => e.msg == m }

/-- A request and its response are given back. -/
def put (b : Ledger) (m : ℕ) : Ledger := ((b.unlink m).untime m).free m

/-- A response is linked to a request. -/
def link (b : Ledger) (m r : ℕ) : Ledger :=
  { b with peer := update (update b.peer m (some r)) r (some m) }

/-- What is known of a request when it is given back. -/
def call (b : Ledger) (site : PutSite) (now m : ℕ) : PutNote where
  site := site
  now := now
  id := m
  peer := b.peer m
  ownerless := (b.peer m).any fun r => (b.owner r).isNone
  fault := b.fault m
  startTs := b.startTs m
  times := b.times m
  fragId := b.fragId m
  fragOwner := b.fragOwner m

/-- A request leaves the queues of a server. -/
def leave (b : Ledger) (s m : ℕ) : Ledger :=
  { b with
    inQ := update b.inQ s ((b.inQ s).erase m)
    outQ := update b.outQ s ((b.outQ s).erase m)
    tmo := if m ∈ b.outQ s then b.tmo.eraseP (fun e => e.msg == m) else b.tmo }

/-- A request leaves the queue of its client. -/
def retire (b : Ledger) (c m : ℕ) : Ledger :=
  { b with outQ := update b.outQ c ((b.outQ c).erase m) }

/-- A message is put into the timeout tree. -/
def time (b : Ledger) (timeout key : ℤ) (s m : ℕ) : Ledger :=
  { b with tmo := if b.noreply m = true ∨ timeout ≤ 0 then b.tmo else b.tmo ++ [⟨m, key, s⟩] }

/-- The time of taking a message, and what stands in its timestamps; it has no fragments. -/
def start (b : Ledger) (m now : ℕ) (times : Times) : Ledger :=
  { b with
    startTs := update b.startTs m now
    times := update b.times m times
    fragSeq := update b.fragSeq m [] }

/-- Whether the owner `o` of the fragment `m` is queued on the client of `m`. -/
def ownerQueued (b : Ledger) (m o : ℕ) : Bool :=
  decide (o < b.nextMsg) && !b.freed o &&
    match b.owner m with
    | none => false
    | some c => (b.outQ c).contains o

/-- The fragments of a request are counted. -/
def bump (b : Ledger) (m : ℕ) : Ledger :=
  { b with
    nfragDone := fun k => if b.fragOwner m = some k then b.nfragDone k + 1 else b.nfragDone k
    sound := b.sound && (b.fragOwner m).all (b.ownerQueued m) }

/-- A server answers: the message of the answer, for the first request it has. -/
def reply (b : Ledger) (s : ℕ) (bare : Bool) : Ledger :=
  { b.take false (some s) false bare with
    answers := update b.answers b.nextMsg (b.inbox s).head?
    inbox := update b.inbox s (b.inbox s).tail }

/-- A request becomes the owner of `n` new fragments. -/
def split (b : Ledger) (c m n : ℕ) (bare : ℕ → Bool) : Ledger :=
  let ids := List.range' b.nextMsg n
  let on {α : Type} (v : α) (f : ℕ → α) : ℕ → α := fun k => if k ∈ ids then v else f k
  { b with
    nextMsg := b.nextMsg + n
    nextFrag := b.nextFrag + 1
    request := on true b.request
    owner := on (some c) b.owner
    peer := on none b.peer
    fragOwner := update (on (some m) b.fragOwner) m (some m)
    fragId := update (on b.nextFrag b.fragId) m b.nextFrag
    nfrag := update (on 0 b.nfrag) m n
    nfragDone := on 0 b.nfragDone
    noreply := on false b.noreply
    done := on false b.done
    fdone := on false b.fdone
    swallow := on false b.swallow
    fault := on false b.fault
    bare := fun k => if k ∈ m :: ids then bare k else b.bare k
    frags := update b.frags m ids }

end Ledger

/-! ### Moves -/

/-- What a run can rely on, and what of the pool and of the event the queues depend on. -/
structure Mode where
  timeout : ℤ
  /-- the pool has a password for its servers -/
  requireAuth : Bool
  /-- the pool selects a database -/
  select : Bool
  /-- the recorded length of no request, fragment or reply is zero -/
  ample : Prop
  /-- no read of a client completes more than one request -/
  single : Prop
  /-- the time of the event -/
  now : ℕ
  /-- no connection to a server is established at once -/
  late : Prop
  /-- the recorded length of neither of the proxy's own requests is zero -/
  full : Prop
  /-- the times of events are not zero -/
  ticking : Prop
  /-- the clients whose queue is being worked on -/
  busy : ℕ → Prop
  /-- the connections that are being closed -/
  leaving : ℕ → Prop
  /-- the connections that are sending -/
  sending : ℕ → Prop

open Ledger

/-- **The moves**, each with what is known when it is made. -/
inductive Move (mode : Mode) (hold : ℕ → Prop) : Ledger → Ledger → Prop
  /-- contents and errors -/
  | idle {b : Ledger} (bare fault awake : ℕ → Bool)
      (keeps : ∀ s, ∀ m ∈ b.inQ s, bare m = b.bare m) (waits : ∀ m, hold m → bare m = b.bare m)
      (stays : ∀ m, b.fault m = true → fault m = true)
      (ended : ∀ m, fault m = true → b.fault m = true ∨ b.done m = true)
      (wakes : ∀ c, b.kind c = .client → b.awake c = true → awake c = true) :
      Move mode hold b { b with bare := bare, fault := fault, awake := awake }
  /-- a client or a server connects -/
  | connect {b : Ledger} {c : ℕ} (kind : ConnKind) (connecting awake : Bool)
      (unused : b.kind c = .unused) (either : kind = .client ∨ kind = .server)
      (late : mode.late → kind = .server → connecting = true) :
      Move mode hold b
        { b with
          kind := update b.kind c kind
          connecting := update b.connecting c connecting
          awake := update b.awake c awake }
  /-- a message is taken to read into -/
  | listen {b : Ledger} {c : ℕ} (times : Times) (kind : b.kind c = .client) :
      Move mode hold b
        { (b.take true (some c) false true).start b.nextMsg mode.now times with
          rmsg := update b.rmsg c (some b.nextMsg) }
  | unread {b : Ledger} (c : ℕ) : Move mode hold b { b with rmsg := update b.rmsg c none }
  | stamp {b : Ledger} {c m : ℕ} (reading : b.rmsg c = some m) :
      Move mode hold b
        { b with times := update b.times m { b.times m with recvClient := mode.now } }
  | parse {b : Ledger} {c m : ℕ} (noreply bare : Bool) (reading : b.rmsg c = some m) :
      Move mode hold b
        { b with
          noreply := update b.noreply m noreply
          bare := update b.bare m bare
          arrival := update b.arrival m mode.now }
  | arrive {b : Ledger} {c m : ℕ} (live : b.Live m) (apart : Apart hold b m)
      (new : m ∉ b.arrived c)
      (single : mode.single → b.fragOwner m = none → (b.times m).recvClient = b.arrival m) :
      Move mode hold b { b with arrived := update b.arrived c (b.arrived c ++ [m]) }
  /-- a request is split into fragments -/
  | split {b : Ledger} {c m : ℕ} (n : ℕ) (bare : ℕ → Bool) (times : ℕ → Times) (seq : List ℕ)
      (loose : Loose b m) (apart : Apart hold b m) (owner : b.owner m = some c)
      (whole : b.fragOwner m = none) (places : ∀ k ∈ seq, k ∈ List.range' b.nextMsg n) :
      Move mode hold b
        { b.split c m n bare with
          startTs := fun k => if k ∈ List.range' b.nextMsg n then mode.now else b.startTs k
          times := fun k => if k ∈ List.range' b.nextMsg n then times k else b.times k
          fragSeq := update (fun k => if k ∈ List.range' b.nextMsg n then [] else b.fragSeq k) m
            seq }
  /-- a request, or a fragment behind its owner, is queued on its client -/
  | queue {b : Ledger} {c m : ℕ} (joins : Joins hold b c m)
      (group : b.fragOwner m = none ∨ ∃ o before behind, b.fragOwner m = some o ∧ o ≠ m ∧
        b.fdone o = false ∧ b.outQ c = before ++ o :: behind ∧
        ∀ k ∈ behind, b.fragId k = b.fragId o) :
      Move mode hold b { b with outQ := update b.outQ c (b.outQ c ++ [m]) }
  /-- a request is queued with a response of the proxy -/
  | make {b : Ledger} {c m : ℕ} (times : Times) (joins : Joins hold b c m)
      (group : b.fragOwner m = none ∨ b.fragOwner m = some m ∧ b.nfrag m = (b.frags m).length ∧
        b.nfragDone m = 0 ∧ (∀ k ∈ b.outQ c, b.fragId k ≠ b.fragId m) ∧
        ∀ k ∈ b.frags m, b.done k = false ∧ b.failed k = false ∧ b.swallow k = false)
      (busy : mode.busy c ∨ b.fragId m ≠ 0 ∧ b.nfragDone m < b.nfrag m) :
      Move mode hold b
        { ((b.take false (some c) false true).link m b.nextMsg).start b.nextMsg mode.now times with
          done := update (update b.done b.nextMsg false) m true
          answers := update b.answers b.nextMsg (some m)
          outQ := update b.outQ c (b.outQ c ++ [m]) }
  /-- a request is queued on a server -/
  | send {b : Ledger} {s m : ℕ} (key : ℤ) (kind : b.kind s = .server)
      (closing : b.closing s = false) (unsent : Unsent b m) (apart : Apart hold b m)
      (home : b.noreply m = true ∧ (∀ c, m ∉ b.outQ c) ∨
        b.noreply m = false ∧ ∃ c, b.owner m = some c ∧ b.InClient c m)
      (owner : b.fragOwner m ≠ some m) (ample : mode.ample → b.bare m = false)
      (auth : mode.requireAuth = true → b.authenticated s = true) :
      Move mode hold b
        { b.time mode.timeout key s m with inQ := update b.inQ s (b.inQ s ++ [m]) }
  | auth {b : Ledger} {s : ℕ} (c : ℕ) (key : ℤ) (bare : Bool) (times : Times)
      (kind : b.kind s = .server) (closing : b.closing s = false)
      (require : mode.requireAuth = true) (auth : b.authenticated s = false)
      (ample : mode.ample ∨ mode.full → bare = false) :
      Move mode hold b
        { ((b.take true (some c) true bare).time mode.timeout key s b.nextMsg).start b.nextMsg
            mode.now times with
          inQ := update b.inQ s (b.inQ s ++ [b.nextMsg])
          role := update b.role b.nextMsg .auth
          authenticated := update b.authenticated s true }
  | established {b : Ledger} {s : ℕ} (kind : b.kind s = .server) (select : mode.select = false) :
      Move mode hold b { b with connecting := update b.connecting s false }
  | select {b : Ledger} {s : ℕ} (key : ℤ) (bare : Bool) (times : Times) (kind : b.kind s = .server)
      (closing : b.closing s = false) (connecting : b.connecting s = true)
      (select : mode.select = true) (ample : mode.ample ∨ mode.full → bare = false) :
      Move mode hold b
        { ((b.take true none true bare).time mode.timeout key s b.nextMsg).start b.nextMsg
            mode.now times with
          inQ := update b.inQ s (b.nextMsg :: b.inQ s)
          role := update b.role b.nextMsg .select
          connecting := update b.connecting s false }
  /-- a connection goes on with the next message to be sent -/
  | pick {b : Ledger} {c : ℕ} (smsg : Option ℕ) (sending : smsg = none ∨ mode.sending c) :
      Move mode hold b { b with smsg := update b.smsg c smsg }
  /-- a connection has nothing to send -/
  | rest {b : Ledger} {c : ℕ} (awake : Bool) (busy : mode.busy c) :
      Move mode hold b { b with awake := update b.awake c awake }
  /-- the first request of a server was sent completely -/
  | sent {b : Ledger} {s m : ℕ} {rest : List ℕ} (kind : b.kind s = .server)
      (closing : b.closing s = false) (connecting : b.connecting s = false)
      (first : b.inQ s = m :: rest) :
      Move mode hold b
        { b with
          inQ := update b.inQ s rest
          outQ := if b.noreply m then b.outQ else update b.outQ s (b.outQ s ++ [m])
          times := update b.times m { b.times m with sendServer := mode.now }
          sentTo := update b.sentTo s (b.sentTo s ++ [m])
          inbox := if b.noreply m then b.inbox else update b.inbox s (b.inbox s ++ [m]) }
  /-- a request is taken for sent because its recorded length is zero -/
  | skip {b : Ledger} {s m : ℕ} (kind : b.kind s = .server) (queued : m ∈ b.inQ s)
      (bare : b.bare m = true) :
      Move mode hold b
        { b with
          inQ := update b.inQ s ((b.inQ s).erase m)
          outQ := if b.noreply m then b.outQ else update b.outQ s (b.outQ s ++ [m]) }
  /-- a request could not be forwarded -/
  | unforwarded {b : Ledger} {m : ℕ} (unsent : Unsent b m) (apart : Apart hold b m)
      (owner : b.fragOwner m ≠ some m) (busy : ∀ c, b.InClient c m → mode.busy c) :
      Move mode hold b
        { b with
          done := update b.done m true
          fault := update b.fault m true
          failed := update b.failed m true }
  /-- a request of a closing server is in error -/
  | fail {b : Ledger} {s m : ℕ} (queued : b.InServer s m) (closing : b.closing s = true)
      (swallow : b.swallow m = false) (noreply : b.noreply m = false) (calm : b.Calm)
      (busy : ∀ c, b.owner m = some c → mode.busy c) :
      Move mode hold b
        (bump { b.leave s m with
          done := update b.done m true
          fault := update b.fault m true } m)
  /-- a request of a closing server is given back -/
  | drop {b : Ledger} {s m : ℕ} (queued : b.InServer s m) (closing : b.closing s = true)
      (either : b.swallow m = true ∨ b.noreply m = true) :
      Move mode hold b
        { (b.leave s m).put m with puts := b.puts ++ [(b.leave s m).call .dropped mode.now m] }
  /-- a reply is linked to the first request that waits for one -/
  | answer {b : Ledger} {s m : ℕ} {rest : List ℕ} (bare : Bool) (times : Times)
      (kind : b.kind s = .server) (closing : b.closing s = false) (mute : b.mute s = false)
      (first : b.outQ s = m :: rest) (swallow : b.swallow m = false) (calm : b.Calm)
      (busy : ∀ c, b.owner m = some c → mode.busy c) :
      Move mode hold b
        ((bump { (((b.reply s bare).leave s m).link m b.nextMsg) with
          done := update (update b.done b.nextMsg false) m true
          attached := b.attached ++ [(m, b.nextMsg)] } m).start b.nextMsg mode.now times)
  /-- a reply to a request whose client is gone -/
  | swallowReply {b : Ledger} {s m : ℕ} {rest : List ℕ} (bare : Bool) (times : Times)
      (kind : b.kind s = .server) (closing : b.closing s = false) (mute : b.mute s = false)
      (first : b.outQ s = m :: rest) (swallow : b.swallow m = true) :
      Move mode hold b
        { (Ledger.put { ((b.reply s bare).free b.nextMsg).leave s m with
            done := update (update b.done b.nextMsg false) m true } m).start b.nextMsg mode.now
            times with
          puts := b.puts ++ [b.call .swallowed mode.now m] }
  /-- a reply is thrown away -/
  | lose {b : Ledger} {s : ℕ} (bare mute : Bool) (times : Times) (kind : b.kind s = .server)
      (ample : mode.ample → mute = true) (leaving : mute = true → mode.leaving s) :
      Move mode hold b
        { ((b.reply s bare).free b.nextMsg).start b.nextMsg mode.now times with
          mute := update b.mute s (b.mute s || mute) }
  /-- a fragmented request is done -/
  | mark {b : Ledger} {c m : ℕ} (queued : b.InClient c m) (owner : b.fragOwner m = some m)
      (done : ∀ k ∈ m :: b.neighbours c m, b.done k = true) (fdone : b.fdone m = false)
      (enough : b.nfrag m ≤ b.nfragDone m) (calm : b.Calm) (busy : mode.busy c) :
      Move mode hold b
        { b with
          fdone := fun k => if k ∈ m :: b.neighbours c m then true else b.fdone k
          sound := b.sound && b.ownerQueued m m }
  /-- the response of a request is given back, and an error takes its place -/
  | unlink {b : Ledger} {c m : ℕ} (queued : b.InClient c m) (done : b.done m = true)
      (fault : b.fault m = true) :
      Move mode hold b (b.unlink m)
  | blame {b : Ledger} {c m : ℕ} (queued : b.InClient c m) (done : b.done m = true)
      (peer : b.peer m = none) (fault : b.fault m = true) (bare : Bool) (times : Times) :
      Move mode hold b
        { ((b.take false none false bare).link m b.nextMsg).start b.nextMsg 0 times with
          answers := update b.answers b.nextMsg (some m) }
  /-- a response was sent -/
  | finish {b : Ledger} {c m r : ℕ} (queued : b.InClient c m) (peer : b.peer m = some r)
      (done : b.fragId m = 0 ∨ b.fdone m = true)
      (first : b.bare r = true ∨ (b.outQ c).head? = some m) (busy : mode.busy c) :
      Move mode hold b
        { Ledger.put { b.retire c m with
            finished := if b.bare r then b.finished
              else update b.finished c (b.finished c ++ [(m, r)]) } m with
          times := update b.times m { b.times m with sendClient := mode.now }
          puts := b.puts ++
            [{ b.call .finished mode.now m with
              times := { b.times m with sendClient := mode.now } }] }
  /-- a request leaves the queue of its client without being answered -/
  | fragment {b : Ledger} {c m : ℕ} (queued : b.InClient c m) (done : b.done m = true)
      (owner : b.fragOwner m ≠ some m) (part : b.fragId m ≠ 0) (busy : mode.busy c) :
      Move mode hold b
        { (b.retire c m).put m with puts := b.puts ++ [b.call .fragment mode.now m] }
  | discard {b : Ledger} {c m : ℕ} (queued : b.InClient c m) (done : b.done m = true)
      (closing : b.closing c = true) (busy : mode.busy c) :
      Move mode hold b
        { (b.retire c m).put m with puts := b.puts ++ [b.call .discarded mode.now m] }
  | swallow {b : Ledger} {c m : ℕ} (queued : b.InClient c m) (done : b.done m = false)
      (free : ¬ hold m) (closing : b.closing c = true) (busy : mode.busy c) :
      Move mode hold b { b.retire c m with swallow := update b.swallow m true }
  /-- a request in no queue is given back -/
  | put {b : Ledger} {m : ℕ} (site : PutSite) (live : b.Live m) (request : b.request m = true)
      (apart : Apart hold b m) (peer : b.peer m = none) (inQ : ∀ c, m ∉ b.inQ c)
      (outQ : ∀ c, m ∉ b.outQ c) (away : site ∉ [.discarded, .fragment, .finished]) :
      Move mode hold b { b.put m with puts := b.puts ++ [b.call site mode.now m] }
  | login {b : Ledger} {c : ℕ} (auth : Bool) (kind : b.kind c = .client) :
      Move mode hold b { b with authenticated := update b.authenticated c auth }
  | closing {b : Ledger} {c : ℕ} (leaving : mode.leaving c) :
      Move mode hold b { b with closing := update b.closing c true }
  | shut {b : Ledger} {c : ℕ} (inQ : b.inQ c = []) (outQ : b.outQ c = [])
      (rmsg : b.rmsg c = none) (closing : b.closing c = true) :
      Move mode hold b { b with kind := update b.kind c .closed }
  /-- a node leaves the timeout tree -/
  | expire {b : Ledger} {e : TmoNode} (node : e ∈ b.tmo)
      (ended : b.done e.msg = true ∨ b.closing e.conn = true) :
      Move mode hold b (b.untime e.msg)

end CacheProxy
