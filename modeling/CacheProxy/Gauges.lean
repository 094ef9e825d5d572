/-
**Gauges.**

For every server the proxy counts its established connections, the requests in their two queues and
the bytes of these requests, and for every pool its clients.  The counters are changed wherever a
connection is established, accepted or closed and wherever a request enters or leaves a queue.  A
connection to a server that is established at once, within `connect`, is not counted; it is taken
off all the same when it is closed.

The state is what the counters are about: the connections with their queues, and the lengths of
messages.  The steps are the functions that touch a counter, in any order that their assertions
allow. What goes on in between may give a message another length, as long as it is in no queue of a
server.

Main definitions:

* `GaugeState`, `GaugeState.truth` — connections and counters, and what a counter should be;
* `serverConnect`, `serverConnected`, `serverClose`, ... — the functions of the source;
* `GaugeEvent`, `GaugeState.step`, `GaugeState.run` — runs.

Main results:

* `Counted.run` — in every run a counter is off by the connections that were established at once;
* `Mirrors.enqueue`, ..., `Mirrors.close` — the queues here are those of the proxy;
* `gauges_exact` — **the counters are right in every run without such a connection**;
* `gauge_negative` — one such connection, and a counter that is negative.
-/

import CacheProxy.Sending
import Mathlib.Algebra.BigOperators.Group.List.Basic
import Mathlib.Data.List.Induction
import Mathlib.Data.List.Nodup
import Mathlib.Tactic.Linarith

namespace CacheProxy

/-! ### Connections and counters -/

/-- The gauges of a server. -/
inductive GaugeField where
  | serverConnections
  | inQueue
  | inQueueBytes
  | outQueue
  | outQueueBytes
  deriving DecidableEq, Repr

/-- **A connection to a server**, with the number of the server; `sd` says whether it has a
socket. -/
structure ServerConn where
  id : ℕ
  owner : ℕ
  sd : Bool := false
  connecting : Bool := false
  connected : Bool := false
  err : ℕ := 0
  imsgQ : List ℕ := []
  omsgQ : List ℕ := []
  deriving DecidableEq, Repr

/-- A connection of a client, with the number of the pool. -/
structure ClientConn where
  id : ℕ
  owner : ℕ
  deriving DecidableEq, Repr

/-- **The connections, the lengths of messages and the counters.** -/
structure GaugeState where
  servers : List ServerConn := []
  clients : List ClientConn := []
  mlen : ℕ → ℕ := fun _ => 0
  noreply : ℕ → Bool := fun _ => false
  gauge : ℕ → GaugeField → ℤ := fun _ _ => 0
  /-- `client_connections` of a pool -/
  clientConnections : ℕ → ℤ := fun _ => 0
  /-- how many connections to a server were established within `connect`; no function reads it -/
  instant : ℕ → ℕ := fun _ => 0

/-- What `server_connect` meets. -/
inductive ConnectResult where
  /-- `socket` fails -/
  | noSocket (err : ℕ)
  /-- a later call fails, `connect` among them -/
  | failed (err : ℕ)
  | inProgress
  | immediate
  deriving DecidableEq, Repr

namespace GaugeState

variable (st : GaugeState)

/-- The connections of a server. -/
def of (s : ℕ) : List ServerConn := st.servers.filter fun k => k.owner == s

/-- **What the gauge of a server should be.** -/
def truth (s : ℕ) : GaugeField → ℕ
  | .serverConnections => (st.of s).countP fun k => k.connected
  | .inQueue => ((st.of s).map fun k => k.imsgQ.length).sum
  | .inQueueBytes => ((st.of s).map fun k => (k.imsgQ.map st.mlen).sum).sum
  | .outQueue => ((st.of s).map fun k => k.omsgQ.length).sum
  | .outQueueBytes => ((st.of s).map fun k => (k.omsgQ.map st.mlen).sum).sum

/-- Changes one connection. -/
def setConn (c : ℕ) (f : ServerConn → ServerConn) : GaugeState :=
  { st with servers := st.servers.map fun k => if k.id = c then f k else k }

/-- `_stats_server_incr_by`, and with a negative number `_stats_server_decr_by` -/
def statsServerIncrBy (s : ℕ) (f : GaugeField) (n : ℤ) : GaugeState :=
  { st with gauge := fun s' f' => if s' = s ∧ f' = f then st.gauge s' f' + n else st.gauge s' f' }

/-- `_stats_pool_incr_by`, likewise -/
def statsPoolIncrBy (p : ℕ) (n : ℤ) : GaugeState :=
  { st with clientConnections := fun p' => if p' = p then st.clientConnections p' + n
                                           else st.clientConnections p' }

/-! ### The functions of the source -/

/-- `req_server_enqueue_imsgq`, and `req_server_enqueue_imsgq_head` if `head` -/
def reqServerEnqueueImsgq (head : Bool) (k : ServerConn) (m : ℕ) : GaugeState :=
  ((st.setConn k.id fun k =>
    { k with imsgQ := if head then m :: k.imsgQ else k.imsgQ ++ [m] }).statsServerIncrBy
    k.owner .inQueue 1).statsServerIncrBy k.owner .inQueueBytes (st.mlen m)

/-- `req_server_dequeue_imsgq` -/
def reqServerDequeueImsgq (k : ServerConn) (m : ℕ) : GaugeState :=
  ((st.setConn k.id fun k => { k with imsgQ := k.imsgQ.erase m }).statsServerIncrBy
    k.owner .inQueue (-1)).statsServerIncrBy k.owner .inQueueBytes (-(st.mlen m))

/-- `req_server_enqueue_omsgq` -/
def reqServerEnqueueOmsgq (k : ServerConn) (m : ℕ) : GaugeState :=
  ((st.setConn k.id fun k => { k with omsgQ := k.omsgQ ++ [m] }).statsServerIncrBy
    k.owner .outQueue 1).statsServerIncrBy k.owner .outQueueBytes (st.mlen m)

/-- `req_server_dequeue_omsgq` -/
def reqServerDequeueOmsgq (k : ServerConn) (m : ℕ) : GaugeState :=
  ((st.setConn k.id fun k => { k with omsgQ := k.omsgQ.erase m }).statsServerIncrBy
    k.owner .outQueue (-1)).statsServerIncrBy k.owner .outQueueBytes (-(st.mlen m))

/-- `server_connect` -/
def serverConnect (k : ServerConn) (res : ConnectResult) : GaugeState :=
  if k.err ≠ 0 then st
  else if k.sd then st
  else
    match res with
    | .noSocket err => st.setConn k.id fun k => { k with err := err }
    | .failed err => st.setConn k.id fun k => { k with sd := true, err := err }
    | .inProgress => st.setConn k.id fun k => { k with sd := true, connecting := true }
    | .immediate =>
        -- no gauge is touched here
        { st.setConn k.id fun k => { k with sd := true, connected := true } with
          instant := Function.update st.instant k.owner (st.instant k.owner + 1) }

/-- `server_connected` -/
def serverConnected (k : ServerConn) : GaugeState :=
  (st.statsServerIncrBy k.owner .serverConnections 1).setConn k.id fun k =>
    { k with connecting := false, connected := true }

/-- `req_send_done` -/
def reqSendDone (k : ServerConn) (m : ℕ) : GaugeState :=
  if st.noreply m then st.reqServerDequeueImsgq k m
  else (st.reqServerDequeueImsgq k m).reqServerEnqueueOmsgq k m

/-- `server_close_stats`, as far as gauges go -/
def serverCloseStats (k : ServerConn) : GaugeState :=
  if k.connected then st.statsServerIncrBy k.owner .serverConnections (-1) else st

/-- The connection is given back. -/
def connPut (c : ℕ) : GaugeState := { st with servers := st.servers.filter fun k => k.id != c }

/-- `server_close` -/
def serverClose (k : ServerConn) : GaugeState :=
  let st := (st.serverCloseStats k).setConn k.id fun k => { k with connected := false }
  if !k.sd then st.connPut k.id
  else
    let st := k.imsgQ.foldl (fun st m => st.reqServerDequeueImsgq k m) st
    let st := k.omsgQ.foldl (fun st m => st.reqServerDequeueOmsgq k m) st
    st.connPut k.id

/-- `client_close` -/
def clientClose (k : ClientConn) : GaugeState :=
  { st.statsPoolIncrBy k.owner (-1) with clients := st.clients.filter fun x => x.id != k.id }

/-- `proxy_accept` behind `accept`; the connection is closed again if it cannot be set up. -/
def proxyAccept (k : ClientConn) (setUp : Bool) : GaugeState :=
  let st := { st with clients := st.clients ++ [k] }.statsPoolIncrBy k.owner 1
  if setUp then st else st.clientClose k

end GaugeState

/-! ### Runs -/

/-- **What can happen.** -/
inductive GaugeEvent where
  /-- `server_conn` makes a connection -/
  | conn (c s : ℕ)
  | connect (c : ℕ) (res : ConnectResult)
  /-- the socket of a server can be written: `req_send_next` -/
  | writable (c : ℕ)
  /-- a request of a client, of `add_auth` or of `post_connect` -/
  | enqueue (c m : ℕ) (head : Bool)
  /-- a request was sent -/
  | sent (c m : ℕ)
  /-- the first request in the out-queue is answered, or its answer swallowed -/
  | answered (c : ℕ)
  /-- an error, a timeout, the end of the stream -/
  | close (c : ℕ)
  | accept (c p : ℕ) (setUp : Bool)
  | clientClose (c : ℕ)
  /-- a message in no queue of a server has another length -/
  | length (m n : ℕ)
  /-- a request that expects no reply, or one that does -/
  | noreply (m : ℕ) (b : Bool)
  deriving DecidableEq, Repr

namespace GaugeState

variable (st : GaugeState)

/-- The connection with a number. -/
def conn? (c : ℕ) : Option ServerConn := st.servers.find? fun k => k.id == c

/-- A message is in a queue of a server. -/
def Queued (m : ℕ) : Prop := ∃ k ∈ st.servers, m ∈ k.imsgQ ∨ m ∈ k.omsgQ

instance (m : ℕ) : Decidable (st.Queued m) := inferInstanceAs (Decidable (∃ k ∈ st.servers, _))

/-- **One step.** -/
def step : GaugeEvent → GaugeState
  | .conn c s =>
      if c ∈ st.servers.map ServerConn.id then st
      else { st with servers := st.servers ++ [{ id := c, owner := s }] }
  | .connect c res =>
      match st.conn? c with
      | none => st
      | some k => st.serverConnect k res
  | .writable c =>
      match st.conn? c with
      | none => st
      | some k => if k.connecting then st.serverConnected k else st
  | .enqueue c m head =>
      match st.conn? c with
      | none => st
      -- `server_pool_conn` gives a connection for which `server_connect` returned `NC_OK`
      | some k => if k.sd then st.reqServerEnqueueImsgq head k m else st
  | .sent c m =>
      match st.conn? c with
      | none => st
      | some k => if m ∈ k.imsgQ then st.reqSendDone k m else st
  | .answered c =>
      match st.conn? c with
      | none => st
      | some k =>
          match k.omsgQ with
          | [] => st
          | m :: _ => st.reqServerDequeueOmsgq k m
  | .close c =>
      match st.conn? c with
      | none => st
      | some k => st.serverClose k
  | .accept c p setUp =>
      if c ∈ st.clients.map ClientConn.id then st else st.proxyAccept ⟨c, p⟩ setUp
  | .clientClose c =>
      match st.clients.find? fun k => k.id == c with
      | none => st
      | some k => st.clientClose k
  | .length m n => if st.Queued m then st else { st with mlen := Function.update st.mlen m n }
  | .noreply m b => { st with noreply := Function.update st.noreply m b }

/-- **A run.** -/
def run (es : List GaugeEvent) : GaugeState := es.foldl step {}

end GaugeState

/-! ### What a connection adds to a gauge -/

/-- The share of one connection. -/
def ServerConn.share (mlen : ℕ → ℕ) (k : ServerConn) : GaugeField → ℕ
  | .serverConnections => if k.connected then 1 else 0
  | .inQueue => k.imsgQ.length
  | .inQueueBytes => (k.imsgQ.map mlen).sum
  | .outQueue => k.omsgQ.length
  | .outQueueBytes => (k.omsgQ.map mlen).sum

/-- The sum of the shares of a server's connections. -/
def shares (mlen : ℕ → ℕ) (ks : List ServerConn) (s : ℕ) (f : GaugeField) : ℤ :=
  (ks.map fun k => if k.owner = s then (k.share mlen f : ℤ) else 0).sum

theorem truth_eq_shares (st : GaugeState) (s : ℕ) (f : GaugeField) :
    (st.truth s f : ℤ) = shares st.mlen st.servers s f := by
  have hsum : st.truth s f = ((st.of s).map fun k => k.share st.mlen f).sum := by
    cases f with
    | serverConnections =>
      rw [GaugeState.truth]
      induction st.of s with
      | nil => rfl
      | cons k ks ih =>
        rw [List.countP_cons, List.map_cons, List.sum_cons, ih, Nat.add_comm]
        rfl
    | inQueue | inQueueBytes | outQueue | outQueueBytes => rfl
  rw [hsum, GaugeState.of, shares]
  induction st.servers with
  | nil => rfl
  | cons k ks ih =>
    rw [List.map_cons, List.sum_cons, ← ih]
    by_cases h : k.owner = s
    · simp [h]
    · simp [h]

section Shares

variable {mlen : ℕ → ℕ} {ks : List ServerConn} {k : ServerConn} {s : ℕ} {f : GaugeField}

/-- What one connection adds to the gauge of a server. -/
def ServerConn.part (mlen : ℕ → ℕ) (k : ServerConn) (s : ℕ) (f : GaugeField) : ℤ :=
  if k.owner = s then (k.share mlen f : ℤ) else 0

theorem shares_cons : shares mlen (k :: ks) s f = k.part mlen s f + shares mlen ks s f := by
  simp [shares, ServerConn.part]

/-- A connection that no longer occurs is not changed. -/
theorem map_set_of_notMem {c : ℕ} (h : c ∉ ks.map ServerConn.id) (F : ServerConn → ServerConn) :
    (ks.map fun x => if x.id = c then F x else x) = ks := by
  induction ks with
  | nil => rfl
  | cons x xs ih =>
    rw [List.map_cons, List.mem_cons, not_or] at h
    rw [List.map_cons, if_neg fun hx => h.1 hx.symm, ih h.2]

/-- **One connection is changed.** -/
theorem shares_set (hids : (ks.map ServerConn.id).Nodup) (hk : k ∈ ks)
    (F : ServerConn → ServerConn) :
    shares mlen (ks.map fun x => if x.id = k.id then F x else x) s f =
      shares mlen ks s f + ((F k).part mlen s f - k.part mlen s f) := by
  induction ks with
  | nil => simp at hk
  | cons x xs ih =>
    rw [List.map_cons, List.nodup_cons] at hids
    rw [List.map_cons, shares_cons, shares_cons]
    rcases List.mem_cons.1 hk with rfl | hk
    · rw [if_pos rfl, map_set_of_notMem hids.1]
      omega
    · have hne : x.id ≠ k.id := fun heq => hids.1 (heq ▸ List.mem_map_of_mem hk)
      rw [if_neg hne, ih hids.2 hk]
      omega

/-- **One connection is taken away.** -/
theorem shares_filter (hids : (ks.map ServerConn.id).Nodup) (hk : k ∈ ks) :
    shares mlen (ks.filter fun x => x.id != k.id) s f = shares mlen ks s f - k.part mlen s f := by
  induction ks with
  | nil => simp at hk
  | cons x xs ih =>
    rw [List.map_cons, List.nodup_cons] at hids
    rcases List.mem_cons.1 hk with rfl | hk
    · have hall : (xs.filter fun y => y.id != k.id) = xs :=
        List.filter_eq_self.2 fun y hy => by
          simpa using fun heq : y.id = k.id => hids.1 (heq ▸ List.mem_map_of_mem hy)
      rw [List.filter_cons_of_neg (by simp), hall, shares_cons]
      omega
    · have hne : x.id ≠ k.id := fun heq => hids.1 (heq ▸ List.mem_map_of_mem hk)
      rw [List.filter_cons_of_pos (by simpa using hne), shares_cons, shares_cons, ih hids.2 hk]
      omega

end Shares

/-! ### What every step keeps -/

/-- A connection without a socket has nothing, and one that is being established is not
established. -/
structure ServerConn.Sane (k : ServerConn) : Prop where
  bare : k.sd = false → k.connected = false ∧ k.connecting = false ∧ k.imsgQ = [] ∧ k.omsgQ = []
  connecting : k.connecting = true → k.connected = false

/-- By how much a gauge is too low. -/
def GaugeState.drift (st : GaugeState) (s : ℕ) (f : GaugeField) : ℤ :=
  if f = .serverConnections then (st.instant s : ℤ) else 0

/-- **The counters are right but for the connections that were established at once.** -/
structure Counted (st : GaugeState) : Prop where
  ids : (st.servers.map ServerConn.id).Nodup
  sane : ∀ k ∈ st.servers, k.Sane
  gauge : ∀ s f, st.gauge s f + st.drift s f = shares st.mlen st.servers s f
  clientIds : (st.clients.map ClientConn.id).Nodup
  clients : ∀ p, st.clientConnections p = ((st.clients.countP fun k => k.owner == p : ℕ) : ℤ)

/-- What a step on a connection to a server does not touch. -/
structure SameRest (st st' : GaugeState) : Prop where
  mlen : st'.mlen = st.mlen
  clients : st'.clients = st.clients
  clientConnections : st'.clientConnections = st.clientConnections

section Steps

variable {st : GaugeState} {k : ServerConn}

theorem GaugeState.mem_of_conn? {c : ℕ} (h : st.conn? c = some k) : k ∈ st.servers ∧ k.id = c :=
  ⟨List.mem_of_find?_eq_some h, by simpa using List.find?_some h⟩

/-- **A step that changes one connection**, and the gauges of its server by what the connection then
adds to them. -/
theorem Counted.change (h : Counted st) (st' : GaugeState) (hk : k ∈ st.servers)
    {F : ServerConn → ServerConn}
    (hid : ∀ x, (F x).id = x.id) (hsane : (F k).Sane)
    (hservers : st'.servers = (st.setConn k.id F).servers) (hrest : SameRest st st')
    (hgauge : ∀ s f, st'.gauge s f + st'.drift s f =
      st.gauge s f + st.drift s f + ((F k).part st.mlen s f - k.part st.mlen s f)) :
    Counted st' ∧ F k ∈ st'.servers := by
  have huniq : ∀ x ∈ st.servers, x.id = k.id → x = k := fun x hx heq =>
    List.inj_on_of_nodup_map h.ids hx hk heq
  refine ⟨⟨?_, ?_, ?_, ?_, ?_⟩, ?_⟩
  · have hsame : (st'.servers.map ServerConn.id) = st.servers.map ServerConn.id := by
      rw [hservers, GaugeState.setConn, List.map_map]
      refine List.map_congr_left fun x _ => ?_
      dsimp only [Function.comp_apply]
      split
      · exact hid x
      · rfl
    rw [hsame]
    exact h.ids
  · intro x hx
    rw [hservers, GaugeState.setConn, List.mem_map] at hx
    obtain ⟨y, hy, rfl⟩ := hx
    split
    · next heq =>
      rw [huniq y hy heq]
      exact hsane
    · exact h.sane y hy
  · intro s f
    rw [hgauge, h.gauge, hrest.mlen, hservers]
    exact (shares_set h.ids hk F).symm
  · rw [hrest.clients]
    exact h.clientIds
  · rw [hrest.clients, hrest.clientConnections]
    exact h.clients
  · rw [hservers]
    exact List.mem_map.2 ⟨k, hk, if_pos rfl⟩

/-- A connection that adds nothing is given back. -/
theorem Counted.connPut (h : Counted st) (hk : k ∈ st.servers)
    (hnone : ∀ f, k.share st.mlen f = 0) :
    Counted (st.connPut k.id) where
  ids := h.ids.sublist (List.filter_sublist.map _)
  sane := fun x hx => h.sane x (List.mem_of_mem_filter hx)
  gauge := by
    intro s f
    have hpart : k.part st.mlen s f = 0 := by
      rw [ServerConn.part, hnone]
      split <;> rfl
    have hsum : shares st.mlen (st.connPut k.id).servers s f = shares st.mlen st.servers s f := by
      rw [GaugeState.connPut, shares_filter h.ids hk, hpart, sub_zero]
    exact (h.gauge s f).trans hsum.symm
  clientIds := h.clientIds
  clients := h.clients

/-- What an increment does to a gauge. -/
theorem GaugeState.gauge_incrBy (st : GaugeState) (s s' : ℕ) (f f' : GaugeField) (n : ℤ) :
    (st.statsServerIncrBy s f n).gauge s' f' = st.gauge s' f' + if s' = s ∧
      f' = f then n else 0 := by
  rw [GaugeState.statsServerIncrBy]
  dsimp only
  split
  · rfl
  · rw [add_zero]

/-- **A connection is changed and two gauges of its server by as much**; `k₀` is the connection as
the caller knows it. -/
theorem Counted.moved (h : Counted st) (hk : k ∈ st.servers) {F : ServerConn → ServerConn}
    (hid : ∀ x, (F x).id = x.id) (howner : (F k).owner = k.owner) (hsane : (F k).Sane)
    {k₀ : ServerConn}
    (hid₀ : k₀.id = k.id) (howner₀ : k₀.owner = k.owner) {f₁ f₂ : GaugeField} {n₁ n₂ : ℤ}
    (hshare : ∀ f, ((F k).share st.mlen f : ℤ) =
      k.share st.mlen f + (if f = f₁ then n₁ else 0) + if f = f₂ then n₂ else 0) :
    Counted (((st.setConn k₀.id F).statsServerIncrBy k₀.owner f₁ n₁).statsServerIncrBy k₀.owner f₂
      n₂) ∧
      F k ∈ (((st.setConn k₀.id F).statsServerIncrBy k₀.owner f₁ n₁).statsServerIncrBy k₀.owner f₂
        n₂).servers := by
  refine h.change _ hk hid hsane (by rw [← hid₀]; rfl) ⟨rfl, rfl, rfl⟩ fun s f => ?_
  rw [GaugeState.gauge_incrBy, GaugeState.gauge_incrBy, howner₀, ServerConn.part, ServerConn.part,
    howner, hshare]
  change st.gauge s f + _ + _ + st.drift s f = _
  by_cases hs : s = k.owner
  · simp only [hs, true_and, if_true]
    omega
  · simp only [hs, Ne.symm hs, false_and, if_false]
    omega

theorem Counted.enqueueImsgq (h : Counted st) (hk : k ∈ st.servers) (hsd : k.sd = true)
    (head : Bool)
    (m : ℕ) : Counted (st.reqServerEnqueueImsgq head k m) := by
  refine (h.moved hk
    (F := fun k => { k with imsgQ := if head then m :: k.imsgQ else k.imsgQ ++ [m] })
    (fun x => rfl) rfl ⟨fun hno => ?_, (h.sane k hk).connecting⟩ rfl rfl fun f => ?_).1
  · rw [hsd] at hno
    cases hno
  · cases head <;> cases f <;> simp [ServerConn.share, Nat.add_comm]

theorem Counted.dequeueImsgq (h : Counted st) (hk : k ∈ st.servers) {k₀ : ServerConn}
    (hid : k₀.id = k.id)
    (howner : k₀.owner = k.owner) {m : ℕ} (hm : m ∈ k.imsgQ) :
    Counted (st.reqServerDequeueImsgq k₀ m) ∧
      { k with imsgQ := k.imsgQ.erase m } ∈ (st.reqServerDequeueImsgq k₀ m).servers := by
  have hlen : (k.imsgQ.erase m).length + 1 = k.imsgQ.length := List.length_erase_add_one hm
  have hsum : st.mlen m + ((k.imsgQ.erase m).map st.mlen).sum = (k.imsgQ.map st.mlen).sum :=
    List.sum_map_erase st.mlen hm
  refine h.moved hk (F := fun k => { k with imsgQ := k.imsgQ.erase m }) (fun x => rfl) rfl
    ⟨fun hno => ?_, (h.sane k hk).connecting⟩ hid howner fun f => ?_
  · rw [((h.sane k hk).bare hno).2.2.1] at hm
    simp at hm
  · cases f <;> simp only [ServerConn.share, reduceCtorEq, if_true, if_false] <;> omega

theorem Counted.enqueueOmsgq (h : Counted st) (hk : k ∈ st.servers) {k₀ : ServerConn}
    (hid : k₀.id = k.id)
    (howner : k₀.owner = k.owner) (hsd : k.sd = true) (m : ℕ) :
    Counted (st.reqServerEnqueueOmsgq k₀ m) := by
  refine (h.moved hk (F := fun k => { k with omsgQ := k.omsgQ ++ [m] }) (fun x => rfl) rfl
    ⟨fun hno => ?_, (h.sane k hk).connecting⟩ hid howner fun f => ?_).1
  · rw [hsd] at hno
    cases hno
  · cases f <;> simp [ServerConn.share]

theorem Counted.dequeueOmsgq (h : Counted st) (hk : k ∈ st.servers) {k₀ : ServerConn}
    (hid : k₀.id = k.id)
    (howner : k₀.owner = k.owner) {m : ℕ} (hm : m ∈ k.omsgQ) :
    Counted (st.reqServerDequeueOmsgq k₀ m) ∧
      { k with omsgQ := k.omsgQ.erase m } ∈ (st.reqServerDequeueOmsgq k₀ m).servers := by
  have hlen : (k.omsgQ.erase m).length + 1 = k.omsgQ.length := List.length_erase_add_one hm
  have hsum : st.mlen m + ((k.omsgQ.erase m).map st.mlen).sum = (k.omsgQ.map st.mlen).sum :=
    List.sum_map_erase st.mlen hm
  refine h.moved hk (F := fun k => { k with omsgQ := k.omsgQ.erase m }) (fun x => rfl) rfl
    ⟨fun hno => ?_, (h.sane k hk).connecting⟩ hid howner fun f => ?_
  · rw [((h.sane k hk).bare hno).2.2.2] at hm
    simp at hm
  · cases f <;> simp only [ServerConn.share, reduceCtorEq, if_true, if_false] <;> omega

/-- `server_connect`: a connection that is established at once makes the gauge one too low. -/
theorem Counted.serverConnect (h : Counted st) (hk : k ∈ st.servers) (res : ConnectResult) :
    Counted (st.serverConnect k res) := by
  unfold GaugeState.serverConnect
  split
  · exact h
  · split
    · exact h
    · next hsd =>
      have hbare := (h.sane k hk).bare (by simpa using hsd)
      cases res with
      | noSocket err =>
        refine (h.change _ hk (F := fun k => { k with err := err }) (fun x => rfl)
          ⟨fun _ => hbare, (h.sane k hk).connecting⟩ rfl ⟨rfl, rfl, rfl⟩ fun s f => ?_).1
        cases f <;> simp [GaugeState.setConn, GaugeState.drift, ServerConn.part, ServerConn.share]
      | failed err =>
        refine (h.change _ hk (F := fun k => { k with sd := true, err := err }) (fun x => rfl)
          ⟨fun hno => Bool.noConfusion hno, (h.sane k hk).connecting⟩ rfl ⟨rfl, rfl, rfl⟩ fun s f =>
          ?_).1
        cases f <;> simp [GaugeState.setConn, GaugeState.drift, ServerConn.part, ServerConn.share]
      | inProgress =>
        refine (h.change _ hk (F := fun k => { k with sd := true, connecting := true })
          (fun x => rfl)
          ⟨fun hno => Bool.noConfusion hno, fun _ => hbare.1⟩ rfl ⟨rfl, rfl, rfl⟩ fun s f => ?_).1
        cases f <;> simp [GaugeState.setConn, GaugeState.drift, ServerConn.part, ServerConn.share]
      | immediate =>
        refine (h.change
          { st.setConn k.id fun k => { k with sd := true, connected := true } with
            instant := Function.update st.instant k.owner (st.instant k.owner + 1) } hk
              (F := fun k => { k with sd := true, connected := true }) (fun x => rfl)
          ⟨fun hno => Bool.noConfusion hno, fun hc => ?_⟩ rfl ⟨rfl, rfl, rfl⟩ fun s f => ?_).1
        · have hno : k.connecting = false := hbare.2.1
          rw [show k.connecting = true from hc] at hno
          cases hno
        · by_cases hs : k.owner = s
          · subst hs
            cases f <;>
              simp [GaugeState.setConn, GaugeState.drift, ServerConn.part, ServerConn.share,
                hbare.1]
            omega
          · cases f <;>
              simp [GaugeState.setConn, GaugeState.drift, ServerConn.part, hs,
                Function.update_of_ne (Ne.symm hs)]

/-- `server_connected` counts the connection. -/
theorem Counted.serverConnected (h : Counted st) (hk : k ∈ st.servers) (hc : k.connecting = true) :
    Counted (st.serverConnected k) := by
  have hno := (h.sane k hk).connecting hc
  refine (h.change (st.serverConnected k) hk
    (F := fun k => { k with connecting := false, connected := true }) (fun x => rfl)
    ⟨fun hsd => ?_, fun hf => Bool.noConfusion hf⟩ rfl ⟨rfl, rfl, rfl⟩ fun s f => ?_).1
  · have := ((h.sane k hk).bare hsd).2.1
    rw [hc] at this
    cases this
  · simp only [GaugeState.serverConnected, GaugeState.statsServerIncrBy, GaugeState.setConn,
      GaugeState.drift, ServerConn.part]
    by_cases hs : k.owner = s
    · subst hs
      cases f <;> simp [ServerConn.share, hno]
      omega
    · simp [hs, Ne.symm hs]

/-- The first step of `server_close`. -/
theorem Counted.closeStats (h : Counted st) (hk : k ∈ st.servers) :
    Counted ((st.serverCloseStats k).setConn k.id fun k => { k with connected := false }) ∧
      { k with connected := false } ∈
        ((st.serverCloseStats k).setConn k.id fun k => { k with connected := false }).servers := by
  have hservers : (st.serverCloseStats k).servers = st.servers := by
    unfold GaugeState.serverCloseStats
    split <;> rfl
  have hrest : SameRest st
    ((st.serverCloseStats k).setConn k.id fun k => { k with connected := false }) := by
    unfold GaugeState.serverCloseStats
    split <;> exact ⟨rfl, rfl, rfl⟩
  refine h.change _ hk (F := fun k => { k with connected := false }) (fun x => rfl)
    ⟨fun hno => ⟨rfl, ((h.sane k hk).bare hno).2⟩, fun _ => rfl⟩
    (by rw [GaugeState.setConn, GaugeState.setConn, hservers]) hrest fun s f => ?_
  unfold GaugeState.serverCloseStats
  cases hc : k.connected with
  | false =>
    cases f <;> simp [GaugeState.setConn, GaugeState.drift, ServerConn.part, ServerConn.share, hc]
  | true =>
    simp only [if_true, GaugeState.statsServerIncrBy, GaugeState.setConn, GaugeState.drift,
      ServerConn.part]
    by_cases hs : k.owner = s
    · subst hs
      cases f <;> simp [ServerConn.share, hc]
      omega
    · simp [hs, Ne.symm hs]

/-- The loop of `server_close` over the in-queue. -/
theorem Counted.dequeueImsgq_all (k₀ : ServerConn) (ms : List ℕ) :
    ∀ {st : GaugeState} {k : ServerConn},
    Counted st → k ∈ st.servers → k₀.id = k.id → k₀.owner = k.owner → k.imsgQ = ms →
      Counted (ms.foldl (fun st m => st.reqServerDequeueImsgq k₀ m) st) ∧
        { k with imsgQ := [] } ∈
        (ms.foldl (fun st m => st.reqServerDequeueImsgq k₀ m) st).servers := by
  induction ms with
  | nil =>
    intro st k h hk _ _ hq
    have heq : ({ k with imsgQ := [] } : ServerConn) = k := by rw [← hq]
    rw [heq]
    exact ⟨h, hk⟩
  | cons m ms ih =>
    intro st k h hk hid howner hq
    obtain ⟨h', hk'⟩ := h.dequeueImsgq hk hid howner (m := m) (by simp [hq])
    exact ih (k := { k with imsgQ := k.imsgQ.erase m }) h' hk' hid howner (by simp [hq])

/-- The loop of `server_close` over the out-queue. -/
theorem Counted.dequeueOmsgq_all (k₀ : ServerConn) (ms : List ℕ) :
    ∀ {st : GaugeState} {k : ServerConn},
    Counted st → k ∈ st.servers → k₀.id = k.id → k₀.owner = k.owner → k.omsgQ = ms →
      Counted (ms.foldl (fun st m => st.reqServerDequeueOmsgq k₀ m) st) ∧
        { k with omsgQ := [] } ∈
        (ms.foldl (fun st m => st.reqServerDequeueOmsgq k₀ m) st).servers := by
  induction ms with
  | nil =>
    intro st k h hk _ _ hq
    have heq : ({ k with omsgQ := [] } : ServerConn) = k := by rw [← hq]
    rw [heq]
    exact ⟨h, hk⟩
  | cons m ms ih =>
    intro st k h hk hid howner hq
    obtain ⟨h', hk'⟩ := h.dequeueOmsgq hk hid howner (m := m) (by simp [hq])
    exact ih (k := { k with omsgQ := k.omsgQ.erase m }) h' hk' hid howner (by simp [hq])

/-- **`server_close` takes off what the connection has added.** -/
theorem Counted.serverClose (h : Counted st) (hk : k ∈ st.servers) :
    Counted (st.serverClose k) := by
  unfold GaugeState.serverClose
  obtain ⟨h₁, hk₁⟩ := h.closeStats hk
  dsimp only
  split
  · next hsd =>
    obtain ⟨-, -, hin, hout⟩ := (h.sane k hk).bare (by simpa using hsd)
    have hput := h₁.connPut hk₁ fun f => by cases f <;> simp [ServerConn.share, hin, hout]
    exact hput
  · obtain ⟨h₂, hk₂⟩ := Counted.dequeueImsgq_all k k.imsgQ h₁ hk₁ rfl rfl rfl
    obtain ⟨h₃, hk₃⟩ := Counted.dequeueOmsgq_all k k.omsgQ h₂ hk₂ rfl rfl rfl
    have hput := h₃.connPut hk₃ fun f => by cases f <;> simp [ServerConn.share]
    exact hput

/-- A new connection adds nothing. -/
theorem Counted.conn (h : Counted st) {c : ℕ} (s : ℕ) (hc : c ∉ st.servers.map ServerConn.id) :
    Counted { st with servers := st.servers ++ [{ id := c, owner := s }] } where
  ids := by
    rw [List.map_append, List.nodup_append]
    refine ⟨h.ids, by simp, ?_⟩
    rintro x hx y hy rfl
    rw [List.map_singleton, List.mem_singleton] at hy
    rw [show x = c from hy] at hx
    exact hc hx
  sane := by
    intro k hk
    rcases List.mem_append.1 hk with hk | hk
    · exact h.sane k hk
    · rw [List.mem_singleton.1 hk]
      exact ⟨fun _ => ⟨rfl, rfl, rfl, rfl⟩, fun _ => rfl⟩
  gauge := by
    intro s' f
    have hnone : shares st.mlen (st.servers ++ [{ id := c, owner := s }]) s' f =
        shares st.mlen st.servers s' f := by
      rw [shares, shares, List.map_append, List.sum_append]
      cases f <;> simp [ServerConn.share]
    exact (h.gauge s' f).trans hnone.symm
  clientIds := h.clientIds
  clients := h.clients

/-- A message in no queue of a server adds nothing. -/
theorem Counted.length (h : Counted st) {m : ℕ} (hm : ¬ st.Queued m) (n : ℕ) :
    Counted { st with mlen := Function.update st.mlen m n } where
  ids := h.ids
  sane := h.sane
  gauge := by
    intro s f
    have hbytes : ∀ q : List ℕ, m ∉ q → q.map (Function.update st.mlen m n) = q.map st.mlen :=
      fun q hq =>
      List.map_congr_left fun x hx => Function.update_of_ne
        (show x ≠ m from fun heq => hq (heq ▸ hx)) _ _
    have hsame : shares (Function.update st.mlen m n) st.servers s f =
      shares st.mlen st.servers s f := by
      refine congrArg List.sum (List.map_congr_left fun k hk => ?_)
      have hin : m ∉ k.imsgQ := fun hin => hm ⟨k, hk, .inl hin⟩
      have hout : m ∉ k.omsgQ := fun hout => hm ⟨k, hk, .inr hout⟩
      cases f <;> simp only [ServerConn.share, hbytes _ hin, hbytes _ hout]
    exact (h.gauge s f).trans hsame.symm
  clientIds := h.clientIds
  clients := h.clients

/-- A client is closed. -/
theorem Counted.clientClose (h : Counted st) {x : ClientConn} (hx : x ∈ st.clients) :
    Counted (st.clientClose x) where
  ids := h.ids
  sane := h.sane
  gauge := h.gauge
  clientIds := h.clientIds.sublist (List.filter_sublist.map _)
  clients := by
    intro p
    have herase : (st.clients.filter fun y => y.id != x.id) = st.clients.erase x := by
      rw [(List.Nodup.of_map _ h.clientIds).erase_eq_filter]
      refine List.filter_congr fun y hy => ?_
      by_cases heq : y = x
      · simp [heq]
      · have hid : y.id ≠ x.id := fun hid => heq (List.inj_on_of_nodup_map h.clientIds hy hx hid)
        rw [bne_iff_ne.2 hid, bne_iff_ne.2 heq]
    have hcount : st.clients.countP (fun y => y.owner == p) =
        (x :: st.clients.erase x).countP fun y => y.owner == p :=
      (List.perm_cons_erase hx).countP_eq _
    change (if p = x.owner then st.clientConnections p + -1 else st.clientConnections p) =
      (((st.clients.filter fun y => y.id != x.id).countP fun y => y.owner == p : ℕ) : ℤ)
    rw [herase, h.clients p, hcount, List.countP_cons]
    by_cases hp : x.owner = p
    · simp [hp]
    · simp [hp, Ne.symm hp]

/-- A client is accepted. -/
theorem Counted.proxyAccept (h : Counted st) {x : ClientConn}
    (hx : x.id ∉ st.clients.map ClientConn.id)
    (setUp : Bool) : Counted (st.proxyAccept x setUp) := by
  have hin : Counted ({ st with clients := st.clients ++ [x] }.statsPoolIncrBy x.owner 1) :=
    { ids := h.ids
      sane := h.sane
      gauge := h.gauge
      clientIds := by
        change ((st.clients ++ [x]).map ClientConn.id).Nodup
        rw [List.map_append, List.nodup_append]
        refine ⟨h.clientIds, by simp, ?_⟩
        rintro y hy z hz rfl
        rw [List.map_singleton, List.mem_singleton] at hz
        rw [hz] at hy
        exact hx hy
      clients := by
        intro p
        change (if p = x.owner then st.clientConnections p + 1 else st.clientConnections p) =
          (((st.clients ++ [x]).countP fun k => k.owner == p : ℕ) : ℤ)
        rw [List.countP_append, h.clients p]
        by_cases hp : x.owner = p
        · simp [hp]
        · simp [hp, Ne.symm hp] }
  unfold GaugeState.proxyAccept
  dsimp only
  split
  · exact hin
  · exact hin.clientClose (List.mem_append_right _ (List.mem_singleton_self x))

/-- **One step.** -/
theorem Counted.step (h : Counted st) (e : GaugeEvent) : Counted (st.step e) := by
  cases e with
  | conn c s =>
    rw [GaugeState.step]
    split
    · exact h
    · next hc => exact h.conn s hc
  | connect c res =>
    rw [GaugeState.step]
    split
    · exact h
    · next hk => exact h.serverConnect (GaugeState.mem_of_conn? hk).1 res
  | writable =>
    rw [GaugeState.step]
    split
    · exact h
    · next hk =>
      split
      · next hc => exact h.serverConnected (GaugeState.mem_of_conn? hk).1 hc
      · exact h
  | enqueue c m head =>
    rw [GaugeState.step]
    split
    · exact h
    · next hk =>
      split
      · next hsd => exact h.enqueueImsgq (GaugeState.mem_of_conn? hk).1 hsd head m
      · exact h
  | sent c m =>
    rw [GaugeState.step]
    split
    · exact h
    · next k hk =>
      have hmem := (GaugeState.mem_of_conn? hk).1
      split
      · next hm =>
        obtain ⟨h', hk'⟩ := h.dequeueImsgq hmem rfl rfl hm
        have hsd : k.sd = true := by
          by_contra hno
          rw [((h.sane k hmem).bare (by simpa using hno)).2.2.1] at hm
          simp at hm
        unfold GaugeState.reqSendDone
        split
        · exact h'
        · exact h'.enqueueOmsgq hk' rfl rfl hsd m
      · exact h
  | answered =>
    rw [GaugeState.step]
    split
    · exact h
    · next hk =>
      split
      · exact h
      · next m ms hq =>
        exact (h.dequeueOmsgq (GaugeState.mem_of_conn? hk).1 rfl rfl (by rw [hq]; simp)).1
  | close =>
    rw [GaugeState.step]
    split
    · exact h
    · next hk => exact h.serverClose (GaugeState.mem_of_conn? hk).1
  | accept c p setUp =>
    rw [GaugeState.step]
    split
    · exact h
    · next hc => exact h.proxyAccept hc setUp
  | clientClose =>
    rw [GaugeState.step]
    split
    · exact h
    · next hk => exact h.clientClose (List.mem_of_find?_eq_some hk)
  | length m n =>
    rw [GaugeState.step]
    split
    · exact h
    · next hm => exact h.length hm n
  | noreply => exact ⟨h.ids, h.sane, h.gauge, h.clientIds, h.clients⟩

/-- **In every run** a counter is off by the connections that were established at once. -/
theorem Counted.run (es : List GaugeEvent) : Counted (GaugeState.run es) := by
  induction es using List.reverseRecOn with
  | nil => exact ⟨by simp [GaugeState.run], by simp [GaugeState.run], fun s f => by cases f <;> rfl,
      by simp [GaugeState.run], fun p => rfl⟩
  | append_singleton es e ih =>
    rw [GaugeState.run, List.foldl_concat]
    exact ih.step e

end Steps

/-! ### Connections that are established at once -/

theorem GaugeState.serverConnect_instant (st : GaugeState) (k : ServerConn) {res : ConnectResult}
    (h : res ≠ .immediate) : (st.serverConnect k res).instant = st.instant := by
  unfold GaugeState.serverConnect
  split
  · rfl
  · split
    · rfl
    · cases res with
      | immediate => exact absurd rfl h
      | noSocket | failed | inProgress => rfl

theorem GaugeState.foldl_keeps {β : Type} (g : GaugeState → β) {f : GaugeState → ℕ → GaugeState}
    (hf : ∀ st m, g (f st m) = g st) (ms : List ℕ) (st : GaugeState) :
    g (ms.foldl f st) = g st := by
  induction ms generalizing st with
  | nil => rfl
  | cons m ms ih => exact (ih (f st m)).trans (hf st m)

theorem GaugeState.serverClose_instant (st : GaugeState) (k : ServerConn) :
    (st.serverClose k).instant = st.instant := by
  have hstats : (st.serverCloseStats k).instant = st.instant := by
    unfold GaugeState.serverCloseStats
    split <;> rfl
  unfold GaugeState.serverClose
  dsimp only
  split
  · exact hstats
  · refine Eq.trans ?_ hstats
    exact (GaugeState.foldl_keeps GaugeState.instant
      (f := fun st m => st.reqServerDequeueOmsgq k m) (fun _ _ => rfl) k.omsgQ _).trans
      (GaugeState.foldl_keeps GaugeState.instant
        (f := fun st m => st.reqServerDequeueImsgq k m) (fun _ _ => rfl) k.imsgQ _)

/-- Only `connect` establishes a connection at once. -/
theorem GaugeState.step_instant (st : GaugeState) {e : GaugeEvent}
    (h : ∀ c, e ≠ .connect c .immediate) : (st.step e).instant = st.instant := by
  cases e with
  | connect c =>
    rw [GaugeState.step]
    split
    · rfl
    · exact st.serverConnect_instant _ fun hres => h c (by rw [hres])
  | close =>
    rw [GaugeState.step]
    split
    · rfl
    · exact st.serverClose_instant _
  | sent =>
    rw [GaugeState.step]
    split
    · rfl
    · split
      · unfold GaugeState.reqSendDone
        split <;> rfl
      · rfl
  | accept =>
    rw [GaugeState.step]
    split
    · rfl
    · unfold GaugeState.proxyAccept
      dsimp only
      split <;> rfl
  | noreply => rfl
  | conn | length | clientClose =>
    rw [GaugeState.step]
    split <;> rfl
  | writable | enqueue | answered =>
    rw [GaugeState.step]
    split
    · rfl
    · split <;> rfl

theorem GaugeState.run_instant {es : List GaugeEvent}
    (h : ∀ c, GaugeEvent.connect c .immediate ∉ es) :
    (GaugeState.run es).instant = fun _ => 0 := by
  induction es using List.reverseRecOn with
  | nil => rfl
  | append_singleton es e ih =>
    rw [GaugeState.run, List.foldl_concat]
    refine (GaugeState.step_instant _ fun c he => h c (by simp [he])).trans (ih fun c hc => h c ?_)
    exact List.mem_append_left _ hc

/-! ### The queues of the proxy -/

section Queues

variable {κ ι : Type} {env : Env κ ι} {now : ℕ} {p p' : Proxy κ} {st : GaugeState}

/-- The queues of the connections. -/
def Proxy.queues (p : Proxy κ) (c : ℕ) : List ℕ × List ℕ := (p.inQ c, p.outQ c)

theorem Proxy.queues_setConn (p : Proxy κ) (c : ℕ) (f : Conn → Conn) : (p.setConn c f).queues =
    Function.update p.queues c ((f (p.conns c)).imsgQ, (f (p.conns c)).omsgQ) := by
  funext s
  by_cases hs : s = c
  · subst hs
    simp [queues, inQ, outQ]
  · simp [queues, inQ, outQ, hs]

theorem Proxy.queues_setFlags {f : Conn → Conn}
    (hf : ∀ k, (f k).imsgQ = k.imsgQ ∧ (f k).omsgQ = k.omsgQ) (c : ℕ) :
    (p.setConn c f).queues = p.queues := by
  rw [queues_setConn, (hf _).1, (hf _).2]
  exact Function.update_eq_self c p.queues

theorem queues_failOwner (r : ℕ) : (failOwner p r).queues = p.queues := by
  unfold failOwner
  split
  · rfl
  · apply Proxy.queues_setFlags
    exact fun _ => ⟨rfl, rfl⟩

theorem queues_gatherLoop (r : ℕ) (fs : List ℕ) :
    (gatherLoop env r p fs).1.queues = p.queues := by
  induction fs generalizing p with
  | nil => rfl
  | cons f fs ih =>
      rw [gatherLoop]
      split
      · rfl
      · split
        · rfl
        · exact ih

theorem queues_postCoalesce (o : ℕ) : (postCoalesce env p o).queues = p.queues := by
  unfold postCoalesce coalesceInto
  dsimp only
  split
  · rfl
  · split
    · split
      · exact queues_failOwner _
      · rfl
    · split
      · exact queues_failOwner _
      · split <;> split
        · exact queues_gatherLoop _ _
        · exact (queues_failOwner _).trans (queues_gatherLoop _ _)
        · rfl
        · exact queues_failOwner _

theorem queues_reqDoneFirst (c : ℕ) : (reqDoneFirst env p c).queues = p.queues := by
  have hdone (m : ℕ) : (reqDone env p c m).1.queues = p.queues := by
    have hmark (ms : List ℕ) (p : Proxy κ) : (markDone p ms).queues = p.queues := by
      induction ms generalizing p with
      | nil => rfl
      | cons m ms ih => exact ih _
    unfold reqDone
    dsimp only
    repeat' split
    all_goals first | rfl | exact hmark _ p | exact (queues_postCoalesce _).trans (hmark _ p)
  unfold reqDoneFirst
  split
  · rfl
  · dsimp only
    split
    · rw [eventAddOut, Proxy.queues_setFlags, hdone]
      exact fun _ => ⟨rfl, rfl⟩
    · exact hdone _

theorem queues_reqPut (site : PutSite) (m : ℕ) : (reqPut now p site m).queues = p.queues := by
  unfold reqPut dropPeer
  dsimp only
  split <;> rfl

theorem queues_failQueued (m err : ℕ) : (failQueued env p m err).queues = p.queues := by
  have hbump : (bumpOwner (setFailed p m err) m).queues = p.queues := by
    unfold bumpOwner
    split <;> rfl
  unfold failQueued
  dsimp only
  split
  · exact hbump
  · exact (queues_reqDoneFirst _).trans hbump

theorem queues_closeIn {s c : ℕ} (hc : c ≠ s) (err : ℕ) (ms : List ℕ) :
    (closeIn env now s err p ms).queues c = p.queues c := by
  induction ms generalizing p with
  | nil => rfl
  | cons m ms ih =>
      have hone : (p.dequeueIn s m).queues c = p.queues c := by
        rw [Proxy.dequeueIn, Proxy.setIn, Proxy.queues_setConn, Function.update_of_ne hc]
      rw [closeIn]
      split
      · rw [ih, queues_reqPut, hone]
      · rw [ih, queues_failQueued, hone]

theorem queues_closeOut {s c : ℕ} (hc : c ≠ s) (err : ℕ) (ms : List ℕ) :
    (closeOut env now s err p ms).queues c = p.queues c := by
  induction ms generalizing p with
  | nil => rfl
  | cons m ms ih =>
      have hone : (reqServerDequeueOmsgq p s m).queues c = p.queues c := by
        rw [reqServerDequeueOmsgq, Proxy.dequeueOut, Proxy.setOut, Proxy.queues_setConn,
          Function.update_of_ne hc]
        rfl
      rw [closeOut]
      split
      · rw [ih, queues_reqPut, hone]
      · rw [ih, queues_failQueued, hone]

/-- **The connections to servers have the queues that the proxy has.** -/
def Mirrors (st : GaugeState) (p : Proxy κ) : Prop :=
  ∀ k ∈ st.servers, (k.imsgQ, k.omsgQ) = p.queues k.id

/-- One connection is changed on both sides. -/
theorem Mirrors.set {st' : GaugeState} (h : Mirrors st p) {c : ℕ} (F : ServerConn → ServerConn)
    (f : Conn → Conn) (hp : p'.conns = p.conns) (hservers : st'.servers = (st.setConn c F).servers)
    (hF : ∀ k l, k.imsgQ = l.imsgQ → k.omsgQ = l.omsgQ →
      (F k).id = k.id ∧ (F k).imsgQ = (f l).imsgQ ∧ (F k).omsgQ = (f l).omsgQ) :
    Mirrors st' (p'.setConn c f) := by
  intro k hk
  rw [hservers, GaugeState.setConn, List.mem_map] at hk
  obtain ⟨x, hx, rfl⟩ := hk
  have hxq := h x hx
  have hq : p'.queues = p.queues := by
    funext s
    rw [Proxy.queues, Proxy.inQ, Proxy.outQ, hp]
    rfl
  rw [Proxy.queues_setConn, hq, hp]
  split
  · next heq =>
    obtain ⟨hid, hin, hout⟩ := hF x _ (congrArg Prod.fst hxq) (congrArg Prod.snd hxq)
    rw [hid, hin, hout, heq, Function.update_self]
  · next heq => rw [Function.update_of_ne heq, hxq]

theorem Mirrors.setIn {st' : GaugeState} (h : Mirrors st p) (c : ℕ) (f : List ℕ → List ℕ)
    (hp : p'.conns = p.conns)
    (hservers : st'.servers = (st.setConn c fun k => { k with imsgQ := f k.imsgQ }).servers) :
    Mirrors st' (p'.setIn c f) :=
  h.set _ _ hp hservers fun _ _ hin hout => ⟨rfl, congrArg f hin, hout⟩

theorem Mirrors.setOut {st' : GaugeState} (h : Mirrors st p) (c : ℕ) (f : List ℕ → List ℕ)
    (hp : p'.conns = p.conns)
    (hservers : st'.servers = (st.setConn c fun k => { k with omsgQ := f k.omsgQ }).servers) :
    Mirrors st' (p'.setOut c f) :=
  h.set _ _ hp hservers fun _ _ hin hout => ⟨rfl, hin, congrArg f hout⟩

theorem Mirrors.enqueue (h : Mirrors st p) (k : ServerConn) (m : ℕ) :
    Mirrors (st.reqServerEnqueueImsgq false k m) (reqServerEnqueueImsgq env now p k.id m) ∧
      Mirrors (st.reqServerEnqueueImsgq true k m) (reqServerEnqueueImsgqHead env now p k.id m) := by
  have htimed : (if (p.msgs m).noreply then p
      else msgTmoInsert env now p m k.id).conns = p.conns := by
    unfold msgTmoInsert
    split_ifs <;> rfl
  exact ⟨h.setIn k.id (fun q => q ++ [m]) htimed (by rfl),
    h.setIn k.id (fun q => m :: q) htimed (by rfl)⟩

theorem Mirrors.dequeueOut (h : Mirrors st p) (k : ServerConn) (m : ℕ) :
    Mirrors (st.reqServerDequeueOmsgq k m) (reqServerDequeueOmsgq p k.id m) :=
  h.setOut k.id (fun q => q.erase m) (by rfl) (by rfl)

theorem Mirrors.sendDone (h : Mirrors st p) (k : ServerConn) {m : ℕ}
    (hm : st.noreply m = (p.msgs m).noreply) :
    Mirrors (st.reqSendDone k m) (reqSendDone now k.id p m) := by
  have hleft : Mirrors (st.reqServerDequeueImsgq k m) (p.dequeueIn k.id m) :=
    h.setIn k.id _ rfl rfl
  have hm' : ((p.dequeueIn k.id m).msgs m).noreply = st.noreply m := hm.symm
  rw [GaugeState.reqSendDone, reqSendDone, hm']
  split
  · intro x hx
    rw [queues_reqPut]
    exact hleft x hx
  · exact hleft.setOut k.id _ rfl rfl

/-- `server_connected` of the proxy also queues what `post_connect` makes. -/
theorem Mirrors.connected (h : Mirrors st p) (k : ServerConn) :
    Mirrors (if env.select = none then st.serverConnected k
        else (st.serverConnected k).reqServerEnqueueImsgq true k p.nextMsg)
      (serverConnected env now p k.id) := by
  have hset : Mirrors (st.serverConnected k)
      (p.setConn k.id fun x => { x with connecting := false }) :=
    h.set _ _ rfl rfl fun _ _ hin hout => ⟨rfl, hin, hout⟩
  rw [serverConnected]
  cases env.select with
  | none => exact hset
  | some =>
      rw [if_neg (by simp)]
      exact (Mirrors.enqueue (p := (msgGet env _ _).note _) hset k _).2

theorem GaugeState.connPut_setConn {c : ℕ} {F : ServerConn → ServerConn}
    (hid : ∀ k, (F k).id = k.id) :
    ((st.setConn c F).connPut c).servers = (st.connPut c).servers := by
  rw [GaugeState.connPut, GaugeState.connPut, GaugeState.setConn]
  induction st.servers with
  | nil => rfl
  | cons k ks ih =>
      by_cases hk : k.id = c
      · simpa [hk, hid] using ih
      · simpa [hk] using ih

theorem GaugeState.serverClose_servers (k : ServerConn) :
    (st.serverClose k).servers = (st.connPut k.id).servers := by
  have hin (st : GaugeState) (m : ℕ) : ((st.reqServerDequeueImsgq k m).connPut k.id).servers =
      (st.connPut k.id).servers := GaugeState.connPut_setConn fun _ => rfl
  have hout (st : GaugeState) (m : ℕ) : ((st.reqServerDequeueOmsgq k m).connPut k.id).servers =
      (st.connPut k.id).servers := GaugeState.connPut_setConn fun _ => rfl
  have hstats : (((st.serverCloseStats k).setConn k.id fun k =>
      { k with connected := false }).connPut k.id).servers = (st.connPut k.id).servers := by
    rw [GaugeState.connPut_setConn (by exact fun _ => rfl), GaugeState.serverCloseStats]
    split <;> rfl
  unfold GaugeState.serverClose
  dsimp only
  split
  · exact hstats
  · rw [GaugeState.foldl_keeps (fun st => (st.connPut k.id).servers) hout,
      GaugeState.foldl_keeps (fun st => (st.connPut k.id).servers) hin, hstats]

theorem Mirrors.close (h : Mirrors st p) (k : ServerConn) :
    Mirrors (st.serverClose k) (serverClose env now p k.id) := by
  intro x hx
  rw [GaugeState.serverClose_servers, GaugeState.connPut, List.mem_filter] at hx
  have hne : x.id ≠ k.id := by simpa using hx.2
  rw [serverClose, Proxy.queues_setConn, Function.update_of_ne hne, queues_closeOut hne,
    queues_closeIn hne]
  exact h x hx.1

end Queues

/-- **The counters are right, and so never negative, in every state of every run in which no
connection is established within `connect`.** -/
theorem gauges_exact {es : List GaugeEvent} (h : ∀ c, GaugeEvent.connect c .immediate ∉ es) :
    (∀ s f, (GaugeState.run es).gauge s f = ((GaugeState.run es).truth s f : ℤ) ∧
      0 ≤ (GaugeState.run es).gauge s f) ∧
    ∀ p, (GaugeState.run es).clientConnections p =
        (((GaugeState.run es).clients.countP fun k => k.owner == p : ℕ) : ℤ) ∧
      0 ≤ (GaugeState.run es).clientConnections p := by
  have hrun := Counted.run es
  constructor
  · intro s f
    have hdrift : (GaugeState.run es).drift s f = 0 := by
      rw [GaugeState.drift, GaugeState.run_instant h]
      split <;> rfl
    have heq : (GaugeState.run es).gauge s f = ((GaugeState.run es).truth s f : ℤ) := by
      rw [truth_eq_shares, ← hrun.gauge, hdrift, add_zero]
    exact ⟨heq, by rw [heq]; exact Int.natCast_nonneg _⟩
  · intro p
    exact ⟨hrun.clients p, by rw [hrun.clients p]; exact Int.natCast_nonneg _⟩

/-- A connection that is established in its own time, with a request on its way. -/
theorem gauges_exact_request :
    (GaugeState.run
      [.length 7 5, .conn 0 0, .connect 0 .inProgress, .writable 0, .enqueue 0 7 false,
      .sent 0 7]).gauge 0 .outQueueBytes = 5 := by
  have hasync : ∀ c, GaugeEvent.connect c .immediate ∉ [GaugeEvent.length 7 5, .conn 0 0,
      .connect 0 .inProgress, .writable 0, .enqueue 0 7 false, .sent 0 7] := by simp
  exact ((gauges_exact hasync).1 0 .outQueueBytes).1

/-- **A connection that is established at once is not counted**, and closing it makes the counter
negative. -/
theorem gauge_negative :
    (GaugeState.run [.conn 0 0, .connect 0 .immediate]).gauge 0 .serverConnections = 0 ∧
      (GaugeState.run [.conn 0 0, .connect 0 .immediate]).truth 0 .serverConnections = 1 ∧
      (GaugeState.run [.conn 0 0, .connect 0 .immediate, .close 0]).gauge 0 .serverConnections =
        -1 ∧
      (GaugeState.run [.conn 0 0, .connect 0 .immediate, .close 0]).truth 0 .serverConnections =
        0 := by
  decide

end CacheProxy
