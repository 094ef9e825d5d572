/-
**How many clients are admitted.**

The number of clients that the proxy admits is what is left of the descriptor limit when the
connections of all servers, a listening socket for each pool and a reserve are taken off.  All of it
is computed in 32 bits and nothing is checked: where the servers alone need more descriptors than
there are, the difference wraps and almost any number of clients is admitted.

Main definitions:

* `serverPoolEachCalcConnections`, `coreCalcConnections` — the sum and the difference of the source;
* `Descriptors`, `descriptorStep` — the descriptors in use, as clients and server connections come
  and go;
* `demand` — the descriptors that the servers and the listening sockets can take.

Main results:

* `coreCalcConnections_le` — the budget fits when the demand and the reserve are within the limit;
* `Descriptors.Within.run` — what a run can take;
* `connection_budget` — **the budget fits exactly then**, and then no run exhausts the descriptors;
* `connection_budget_wraps` — thirty-three descriptors, one server, and `2 ^ 32 - 1` clients.
-/

import CacheProxy.Receive
import Mathlib.Algebra.Group.Action.Defs
import Mathlib.Algebra.Order.BigOperators.Group.List

namespace CacheProxy

/-! ### The computation -/

/-- `RESERVED_FDS`. -/
def reservedFds : ℕ := 32

/-- A pool: `server_connections`, and of each server the connections in its queue (`ns_conn_q`). -/
structure PoolConns where
  serverConnections : ℕ
  nsConnQ : List ℕ
  deriving DecidableEq, Repr

/-- What the context holds of the computation. -/
structure ConnLimits where
  maxNfd : ℕ
  maxNcconn : ℕ
  maxNsconn : ℕ
  deriving DecidableEq, Repr

/-- `server_pool_each_calc_connections`. -/
def serverPoolEachCalcConnections (maxNsconn : ℕ) (p : PoolConns) : ℕ :=
  wrap32 (wrap32 (maxNsconn + wrap32 (p.serverConnections * p.nsConnQ.length)) + 1)

/-- The part of `server_pool_init` that computes `max_nsconn`. -/
def calcConnections (pools : List PoolConns) : ℕ := pools.foldl serverPoolEachCalcConnections 0

/-- `core_calc_connections`, given what `getrlimit` answers and `max_nsconn`. -/
def coreCalcConnections (getrlimit : Option ℕ) (maxNsconn : ℕ) : Option ConnLimits :=
  getrlimit.map fun rlimCur =>
    { maxNfd := wrap32 rlimCur
      maxNcconn := sub32 (sub32 (wrap32 rlimCur) maxNsconn) reservedFds
      maxNsconn := maxNsconn }

/-- **The demand** of the pools: all server connections, and a listening socket for each pool. -/
def demand (pools : List PoolConns) : ℕ :=
  (pools.map fun p => p.serverConnections * p.nsConnQ.length + 1).sum

section Computation

variable {pools : List PoolConns} {limit : ℕ} {ctx : ConnLimits}

theorem foldl_calcConnections (pools : List PoolConns) :
    ∀ n, pools.foldl serverPoolEachCalcConnections (wrap32 n) = wrap32 (n + demand pools) := by
  induction pools with
  | nil =>
    intro n
    rfl
  | cons p pools ih =>
    intro n
    have hstep : serverPoolEachCalcConnections (wrap32 n) p =
        wrap32 (n + (p.serverConnections * p.nsConnQ.length + 1)) := by
      simp only [serverPoolEachCalcConnections, wrap32]
      omega
    rw [List.foldl_cons, hstep, ih, demand, demand, List.map_cons, List.sum_cons, Nat.add_assoc]

/-- The sum is the demand, in 32 bits. -/
theorem calcConnections_eq (pools : List PoolConns) :
    calcConnections pools = wrap32 (demand pools) := by
  have h := foldl_calcConnections pools 0
  rw [Nat.zero_add] at h
  exact h

/-- **The budget fits** when the demand and the reserve are within the limit. -/
theorem coreCalcConnections_le
    (h : coreCalcConnections (some limit) (calcConnections pools) = some ctx)
    (hfit : demand pools + reservedFds ≤ limit) :
    ctx.maxNcconn + demand pools + reservedFds ≤ limit := by
  cases h
  simp only [calcConnections_eq, sub32, wrap32, reservedFds] at hfit ⊢
  omega

end Computation

/-! ### Connections come and go -/

/-- The descriptors in use. -/
structure Descriptors where
  ncurrCconn : ℕ
  pools : List PoolConns
  deriving DecidableEq, Repr

inductive DescriptorEvent where
  /-- `proxy_accept`: a client is closed again when there are `max_ncconn` already. -/
  | accept
  | closeClient
  /-- `server_conn`: a connection of a server is asked for. -/
  | serverConn (pool server : ℕ)
  | closeServer (pool server : ℕ)
  deriving DecidableEq, Repr

/-- `server_conn`: a new connection, unless there are `server_connections` of them. -/
def PoolConns.serverConn (server : ℕ) (p : PoolConns) : PoolConns :=
  { p with nsConnQ := p.nsConnQ.modify server fun n =>
    if n < p.serverConnections then n + 1 else n }

def PoolConns.closeServer (server : ℕ) (p : PoolConns) : PoolConns :=
  { p with nsConnQ := p.nsConnQ.modify server fun n => n - 1 }

def descriptorStep (ctx : ConnLimits) (d : Descriptors) : DescriptorEvent → Descriptors
  | .accept => if d.ncurrCconn ≥ ctx.maxNcconn then d else { d with ncurrCconn := d.ncurrCconn + 1 }
  | .closeClient => { d with ncurrCconn := d.ncurrCconn - 1 }
  | .serverConn pool server => { d with pools := d.pools.modify pool (PoolConns.serverConn server) }
  | .closeServer pool server =>
      { d with pools := d.pools.modify pool (PoolConns.closeServer server) }

/-- The descriptors of the clients, the servers and the listening sockets. -/
def Descriptors.used (d : Descriptors) : ℕ :=
  d.ncurrCconn + (d.pools.map fun p => p.nsConnQ.sum + 1).sum

/-- No server of the pool has more connections than the pool allows. -/
def PoolConns.Within (p : PoolConns) : Prop := ∀ n ∈ p.nsConnQ, n ≤ p.serverConnections

/-- **The invariant**: neither the clients nor a server have more connections than they may. -/
structure Descriptors.Within (ctx : ConnLimits) (need : ℕ) (d : Descriptors) : Prop where
  clients : d.ncurrCconn ≤ ctx.maxNcconn
  servers : ∀ p ∈ d.pools, p.Within
  demand_eq : demand d.pools = need

section Run

variable {ctx : ConnLimits} {need : ℕ} {d : Descriptors}

theorem forall_mem_modify {α : Type} {P : α → Prop} {f : α → α} (hf : ∀ a, P a → P (f a)) :
    ∀ (xs : List α) (i : ℕ), (∀ a ∈ xs, P a) → ∀ a ∈ xs.modify i f, P a := by
  intro xs
  induction xs with
  | nil =>
    intro i h a ha
    rw [List.modify_nil] at ha
    exact h a ha
  | cons x xs ih =>
    intro i h a ha
    cases i with
    | zero =>
      rw [List.modify_zero_cons] at ha
      rcases List.mem_cons.1 ha with rfl | ha
      · exact hf _ (h _ List.mem_cons_self)
      · exact h a (List.mem_cons_of_mem _ ha)
    | succ i =>
      rw [List.modify_succ_cons] at ha
      rcases List.mem_cons.1 ha with rfl | ha
      · exact h _ List.mem_cons_self
      · exact ih i (fun b hb => h b (List.mem_cons_of_mem _ hb)) a ha

theorem PoolConns.Within.serverConn {p : PoolConns} (h : p.Within) (server : ℕ) :
    (p.serverConn server).Within := by
  intro n hn
  refine forall_mem_modify (fun k hk => ?_) p.nsConnQ server h n hn
  split <;> omega

theorem PoolConns.Within.closeServer {p : PoolConns} (h : p.Within) (server : ℕ) :
    (p.closeServer server).Within := by
  intro n hn
  refine forall_mem_modify (fun k hk => ?_) p.nsConnQ server h n hn
  omega

/-- A change of the queues leaves the demand. -/
theorem demand_modify {f : PoolConns → PoolConns}
    (hconn : ∀ p, (f p).serverConnections = p.serverConnections)
    (hlen : ∀ p, (f p).nsConnQ.length = p.nsConnQ.length) :
    ∀ (pools : List PoolConns) (i : ℕ), demand (pools.modify i f) = demand pools := by
  intro pools
  induction pools with
  | nil =>
    intro i
    rw [List.modify_nil]
  | cons p pools ih =>
    intro i
    cases i with
    | zero => simp only [demand, List.modify_zero_cons, List.map_cons, List.sum_cons, hconn, hlen]
    | succ i =>
      have ih := ih i
      simp only [demand] at ih
      simp only [demand, List.modify_succ_cons, List.map_cons, List.sum_cons, ih]

/-- **One step.** -/
theorem Descriptors.Within.step (h : d.Within ctx need) (ev : DescriptorEvent) :
    (descriptorStep ctx d ev).Within ctx need := by
  cases ev with
  | accept =>
    rw [descriptorStep]
    split
    · exact h
    · next hlt => exact ⟨not_le.mp hlt, h.servers, h.demand_eq⟩
  | closeClient => exact ⟨(Nat.sub_le _ _).trans h.clients, h.servers, h.demand_eq⟩
  | serverConn pool server =>
    refine ⟨h.clients, forall_mem_modify (fun p hp => hp.serverConn server) d.pools pool h.servers,
      ?_⟩
    exact (demand_modify (f := PoolConns.serverConn server) (fun _ => rfl)
      (fun _ => List.length_modify ..) d.pools
      pool).trans h.demand_eq
  | closeServer pool server =>
    refine ⟨h.clients, forall_mem_modify (fun p hp => hp.closeServer server) d.pools pool h.servers,
      ?_⟩
    exact (demand_modify (f := PoolConns.closeServer server) (fun _ => rfl)
      (fun _ => List.length_modify ..) d.pools
      pool).trans h.demand_eq

/-- **A run.** -/
theorem Descriptors.Within.run : ∀ (evs : List DescriptorEvent) {d : Descriptors},
    d.Within ctx need →
    (evs.foldl (descriptorStep ctx) d).Within ctx need := by
  intro evs
  induction evs with
  | nil =>
    intro d h
    exact h
  | cons ev evs ih =>
    intro d h
    exact ih (h.step ev)

theorem PoolConns.Within.sum_le {p : PoolConns} (h : p.Within) :
    p.nsConnQ.sum ≤ p.serverConnections * p.nsConnQ.length := by
  have hle := List.sum_le_card_nsmul p.nsConnQ p.serverConnections h
  rw [smul_eq_mul, Nat.mul_comm] at hle
  exact hle

theorem Descriptors.Within.used_le (h : d.Within ctx need) : d.used ≤ ctx.maxNcconn + need := by
  have hservers : (d.pools.map fun p => p.nsConnQ.sum + 1).sum ≤ demand d.pools :=
    List.sum_le_sum fun p hp => Nat.add_le_add_right (h.servers p hp).sum_le 1
  rw [h.demand_eq] at hservers
  exact Nat.add_le_add h.clients hservers

end Run

/-! ### The budget -/

/-- No connection is open yet. -/
def PoolConns.Idle (p : PoolConns) : Prop := ∀ n ∈ p.nsConnQ, n = 0

instance (p : PoolConns) : Decidable p.Idle := inferInstanceAs (Decidable (∀ n ∈ p.nsConnQ, n = 0))

/-- **The client connection budget.**  The clients that may be admitted, the demand of the pools and
the reserve are within the descriptor limit exactly if the demand and the reserve alone are; and
then, however clients and server connections come and go, the descriptors in use and the reserve
stay within the limit. -/
theorem connection_budget {pools : List PoolConns} {limit : ℕ} {ctx : ConnLimits}
    (h : coreCalcConnections (some limit) (calcConnections pools) = some ctx) :
    (ctx.maxNcconn + demand pools + reservedFds ≤ limit ↔ demand pools + reservedFds ≤ limit) ∧
      (demand pools + reservedFds ≤ limit → (∀ p ∈ pools, p.Idle) → ∀ evs : List DescriptorEvent,
        (evs.foldl (descriptorStep ctx) ⟨0, pools⟩).used + reservedFds ≤ limit) := by
  refine ⟨⟨fun hle => by omega, coreCalcConnections_le h⟩, fun hfit hidle evs => ?_⟩
  have hstart : Descriptors.Within ctx (demand pools) ⟨0, pools⟩ :=
    ⟨Nat.zero_le _, fun p hp n hn => by rw [hidle p hp n hn]; exact Nat.zero_le _, rfl⟩
  have hused := (hstart.run evs).used_le
  have hbudget := coreCalcConnections_le h hfit
  omega

/-- Thirty-six descriptors for one pool of one server: two clients. -/
theorem connection_budget_small :
    (2 + demand [⟨1, [0]⟩] + reservedFds ≤ 36 ↔ demand [⟨1, [0]⟩] + reservedFds ≤ 36) ∧
      ([.accept, .serverConn 0 0, .accept, .accept].foldl (descriptorStep ⟨36, 2, 2⟩)
        ⟨0, [⟨1, [0]⟩]⟩).used +
        reservedFds ≤ 36 := by
  have h : coreCalcConnections (some 36) (calcConnections [⟨1, [0]⟩]) = some ⟨36, 2, 2⟩ := by decide
  exact ⟨(connection_budget h).1, (connection_budget h).2 (by decide) (by decide) _⟩

/-- Thirty-three descriptors are one too few for that pool and the reserve: the difference wraps,
and with thirty-three clients the descriptors in use are more than the limit. -/
theorem connection_budget_wraps :
    coreCalcConnections (some 33) (calcConnections [⟨1, [0]⟩]) = some ⟨33, 2 ^ 32 - 1, 2⟩ ∧
      33 < (2 ^ 32 - 1) + demand [⟨1, [0]⟩] + reservedFds ∧
      33 < ((List.replicate 33 DescriptorEvent.accept).foldl (descriptorStep ⟨33, 2 ^ 32 - 1, 2⟩)
        ⟨0, [⟨1, [0]⟩]⟩).used :=
  ⟨by decide, by decide, by decide +kernel⟩

end CacheProxy
