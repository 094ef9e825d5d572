/-
**What holds in every reachable state of the proxy.**

The invariants of `CacheProxy/LedgerSound.lean`, read off the state of the proxy after any run.  A
run is any list of events; all that is assumed is that no allocation fails.

Main definitions:

* `Allocates` — no allocation fails in a run;
* `Lifetimes`, `TreeTracks` — where messages are, and what the timeout tree has.

Main results:

* `run_lifetimes` — **queue membership and message lifetime**;
* `run_treeTracks` — **the timeout tree has the outstanding requests**, and `core_timeout` ends, if
  no allocation fails; `untracked_mget` is a request for which one does;
* `run_sendActive` — **no lost wakeup**: a client whose first request is done is watched.
-/

import CacheProxy.RedisPool
import CacheProxy.RefineRun

namespace CacheProxy

variable {κ ι : Type} {env : Env κ ι} {es : List (ℕ × Event κ ι)} {p : Proxy κ}

/-! ### Runs without failing allocations -/

/-- **No allocation fails** in a run: every request can be fragmented. -/
def Allocates (env : Env κ ι) (es : List (ℕ × Event κ ι)) : Prop :=
  ∀ e ∈ es, ∀ c reqs rest, e.2 = .clientRead c reqs rest →
    ∀ x ∈ reqs, ∀ next, (env.fragment x.place next x.con).isSome

/-- Nothing else is assumed of a run. -/
def noAssumption : Assumed := ⟨False, False, False, False⟩

theorem Allocates.meets (h : Allocates env es) : Meets env noAssumption es where
  full := False.elim
  events := by
    intro e he
    obtain ⟨t, e⟩ := e
    cases e with
    | clientRead c reqs rest =>
      refine ⟨fun x hx => ⟨fun n => ?_, False.elim⟩, False.elim⟩
      obtain ⟨f, hf⟩ := Option.isSome_iff_exists.1 (h _ he c reqs rest rfl x hx n)
      exact ⟨f, hf, False.elim⟩
    | reply | preconnect => exact False.elim
    | _ => trivial
  ticking := False.elim

/-- The invariants after a run. -/
theorem Allocates.fine (h : Allocates env es) (now : ℕ) :
    Fine env noAssumption now {} (fun _ => False) (run env es) :=
  run_fine es h.meets now False.elim

/-! ### Queues and lifetimes -/

/-- A request in one of the queues of a server. -/
def Proxy.AtServer (p : Proxy κ) (s m : ℕ) : Prop :=
  (p.conns s).kind = .server ∧ (m ∈ p.inQ s ∨ m ∈ p.outQ s)

/-- **Where messages are.** -/
structure Lifetimes (p : Proxy κ) : Prop where
  /-- a request that is done is in no queue of a server -/
  undone : ∀ s m, p.AtServer s m → (p.msgs m).done = false
  /-- a request in a queue of a server is there once, and in no other one -/
  once : ∀ s, (p.conns s).kind = .server → (p.inQ s ++ p.outQ s).Nodup
  unique : ∀ s t m, p.AtServer s m → p.AtServer t m → s = t
  /-- a message that was given back is in no queue, -/
  queues : ∀ m, p.freed m = true → ∀ c, m ∉ p.inQ c ∧ m ∉ p.outQ c
  /-- not in the timeout tree, -/
  untimed : ∀ m, p.freed m = true → ∀ e ∈ p.tmo, e.msg ≠ m
  /-- not what a connection receives or sends, -/
  current : ∀ m, p.freed m = true → ∀ c, (p.conns c).rmsg ≠ some m ∧ (p.conns c).smsg ≠ some m
  /-- and not linked to a message that was not given back -/
  unlinked : ∀ m, p.freed m = true → ∀ q, p.Live q → (p.msgs q).peer ≠ some m
  /-- `frag_owner` was followed only to a message of the same client that is in its queue -/
  owners : ∀ d ∈ p.hist.derefs, d.ok = true

theorem lifetimes_of_fine {a : Assumed} {now : ℕ} (h : Fine env a now {} (fun _ => False) p) :
    Lifetimes p where
  undone := fun s m hm => (h.queues.server s m hm).2.2.1
  once := fun s _ => h.queues.nodup s
  unique := h.queues.unique
  queues := by
    intro m hm c
    have hlive : ∀ k, (ledger p).Live k → k ≠ m := by
      rintro k hk rfl
      exact Bool.noConfusion (hm.symm.trans hk.2)
    constructor
    · intro hin
      by_cases hk : (ledger p).kind c = .server
      · exact hlive m (h.queues.server c m ⟨hk, .inl hin⟩).1 rfl
      · have : m ∈ (ledger p).inQ c := hin
        simp [h.queues.inEmpty c hk] at this
    · intro hout
      by_cases hk : (ledger p).kind c = .server
      · exact hlive m (h.queues.server c m ⟨hk, .inr hout⟩).1 rfl
      · by_cases hc : (ledger p).kind c = .client
        · exact hlive m (h.queues.client c m ⟨hc, hout⟩).1 rfl
        · have : m ∈ (ledger p).outQ c := hout
          simp [h.queues.outEmpty c hk hc] at this
  untimed := by
    rintro m hm e he rfl
    exact Bool.noConfusion (hm.symm.trans (h.tree.live e he).1.2)
  current := by
    intro m hm c
    constructor
    · intro hr
      exact Bool.noConfusion (hm.symm.trans (h.waiting.reading c m hr).1.1.1.2)
    · intro hs
      exact h.settled.smsg c fun hn => by
        rw [show (p.conns c).smsg = none from hn] at hs
        cases hs
  unlinked := by
    intro m hm q hq hpeer
    exact Bool.noConfusion (hm.symm.trans (h.links.pair q m hq hpeer).1.2)
  owners := List.all_eq_true.1 h.parts.sound

/-- **Queue membership and message lifetime**, in every reachable state. -/
theorem run_lifetimes (env : Env κ ι) (es : List (ℕ × Event κ ι)) (h : Allocates env es) :
    Lifetimes (run env es) :=
  lifetimes_of_fine (h.fine 0)

/-! ### The timeout tree -/

/-- **What the timeout tree has.** -/
structure TreeTracks (env : Env κ ι) (p : Proxy κ) : Prop where
  /-- a request that waits for a server is in the tree once, with the connection -/
  timed : ∀ s m, p.AtServer s m → (p.msgs m).noreply = false →
    (p.tmo.filter fun e => e.msg == m).map TmoNode.conn = [s]
  /-- a request in the tree that is neither done nor in error is in a queue of its connection -/
  queued : ∀ e ∈ p.tmo, (p.msgs e.msg).done = false → (p.msgs e.msg).error = false →
    p.AtServer e.conn e.msg
  /-- `core_timeout` has closed no connection that was not open -/
  opened : p.obs.badClose = false
  /-- an expired request leaves the tree when its connection is closed -/
  shrinks : ∀ now, ∀ e ∈ p.tmo, (p.msgs e.msg).done = false → (p.msgs e.msg).error = false →
    (closeExpired env now p e).tmo.length < p.tmo.length
  /-- `core_timeout` ends -/
  ends : ∀ now, (timeoutLoop env now (p.tmo.length + 1) p).2 = true

/-- In a list without repetitions, what has a given key is one element. -/
theorem filter_eq_singleton {l : List TmoNode} (hnd : (l.map TmoNode.msg).Nodup) {e : TmoNode}
    (he : e ∈ l) : l.filter (fun x => x.msg == e.msg) = [e] := by
  induction l with
  | nil => cases he
  | cons x xs ih =>
    rw [List.map_cons, List.nodup_cons] at hnd
    rcases List.mem_cons.1 he with rfl | he
    · rw [List.filter_cons_of_pos (by simp)]
      congr 1
      refine List.filter_eq_nil_iff.2 fun y hy => ?_
      simpa using fun heq : y.msg = e.msg => hnd.1 (heq ▸ List.mem_map_of_mem hy)
    · have hne : x.msg ≠ e.msg := fun heq => hnd.1 (heq ▸ List.mem_map_of_mem he)
      rw [List.filter_cons_of_neg (by simpa using hne), ih hnd.2 he]

/-- **The timeout tree tracks the outstanding requests**, in every reachable state. -/
theorem run_treeTracks (env : Env κ ι) (timed : 0 < env.timeout) (es : List (ℕ × Event κ ι))
    (h : Allocates env es) : TreeTracks env (run env es) where
  timed := by
    intro s m hm hn
    have hf := h.fine 0
    have hopen : (ledger (run env es)).closing s = false := by
      by_contra hc
      rcases hf.settled.opened s (.inl (by simpa using hc)) with hk | hl
      · rw [show (ledger (run env es)).kind s = .server from hm.1] at hk
        cases hk
      · exact hl
    obtain ⟨e, he, rfl, rfl⟩ := hf.tree.timed timed s m hm hn hopen
    exact congrArg (List.map TmoNode.conn) (filter_eq_singleton hf.tree.nodup he)
  queued := fun e he hd _ => (h.fine 0).tree.queued e he hd
  opened := (h.fine 0).stray
  shrinks := fun now e he hd _ => (closeExpired_fine (h.fine now) he hd).2
  ends := fun now => (timeoutLoop_fine _ (h.fine now) (Nat.lt_succ_self _)).2

/-! ### Wakeups -/

/-- **No lost wakeup**: in every reachable state, a client that is open and not in error and whose
first request is done is watched for writing. -/
theorem run_sendActive (env : Env κ ι) (es : List (ℕ × Event κ ι)) (h : Allocates env es) (c m : ℕ)
    (client : ((run env es).conns c).kind = .client) (good : ((run env es).conns c).err = 0)
    (first : ((run env es).outQ c).head? = some m)
    (done : (reqDone env (run env es) c m).2 = true) :
    ((run env es).conns c).sendActive = true := by
  have hf := h.fine 0
  have calm := hf.calm fun _ hl => hl.elim
  obtain ⟨rest, hout⟩ : ∃ rest, (ledger (run env es)).outQ c = m :: rest := by
    obtain ⟨rest, hl⟩ := List.head?_eq_some_iff.1 first
    exact ⟨rest, hl⟩
  have hmem : m ∈ (ledger (run env es)).outQ c := by simp [hout]
  obtain ⟨-, hflag, -⟩ := reqDone_spec (hf.also c) ⟨client, hmem⟩ calm (.inl rfl)
    (hf.head_own client (calm c client) hout)
  rcases hf.settled.awake c client ⟨m, rest, hout, hflag.1 done⟩ with hawake | hbusy
  · simpa [ledger, good] using hawake
  · exact hbusy.elim

/-! ### A run -/

/-- A pool without a password. -/
def plainConf : RedisConf where
  size := 464
  timeout := 400
  strerror := fun _ => str "Connection refused"

/-- A request with the keys `a` and `b`. -/
def mgetRequest : Content RedisRegs :=
  redisRequest 464 (lines ["*3", "$4", "MGET", "$1", "a", "$1", "b"])

/-- `PING` -/
def pingRequest : Content RedisRegs := redisRequest 464 (lines ["*1", "$4", "PING"])

/-- The `j`-th key goes to the `j`-th of two servers. -/
def twoServers : Placement := ⟨2, fun j _ => j⟩

/-- A client asks for two keys, which wait for connections to two servers, and pings. -/
def mgetRun : List (ℕ × Event RedisRegs Placement) :=
  [(1, .accept 1),
    (2, .clientRead 1 [⟨mgetRequest, twoServers, fun i => .conn (2 + i) true none⟩] none)]

/-- A client pings. -/
def pingRun : List (ℕ × Event RedisRegs Placement) :=
  [(1, .accept 1), (2, .clientRead 1 [⟨pingRequest, twoServers, fun _ => .none 0⟩] none)]

theorem allocates_mgetRun : Allocates (redisEnv plainConf) mgetRun := by
  intro e he c reqs rest heq x hx next
  simp only [mgetRun, List.mem_cons, List.not_mem_nil, or_false] at he
  rcases he with rfl | rfl
  · cases heq
  · cases heq
    cases List.mem_singleton.1 hx
    rfl

theorem allocates_pingRun : Allocates (redisEnv plainConf) pingRun := by
  intro e he c reqs rest heq x hx next
  simp only [pingRun, List.mem_cons, List.not_mem_nil, or_false] at he
  rcases he with rfl | rfl
  · cases heq
  · cases heq
    cases List.mem_singleton.1 hx
    rfl

theorem run_lifetimes_mget :
    ((run (redisEnv plainConf) mgetRun).conns 3).imsgQ = [2] ∧
      Lifetimes (run (redisEnv plainConf) mgetRun) :=
  ⟨by decide +kernel, run_lifetimes _ _ allocates_mgetRun⟩

theorem run_treeTracks_mget :
    (run (redisEnv plainConf) mgetRun).tmo.map TmoNode.conn = [2, 3] ∧
      TreeTracks (redisEnv plainConf) (run (redisEnv plainConf) mgetRun) :=
  ⟨by decide +kernel, run_treeTracks _ (by decide) _ allocates_mgetRun⟩

/-- A pool in which no memory is left when a request has to be fragmented. -/
def noMemory : Env RedisRegs Placement := { redisEnv plainConf with fragment := fun _ _ _ => none }

/-- **A request that cannot be fragmented is lost to the tree**: it is in error and done, is
forwarded all the same, and leaves the tree with its client while it waits for the server. -/
theorem untracked_mget :
    0 < noMemory.timeout ∧ ¬ TreeTracks noMemory
      (run noMemory (mgetRun ++ [(3, .clientClose 1)])) := by
  refine ⟨by decide, fun h => ?_⟩
  have hwaits : (run noMemory (mgetRun ++ [(3, .clientClose 1)])).AtServer 2 0 :=
    ⟨by decide +kernel, .inl (by decide +kernel)⟩
  have htree : (run noMemory (mgetRun ++ [(3, .clientClose 1)])).tmo = [] := by decide +kernel
  have htimed := h.timed 2 0 hwaits (by decide +kernel)
  rw [htree] at htimed
  cases htimed

theorem run_sendActive_ping :
    (reqDone (redisEnv plainConf) (run (redisEnv plainConf) pingRun) 1 0).2 = true ∧
      ((run (redisEnv plainConf) pingRun).conns 1).sendActive = true := by
  have hdone : (reqDone (redisEnv plainConf) (run (redisEnv plainConf) pingRun) 1 0).2 = true := by
    decide +kernel
  exact ⟨hdone, run_sendActive _ _ allocates_pingRun 1 0 (by decide +kernel) (by decide +kernel)
    (by decide +kernel) hdone⟩

end CacheProxy
