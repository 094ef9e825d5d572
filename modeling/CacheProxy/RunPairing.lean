/-
**Requests and their responses.**

Which response belongs to which request, and when a fragmented request is complete, in every
reachable state.  Both depend on something the source does not guarantee: a message whose length is
a multiple of `2 ^ 32` looks empty, so that `rsp_filter` throws a reply away and leaves its request
in the queue; and `req_forward_error` does not count the fragment it marks as done.

Main definitions:

* `Ample` — no message of a run looks empty;
* `Pairs` — responses belong to their requests.

Main results:

* `run_pairs` — **every response belongs to its request**, if no message looks empty;
* `mispaired_hugeReply` — a reply that looks empty shifts the replies behind it;
* `run_counted` — **fragments are counted exactly if all of them could be forwarded**;
* `miscounted_mget` — a request that is never complete.
-/

import CacheProxy.RunSafety

namespace CacheProxy

variable {κ ι : Type} {env : Env κ ι} {es : List (ℕ × Event κ ι)}

/-! ### Pairing -/

/-- **No allocation fails, and no message looks empty**: the length of no reply, and of no request
or fragment that is forwarded, is a multiple of `2 ^ 32`. -/
structure Ample (env : Env κ ι) (es : List (ℕ × Event κ ι)) : Prop where
  own : env.Full
  requests : ∀ e ∈ es, ∀ c reqs rest, e.2 = .clientRead c reqs rest →
    ∀ x ∈ reqs, ∀ next, ∃ f, env.fragment x.place next x.con = some f ∧ f.Ample
  replies : ∀ e ∈ es, ∀ s con, e.2 = .reply s con → con.mlen ≠ 0

theorem Ample.meets (h : Ample env es) : Meets env ⟨True, False, False, False⟩ es where
  full := fun _ => h.own
  events := by
    intro e he
    obtain ⟨t, e⟩ := e
    cases e with
    | clientRead c reqs rest =>
      refine ⟨fun x hx => ⟨fun n => ?_, False.elim⟩, False.elim⟩
      obtain ⟨f, hf, hample⟩ := h.requests _ he c reqs rest rfl x hx n
      exact ⟨f, hf, fun _ => hample⟩
    | reply s con => exact fun _ => h.replies _ he s con rfl
    | preconnect => exact False.elim
    | _ => trivial
  ticking := False.elim

/-- **Responses belong to their requests.**  `answers r` is the request that a server made the
reply `r` for, or that the proxy made it for itself. -/
structure Pairs (p : Proxy κ) : Prop where
  /-- what `rsp_forward` attached to a request is the reply to it -/
  attached : ∀ x ∈ p.hist.attached, p.hist.answers x.2 = some x.1
  /-- what was finished on a client belongs to the request it was finished for, -/
  finished : ∀ c, ∀ x ∈ p.hist.finished c, p.hist.answers x.2 = some x.1
  /-- at most one to a request, in the order in which the requests came, and before the requests
  that are still in the queue -/
  order : ∀ c, (p.conns c).kind = .client →
    ((p.hist.finished c).map Prod.fst ++ p.outQ c).Sublist (p.hist.arrived c)
  closed : ∀ c, ((p.hist.finished c).map Prod.fst).Sublist (p.hist.arrived c)
  once : ∀ c, (p.hist.arrived c).Nodup

/-- **Every response belongs to its request**, in every run in which no message looks empty. -/
theorem run_pairs (env : Env κ ι) (es : List (ℕ × Event κ ι)) (h : Ample env es) :
    Pairs (run env es) := by
  have hf := run_fine es h.meets 0 False.elim
  have hpaired := hf.paired trivial
  refine ⟨fun x hx => (hpaired.attached x hx).2, fun c x hx => (hpaired.finished c x hx).2,
    fun c hc => ?_, fun c => ?_, hf.order.nodup⟩
  · have hsub := hf.order.sublist c
    rwa [Ledger.pending, if_pos (show (ledger (run env es)).kind c = .client from hc)] at hsub
  · exact (List.sublist_append_left _ _).trans (hf.order.sublist c)

/-! ### A reply that looks empty -/

/-- `GET` of the key `k`. -/
def getOf (k : String) : Content RedisRegs := redisRequest 464 (lines ["*2", "$3", "GET", "$1", k])

/-- All keys go to one server. -/
def oneServer : Placement := ⟨1, fun _ _ => 0⟩

/-- The bytes of a bulk of `2 ^ 32 - 15` bytes: there are `2 ^ 32` of them. -/
def hugeBytes : List Byte :=
  str "$4294967281" ++ [CR, LF] ++ List.replicate 4294967281 0 ++ [CR, LF]

/-- The reply with these bytes, in mbufs of 464, when the last of them was read. -/
def hugeReply : Content RedisRegs where
  mhdr := (List.range 9256396).map fun i => { id := i, body := (hugeBytes.drop (464 * i)).take 464 }
  mlen := 0
  regs := { rsp := { state := .bulkArg, type := .rspRedisBulk } }

theorem flatMap_pieces (k n : ℕ) (bs : List Byte) :
    ((List.range n).flatMap fun i => (bs.drop (k * i)).take k) = bs.take (k * n) := by
  induction n with
  | zero => simp
  | succ n ih =>
    rw [List.range_succ, List.flatMap_append, ih, List.flatMap_singleton, Nat.mul_succ,
      List.take_add]

theorem hugeBytes_length : hugeBytes.length = 2 ^ 32 := by
  rw [hugeBytes, List.length_append, List.length_append, List.length_append, List.length_replicate]
  rfl

/-- The recorded length of the reply is right modulo `2 ^ 32`. -/
theorem hugeReply_mlen :
    content hugeReply.mhdr = hugeBytes ∧
      hugeReply.mlen = wrap32 (content hugeReply.mhdr).length := by
  have hbytes : content hugeReply.mhdr = hugeBytes := by
    have hpieces := flatMap_pieces 464 9256396 hugeBytes
    rw [List.take_of_length_le (by rw [hugeBytes_length]; decide)] at hpieces
    rw [content, hugeReply, List.flatMap_map]
    exact hpieces
  refine ⟨hbytes, ?_⟩
  rw [hbytes, hugeBytes_length]
  rfl

/-- A client asks for `a` and `b`; both requests are written to one server, which sends a huge
value of `a` and then the value of `b`. -/
def hugeRun (first : Content RedisRegs) : List (ℕ × Event RedisRegs Placement) :=
  [(1, .accept 1),
    (2, .clientRead 1 [⟨getOf "a", oneServer, fun _ => .conn 2 true none⟩] none),
    (3, .clientRead 1 [⟨getOf "b", oneServer, fun _ => .conn 2 true none⟩] none),
    (4, .serverSend 2 [.sent 1000, .again]),
    (5, .reply 2 first),
    (6, .reply 2 (redisResponse 464 (lines ["$1", "B"])))]

/-- **A reply that looks empty shifts the replies**: the value of `b` is attached to the request
for `a`. -/
theorem mispaired_hugeReply :
    content hugeReply.mhdr = hugeBytes ∧ hugeReply.mlen = wrap32 (content hugeReply.mhdr).length ∧
      Allocates (redisEnv plainConf) (hugeRun hugeReply) ∧
      ((run (redisEnv plainConf) (hugeRun hugeReply)).hist.attached.map fun x =>
        (x.1, (run (redisEnv plainConf) (hugeRun hugeReply)).hist.answers x.2)) =
          [(0, some 1)] := by
  refine ⟨hugeReply_mlen.1, hugeReply_mlen.2, ?_, by decide +kernel⟩
  intro e he c reqs rest heq x hx next
  simp only [hugeRun, List.mem_cons, List.not_mem_nil, or_false] at he
  rcases he with rfl | rfl | rfl | rfl | rfl | rfl <;> cases heq <;>
    cases List.mem_singleton.1 hx <;> rfl

/-- With small replies each request gets its own. -/
theorem run_pairs_small :
    (run (redisEnv plainConf)
        (hugeRun (redisResponse 464 (lines ["$1", "A"])))).hist.attached = [(0, 2), (1, 3)] ∧
      Pairs (run (redisEnv plainConf) (hugeRun (redisResponse 464 (lines ["$1", "A"])))) := by
  refine ⟨by decide +kernel, run_pairs _ _
    ⟨⟨by decide +kernel, by simp [redisEnv, plainConf]⟩, ?_, ?_⟩⟩
  · intro e he c reqs rest heq x hx next
    simp only [hugeRun, List.mem_cons, List.not_mem_nil, or_false] at he
    have hget : (getOf "a").mlen ≠ 0 ∧ (getOf "b").mlen ≠ 0 := by decide +kernel
    rcases he with rfl | rfl | rfl | rfl | rfl | rfl <;> cases heq <;>
      cases List.mem_singleton.1 hx
    · exact ⟨_, rfl, fun _ => hget.1, by simp⟩
    · exact ⟨_, rfl, fun _ => hget.2, by simp⟩
  · intro e he s con heq
    simp only [hugeRun, List.mem_cons, List.not_mem_nil, or_false] at he
    rcases he with rfl | rfl | rfl | rfl | rfl | rfl <;> cases heq <;> decide +kernel

/-! ### The number of fragments that are done -/

/-- None of the fragments of `o` failed to be forwarded. -/
def AllForwarded (p : Proxy κ) (o : ℕ) : Prop := ∀ k ∈ p.hist.frags o, p.hist.failed k = false

/-- **Fragments are counted exactly if all of them could be forwarded**: for every request in
fragments that is in the queue of its client, `nfrag_done` is the number of fragments that are done
if and only if none of them failed to be forwarded, and when all are done `req_done` holds if and
only if that is so, or it had held before. -/
theorem run_counted (env : Env κ ι) (es : List (ℕ × Event κ ι)) (h : Allocates env es) (c o : ℕ)
    (client : ((run env es).conns c).kind = .client) (queued : o ∈ (run env es).outQ c)
    (owner : ((run env es).msgs o).fragOwner = some o) :
    (((run env es).msgs o).nfragDone =
        ((run env es).hist.frags o).countP (fun k => ((run env es).msgs k).done) ↔
      AllForwarded (run env es) o) ∧
    ((∀ k ∈ (run env es).hist.frags o, ((run env es).msgs k).done = true) →
      ((reqDone env (run env es) c o).2 = true ↔
        ((run env es).msgs o).fdone = true ∨ AllForwarded (run env es) o)) := by
  have hf := h.fine 0
  have calm := hf.calm fun _ hl => hl.elim
  have hq : (ledger (run env es)).InClient c o := ⟨client, queued⟩
  obtain ⟨hn, hcount⟩ := hf.counts.count c o hq owner (calm c client)
  have hfailed : AllForwarded (run env es) o ↔
      ((ledger (run env es)).frags o).countP (ledger (run env es)).failed = 0 := by
    rw [List.countP_eq_zero]
    exact forall₂_congr fun k _ => (Bool.not_eq_true _).symm.to_iff
  change (((ledger (run env es)).nfragDone o =
    ((ledger (run env es)).frags o).countP (ledger (run env es)).done) ↔ _) ∧ _
  refine ⟨?_, fun hall => ?_⟩
  · rw [hfailed]
    omega
  · obtain ⟨-, hflag, -⟩ := reqDone_spec (hf.also c) hq calm (.inl rfl) (.inr (.inl owner))
    have hdone : ((ledger (run env es)).frags o).countP (ledger (run env es)).done =
        ((ledger (run env es)).frags o).length := List.countP_eq_length.2 hall
    have hid : (ledger (run env es)).fragId o ≠ 0 := fun hz =>
      Option.some_ne_none o (owner.symm.trans ((hf.groups.zero o).1 hz))
    rw [hflag, Ledger.Over, hfailed]
    constructor
    · rintro ⟨-, hz | hd | ⟨hle, -⟩⟩
      · exact absurd hz hid
      · exact .inl hd
      · right
        omega
    · intro hor
      refine ⟨hf.parts.ownerDone c o hq owner, .inr (hor.imp_right fun hz => ⟨by omega, ?_⟩)⟩
      intro k hk hkid
      have hko : (ledger (run env es)).fragOwner k = some o := by
        obtain ⟨x, hx⟩ := Option.ne_none_iff_exists'.1 fun hnone =>
          hid (hkid.symm.trans ((hf.groups.zero k).2 hnone))
        exact hf.groups.same k o x o hx owner hkid ▸ hx
      rcases (hf.groups.owner k o hko).2.2.2 with rfl | hmem
      · exact hf.parts.ownerDone c k hq owner
      · exact hall k hmem

/-- A client asks for two keys; the first is written to its server and answered, and there is no
connection to the other server. -/
def refusedRun : List (ℕ × Event RedisRegs Placement) :=
  [(1, .accept 1),
    (2, .clientRead 1 [⟨mgetRequest, twoServers, fun i =>
      if i = 0 then .conn 2 true none else .none 111⟩] none),
    (3, .serverSend 2 [.sent 1000, .again]),
    (4, .reply 2 (redisResponse 464 (lines ["*1", "$1", "A"])))]

/-- **A request that is never complete**: both fragments are done, and the request is not. -/
theorem miscounted_mget :
    Allocates (redisEnv plainConf) refusedRun ∧
      ((run (redisEnv plainConf) refusedRun).conns 1).omsgQ = [0, 1, 2] ∧
      ((run (redisEnv plainConf) refusedRun).msgs 0).fragOwner = some 0 ∧
      ((run (redisEnv plainConf) refusedRun).hist.frags 0) = [1, 2] ∧
      ((run (redisEnv plainConf) refusedRun).msgs 1).done = true ∧
      ((run (redisEnv plainConf) refusedRun).msgs 2).done = true ∧
      ((run (redisEnv plainConf) refusedRun).msgs 0).nfragDone = 1 ∧
      (reqDone (redisEnv plainConf) (run (redisEnv plainConf) refusedRun) 1 0).2 = false := by
  refine ⟨?_, by decide +kernel⟩
  intro e he c reqs rest heq x hx next
  simp only [refusedRun, List.mem_cons, List.not_mem_nil, or_false] at he
  rcases he with rfl | rfl | rfl | rfl <;> cases heq
  cases List.mem_singleton.1 hx
  rfl

/-- With both servers reachable the counter is right. -/
theorem run_counted_mget :
    (∀ k ∈ (run (redisEnv plainConf) mgetRun).hist.frags 0,
        (run (redisEnv plainConf) mgetRun).hist.failed k = false) ∧
      ((run (redisEnv plainConf) mgetRun).msgs 0).nfragDone =
        ((run (redisEnv plainConf) mgetRun).hist.frags 0).countP
          (fun k => ((run (redisEnv plainConf) mgetRun).msgs k).done) := by
  have hall : AllForwarded (run (redisEnv plainConf) mgetRun) 0 := by
    intro k hk
    have hfrags : (run (redisEnv plainConf) mgetRun).hist.frags 0 = [1, 2] := by decide +kernel
    rw [hfrags] at hk
    rcases List.mem_pair.1 hk with rfl | rfl <;> decide +kernel
  exact ⟨hall, (run_counted _ _ allocates_mgetRun 1 0 (by decide +kernel) (by decide +kernel)
    (by decide +kernel)).1.2 hall⟩

end CacheProxy
