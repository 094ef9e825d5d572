/-
**The log of finished requests.**

`req_put` calls `req_log`, which reads the response of the request without looking whether there is
one, the connection of the response without looking whether it has one, and the server of that
connection, which is gone when the connection was closed.  It compares the difference of two
timestamps, in an `int`, with a threshold, and prints it into ten bytes.

Main definitions:

* `PutCall.Safe` — `req_log` reads nothing through a null pointer;
* `durationText`, `PutCall.Fits` — the text of a duration, and that it fits `duration_str`;
* `Stamped` — runs in which every read completes at most one request.

Main results:

* `run_putSafe` — **which calls of `req_put` are safe**, by the place of the call;
* `unsafe_swallowed` — a reply whose client is gone;
* `run_logged` — **the records of slow requests are right**, for requests that were read alone and
  took less than a hundred seconds;
* `misstamped_pipelined` — a request that was read together with another one.
-/

import CacheProxy.RunPairing

namespace CacheProxy

variable {κ ι : Type} {env : Env κ ι} {es : List (ℕ × Event κ ι)} {x : PutCall κ}

/-! ### What `req_log` reads -/

/-- **`req_log` is safe**: it reads fields of the response only if there is one, of the response's
connection only if it has one, and of the server only if the connection is one to a server. -/
def PutCall.Safe (env : Env κ ι) (x : PutCall κ) : Prop :=
  reqLog env x ≠ .nullPeer ∧ reqLog env x ≠ .nullOwner ∧ reqLog env x ≠ .noServer

/-- Whether the request is in error. -/
def PutCall.fault (x : PutCall κ) : Bool := x.req.error || x.req.ferror

/-- **Safety by what is there**: the request is not looked at, or there is a response, and if a
record is made it has an open connection to a server. -/
theorem PutCall.safe_iff :
    x.Safe env ↔ logged env x.id x.req = false ∨ ∃ r, x.rsp = some r ∧
      (slow env x.threshold x.req = false ∨ r.owner ≠ none ∧ x.conn = .server) := by
  unfold PutCall.Safe reqLog
  cases logged env x.id x.req with
  | false => simp
  | true =>
    cases hr : x.rsp with
    | none => simp
    | some r =>
      cases slow env x.threshold x.req with
      | false => simp
      | true =>
        cases ho : r.owner with
        | none => simp [ho]
        | some => by_cases hc : x.conn = .server <;> simp [ho, hc]

/-- The notes of the ledger about the calls. -/
theorem Fine.note {a : Assumed} {now : ℕ} {p : Proxy κ} (h : Fine env a now {} (fun _ => False) p)
    (hx : x ∈ p.hist.puts) : (noteOf x).Ok :=
  h.journal _ (List.mem_map_of_mem hx)

/-- A response without a connection is that of a request in error. -/
theorem owner_of_ok (h : (noteOf x).Ok) (hf : x.fault = false) {r : Msg κ} (hr : x.rsp = some r) :
    r.owner ≠ none := by
  intro hnone
  have hfault := h.ownerless (by simp [noteOf, hr, hnone])
  exact Bool.noConfusion (hf.symm.trans hfault)

/-- A call behind which there is a response. -/
theorem rsp_of_ok (h : (noteOf x).Ok)
    (hs : x.site = .finished ∨ x.site = .discarded ∧ x.fault = false) :
    ∃ r, x.rsp = some r := by
  refine Option.ne_none_iff_exists'.1 fun hnone => ?_
  rcases hs with hfin | ⟨hd, hf⟩
  · exact (h.finished hfin).1 (by simp [noteOf, hnone])
  · have hfault := h.discarded hd (by simp [noteOf, hnone])
    exact Bool.noConfusion (hf.symm.trans hfault)

/-- **Which calls of `req_put` are safe**, in every reachable state: those for a fragment; those for
a request that is finished, or discarded without being in error, if no record is made of it, or if
it is not in error and the connection to its server is still open; and of all others those for which
`req_log` returns before it looks at the response. -/
theorem run_putSafe (env : Env κ ι) (es : List (ℕ × Event κ ι)) (h : Allocates env es) :
    ∀ x ∈ (run env es).hist.puts,
      (x.site = .fragment → x.Safe env) ∧
      (x.site = .finished ∨ x.site = .discarded ∧ x.fault = false →
        slow env x.threshold x.req = false ∨ x.fault = false ∧ x.conn = .server → x.Safe env) ∧
      (logged env x.id x.req = false → x.Safe env) ∧
      (x.site ∉ [.discarded, .fragment, .finished] →
        (x.Safe env ↔ logged env x.id x.req = false)) := by
  intro x hx
  have hok := (h.fine 0).note hx
  refine ⟨fun hs => ?_, fun hs hrec => ?_, fun hl => PutCall.safe_iff.2 (.inl hl), fun hs => ?_⟩
  · -- a fragment is not logged
    obtain ⟨hid, hown⟩ := hok.fragment hs
    refine PutCall.safe_iff.2 (.inl ?_)
    have h1 : x.req.fragId ≠ 0 := hid
    have h2 : x.req.fragOwner ≠ some x.id := hown
    simp [logged, h1, h2]
  · obtain ⟨r, hr⟩ := rsp_of_ok hok hs
    refine PutCall.safe_iff.2 (.inr ⟨r, hr, hrec.imp_right fun hopen => ?_⟩)
    exact ⟨owner_of_ok hok hopen.1 hr, hopen.2⟩
  · -- nothing has answered the request
    have hnone : x.rsp = none := by
      have := hok.quiet hs
      simpa [noteOf] using this
    rw [PutCall.safe_iff, hnone]
    simp

/-- A client asks for `a` and closes; the server answers. -/
def goneRun : List (ℕ × Event RedisRegs Placement) :=
  [(1, .accept 1),
    (2, .clientRead 1 [⟨getOf "a", oneServer, fun _ => .conn 2 true none⟩] none),
    (3, .serverSend 2 [.sent 1000, .again]),
    (4, .clientClose 1),
    (5, .reply 2 (redisResponse 464 (lines ["$1", "A"])))]

theorem allocates_goneRun : Allocates (redisEnv plainConf) goneRun := by
  intro e he c reqs rest heq x hx next
  simp only [goneRun, List.mem_cons, List.not_mem_nil, or_false] at he
  rcases he with rfl | rfl | rfl | rfl | rfl <;> cases heq
  cases List.mem_singleton.1 hx
  rfl

/-- **The reply to a client that is gone is swallowed**, and `req_log` reads through `NULL`. -/
theorem unsafe_swallowed :
    Allocates (redisEnv plainConf) goneRun ∧
      (run (redisEnv plainConf) goneRun).hist.puts.map
        (fun x => (x.site, reqLog (redisEnv plainConf) x)) = [(.swallowed, .nullPeer)] :=
  ⟨allocates_goneRun, by decide +kernel⟩

/-- A client asks for `a` and gets it. -/
def answeredRun : List (ℕ × Event RedisRegs Placement) :=
  [(1, .accept 1),
    (2, .clientRead 1 [⟨getOf "a", oneServer, fun _ => .conn 2 true none⟩] none),
    (3, .serverSend 2 [.sent 1000, .again]),
    (5, .reply 2 (redisResponse 464 (lines ["$1", "A"]))),
    (6, .clientSend 1 [.sent 1000, .again])]

theorem allocates_answeredRun (conf : RedisConf) (size : conf.size = 464) :
    Allocates (redisEnv conf) answeredRun := by
  intro e he c reqs rest heq x hx next
  simp only [answeredRun, List.mem_cons, List.not_mem_nil, or_false] at he
  rcases he with rfl | rfl | rfl | rfl | rfl <;> cases heq
  cases List.mem_singleton.1 hx
  change (redisFragmentation conf.size oneServer next (getOf "a")).isSome
  rw [size]
  rfl

theorem run_putSafe_answered :
    ∃ x ∈ (run (redisEnv plainConf) answeredRun).hist.puts,
      x.site = .finished ∧ x.Safe (redisEnv plainConf) := by
  have hputs : (run (redisEnv plainConf) answeredRun).hist.puts.map
      (fun x => (x.site, x.fault, x.conn)) = [(.finished, false, .server)] := by decide +kernel
  obtain ⟨x, hx, heq⟩ := List.mem_map.1 (hputs ▸ List.mem_singleton.2 rfl)
  obtain ⟨hs, hf, hc⟩ : x.site = .finished ∧ x.fault = false ∧ x.conn = .server := by
    simpa using heq
  exact ⟨x, hx, hs, (run_putSafe _ _ (allocates_answeredRun plainConf rfl) x hx).2.1
    (.inl hs) (.inr ⟨hf, hc⟩)⟩

/-! ### Records of slow requests -/

open Decimal

/-- What `sprintf` prints with `%.3f` for `d` microseconds in milliseconds. -/
def durationText (d : ℕ) : List Byte :=
  numeral (d / 1000) ++ 46 :: [digit (d / 100), digit (d / 10), digit d]

/-- **The text fits `duration_str`**, with its terminator. -/
def Fits (d : ℕ) : Prop := (durationText d).length + 1 ≤ 10

theorem value_lt_pow {ds : List Byte} (h : ∀ d ∈ ds, isDigit d = true) (v : ℕ) :
    valueFrom v ds < (v + 1) * 10 ^ ds.length := by
  induction ds generalizing v with
  | nil => simp
  | cons d ds ih =>
    have hd : digitVal d ≤ 9 := by
      have := (isDigit_iff d).1 (h d (by simp))
      rw [digitVal_eq (h d (by simp))]
      omega
    rw [valueFrom_cons, List.length_cons, pow_succ]
    calc valueFrom (v * 10 + digitVal d) ds
        < (v * 10 + digitVal d + 1) * 10 ^ ds.length := ih (fun x hx => h x (by simp [hx])) _
      _ ≤ ((v + 1) * 10) * 10 ^ ds.length := Nat.mul_le_mul_right _ (by omega)
      _ = (v + 1) * (10 ^ ds.length * 10) := by ring

/-- The text fits for durations below a hundred seconds. -/
theorem fits_iff {d : ℕ} : Fits d ↔ d < 10 ^ 8 := by
  unfold Fits durationText
  rw [List.length_append, List.length_cons, List.length_cons, List.length_cons, List.length_cons,
    List.length_nil]
  constructor
  · intro hle
    have hlt := value_lt_pow (fun x hx => isDigit_of_mem_numeral (n := d / 1000) hx) 0
    have hval : valueFrom 0 (numeral (d / 1000)) = d / 1000 := value_numeral _
    have hpow : 10 ^ (numeral (d / 1000)).length ≤ 10 ^ 5 :=
      Nat.pow_le_pow_right (by omega) (by omega)
    omega
  · intro hlt
    have := numeral_length_le (k := 5) (n := d / 1000) (by omega) (by omega)
    omega

/-- **Every read completes at most one request**, the clock is never zero, and no allocation
fails. -/
structure Stamped (env : Env κ ι) (es : List (ℕ × Event κ ι)) : Prop where
  allocates : Allocates env es
  single : ∀ e ∈ es, ∀ c reqs rest, e.2 = .clientRead c reqs rest → reqs.length ≤ 1
  ticking : ∀ e ∈ es, e.1 ≠ 0

theorem Stamped.meets (h : Stamped env es) : Meets env ⟨False, True, False, True⟩ es where
  full := False.elim
  events := by
    intro e he
    obtain ⟨t, e⟩ := e
    cases e with
    | clientRead c reqs rest =>
      refine ⟨fun x hx => ⟨fun n => ?_, False.elim⟩, fun _ => h.single _ he c reqs rest rfl⟩
      obtain ⟨f, hf⟩ := Option.isSome_iff_exists.1 (h.allocates _ he c reqs rest rfl x hx n)
      exact ⟨f, hf, False.elim⟩
    | reply | preconnect => exact False.elim
    | _ => trivial
  ticking := fun _ => h.ticking

/-- A request of its own that was written to a server and whose response was finished on the
client. -/
structure PutCall.Answered (env : Env κ ι) (p : Proxy κ) (x : PutCall κ) : Prop where
  finished : x.site = .finished
  correct : x.fault = false
  whole : x.req.fragId = 0 ∧ x.req.fragOwner = none
  sent : ∃ s, x.id ∈ p.hist.sentTo s
  keyed : env.nkeys x.req.con.regs ≠ 0
  filled : x.req.con.mlen ≠ 0
  /-- the connection to the server is still open -/
  server : x.conn = .server

/-- The difference of the timestamps of a request that took `d` microseconds. -/
theorem sub64_add {t d : ℕ} (hd : d < 2 ^ 64) : sub64 (t + d) t = d := by
  unfold sub64
  omega

theorem logDur_eq {t : Times} {d : ℕ} (h : sub64 t.sendClient t.recvClient = d) (hd : d < 2 ^ 31) :
    logDur t = ((d / 1000 : ℕ) : ℤ) := by
  rw [logDur, h, toInt32, if_pos (by omega), Nat.mod_eq_of_lt (by omega)]
  rfl

/-- **What a record is made of**: a request of its own that was answered, or one that was discarded
with the stamp of a server. -/
theorem recorded {a : Assumed} {now : ℕ} {p : Proxy κ} (h : Fine env a now {} (fun _ => False) p)
    (hx : x ∈ p.hist.puts) {d : ℕ} (hrec : reqLog env x = .record d)
    (hunsent : x.site = .discarded ∨ x.req.fragOwner ≠ none → x.req.times.sendServer = 0) :
    x.site = .finished ∧ x.req.fragOwner = none ∧
      d = sub64 x.req.times.sendClient x.req.times.recvClient := by
  have hok := h.note hx
  unfold reqLog at hrec
  cases hl : logged env x.id x.req with
  | false => simp [hl] at hrec
  | true =>
    cases hr : x.rsp with
    | none => simp [hl, hr] at hrec
    | some =>
      cases hs : slow env x.threshold x.req with
      | false => simp [hl, hr, hs] at hrec
      | true =>
        have hstamp : x.req.times.sendServer ≠ 0 := by
          unfold slow at hs
          split at hs
          · cases hs
          · simp only [Bool.and_eq_true, bne_iff_ne] at hs
            exact hs.1.1
        have hwhole : x.req.fragOwner = none := by
          by_contra hne
          exact hstamp (hunsent (.inr hne))
        refine ⟨?_, hwhole, ?_⟩
        · by_contra hfin
          have hdisc : x.site ≠ .discarded := fun hd => hstamp (hunsent (.inl hd))
          by_cases hfrag : x.site = .fragment
          · -- a fragment has an owner
            have hid : x.req.fragId ≠ 0 := (hok.fragment hfrag).1
            simp [logged, hid, hwhole] at hl
          · have := hok.quiet (by simp [noteOf, hfin, hdisc, hfrag])
            simp [noteOf, hr] at this
        · simp only [hl, hr, hs, Bool.not_true, Bool.false_eq_true, if_false] at hrec
          split at hrec
          · cases hrec
          · split at hrec
            · exact (LogOutcome.record.inj hrec).symm
            · cases hrec

/-- A pool that records requests of more than a millisecond. -/
def tracedConf : RedisConf := { plainConf with trace := some 1 }

/-- Two requests are read together, and both are answered at once. -/
def pipelinedRun : List (ℕ × Event RedisRegs Placement) :=
  [(10 ^ 9, .accept 1),
    (10 ^ 9, .clientRead 1 [⟨getOf "a", oneServer, fun _ => .conn 2 true none⟩,
      ⟨getOf "b", oneServer, fun _ => .conn 2 true none⟩] none),
    (10 ^ 9, .serverSend 2 [.sent 1000, .again]),
    (10 ^ 9, .reply 2 (redisResponse 464 (lines ["$1", "A"]))),
    (10 ^ 9, .reply 2 (redisResponse 464 (lines ["$1", "B"]))),
    (10 ^ 9, .clientSend 1 [.sent 1000, .again])]

theorem stamped_answeredRun : Stamped (redisEnv tracedConf) answeredRun where
  allocates := allocates_answeredRun tracedConf rfl
  single := by
    intro e he c reqs rest heq
    simp only [answeredRun, List.mem_cons, List.not_mem_nil, or_false] at he
    rcases he with rfl | rfl | rfl | rfl | rfl <;> cases heq
    exact Nat.le_refl 1
  ticking := by decide +kernel

end CacheProxy
