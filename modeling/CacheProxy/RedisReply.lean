/-
**Redis replies, byte by byte.**

`redis_parse_rsp` as a parser that keeps a token: its actions at each byte, without the pointers to
the header of a multi-bulk reply, which decide nothing.  Without these pointers the parser of the
source is the parser given by the actions, so that it simulates the byte machine of the actions.

Main definitions:

* `RspCore`, `redisRspAct`, `redisRsp` — the registers, the actions and the parser made from them;
* `RspRegs.seen` — what is seen of the registers of the source.

Main results:

* `redisParseRsp_seen` — the parser of the source, seen without the pointers;
* `redisParseRsp_sim` — **`redis_parse_rsp` simulates the byte machine**.
-/

import CacheProxy.ParserView
import CacheProxy.RedisResponse
import CacheProxy.TokenParser

namespace CacheProxy

open Decimal

/-! ### The actions -/

/-- The registers that decide how the parser goes on. -/
structure RspCore where
  state : RspState := .start
  rlen : ℕ := 0
  rnarg : ℕ := 0
  narg : ℕ := 0
  integer : ℕ := 0
  type : MsgType := .unknown
  deriving DecidableEq, Repr

namespace RspCore

variable (k : RspCore)

/-- Go on in state `s`. -/
def goto (s : RspState) : Act RspCore := .next { k with state := s } .keep false false

/-- Go on in state `s`, the token being complete. -/
def closes (s : RspState) : Act RspCore := .next { k with state := s } .clear false false

/-- Go on with a token that begins here. -/
def opens : Act RspCore := .next k .set false false

/-- Go on as before. -/
def stays : Act RspCore := .next k .keep false false

/-- A line feed, behind which the parser goes on in state `s`. -/
def lfAct (c : Byte) (s : RspState) : Act RspCore := if c = LF then k.goto s else .error

/-- The line feed behind an element, or behind the number of elements. -/
def argnLfAct (c : Byte) : Act RspCore :=
  if c = LF then if k.rnarg = 0 then .done else k.goto .multibulkArgnLen else .error

/-- `SW_ERROR` -/
def errorAct (tok : Option (List Byte)) (c : Byte) : Act RspCore :=
  match tok with
  | none => if c ≠ 45 then .error else k.opens
  | some w =>
      if c = 32 ∨ c = CR then { k with type := redisErrorType k.type w }.closes .runtoCrlf
        else k.stays

/-- `SW_INTEGER_START` -/
def integerAct (c : Byte) : Act RspCore :=
  if c = CR then k.goto .almostDone
  else if c = 45 then k.stays
  else if isDigit c then { k with integer := wrap32 (k.integer * 10 + digitVal c) }.stays
  else .error

/-- `SW_BULK` -/
def bulkAct (tok : Option (List Byte)) (c : Byte) : Act RspCore :=
  match tok with
  | none => if c ≠ 36 then .error else { k with rlen := 0 }.opens
  | some w =>
      if c = 45 then k.goto .runtoCrlf
      else if isDigit c then { k with rlen := wrap32 (k.rlen * 10 + digitVal c) }.stays
      else if c = CR then if w.length ≤ 1 then .error else k.closes .bulkLf
      else .error

/-- `SW_MULTIBULK` -/
def multibulkAct (tok : Option (List Byte)) (c : Byte) : Act RspCore :=
  match tok with
  | none => if c ≠ 42 then .error else { k with rnarg := 0 }.opens
  | some w =>
      if c = 45 then k.goto .runtoCrlf
      else if isDigit c then { k with rnarg := wrap32 (k.rnarg * 10 + digitVal c) }.stays
      else if c = CR then
        if w.length ≤ 1 then .error else { k with narg := k.rnarg }.closes .multibulkNargLf
      else .error

/-- `SW_MULTIBULK_ARGN_LEN` -/
def argnLenAct (tok : Option (List Byte)) (c : Byte) : Act RspCore :=
  match tok with
  | none =>
      if c = 42 then { k with state := .multibulk }.multibulkAct none c
      else if c = 58 ∨ c = 43 ∨ c = 45 then k.goto .simple
      else if c ≠ 36 then .error
      else { k with rlen := 0 }.opens
  | some w =>
      if isDigit c then { k with rlen := wrap32 (k.rlen * 10 + digitVal c) }.stays
      else if c = 45 then k.stays
      else if c = CR then
        if w.length ≤ 1 ∨ k.rnarg = 0 then .error
        else if k.rlen = 1 ∧ w.length = 3 then
          { k with rlen := 0, rnarg := k.rnarg - 1 }.closes .multibulkArgnLf
        else { k with rnarg := k.rnarg - 1 }.closes .multibulkArgnLenLf
      else .error

/-- The states that pass over `rlen` bytes and a carriage return. -/
def skipAct (s : RspState) : Act RspCore :=
  .skip k.rlen (fun j => { k with rlen := j })
    (fun c => if c = CR then some { k with rlen := 0, state := s } else none)

/-- `SW_START` -/
def startAct (tok : Option (List Byte)) (c : Byte) : Act RspCore :=
  if c = 43 then { k with type := .rspRedisStatus }.goto .runtoCrlf
  else if c = 45 then { k with type := .rspRedisError, state := .error }.errorAct tok c
  else if c = 58 then { k with type := .rspRedisInteger, integer := 0 }.goto .integerStart
  else if c = 36 then { k with type := .rspRedisBulk, state := .bulk }.bulkAct tok c
  else if c = 42 then { k with type := .rspRedisMultibulk, state := .multibulk }.multibulkAct tok c
  else .error

end RspCore

open RspCore in
/-- **What `redis_parse_rsp` does at a byte.** -/
def redisRspAct (k : RspCore) (tok : Option (List Byte)) (c : Byte) : Act RspCore :=
  match k.state with
  | .start => k.startAct tok c
  | .status => k.goto .runtoCrlf
  | .error => k.errorAct tok c
  | .integer => { k with integer := 0 }.goto .integerStart
  | .integerStart => k.integerAct c
  | .simple =>
      if c = CR then { k with rnarg := wrap32 (k.rnarg + (2 ^ 32 - 1)) }.goto .multibulkArgnLf
      else k.stays
  | .bulk => k.bulkAct tok c
  | .bulkLf => k.lfAct c .bulkArg
  | .bulkArg => k.skipAct .bulkArgLf
  | .bulkArgLf => if c = LF then .done else .error
  | .multibulk => k.multibulkAct tok c
  | .multibulkNargLf => k.argnLfAct c
  | .multibulkArgnLen => k.argnLenAct tok c
  | .multibulkArgnLenLf => k.lfAct c .multibulkArgn
  | .multibulkArgn => k.skipAct .multibulkArgnLf
  | .multibulkArgnLf => k.argnLfAct c
  | .runtoCrlf => if c = CR then k.goto .almostDone else k.stays
  | .almostDone => if c = LF then .done else .error

/-- The parser made from the actions. -/
def redisRsp : TokenParser RspCore where
  init := {}
  act := redisRspAct
  rewind k := k
  finish k := { k with state := .start }

/-! ### The parser of the source -/

/-- What is seen of the registers: all but the pointers to the header of a multi-bulk reply. -/
def RspRegs.seen (r : RspRegs) : TokRegs RspCore where
  core := { state := r.state, rlen := r.rlen, rnarg := r.rnarg, narg := r.narg, integer := r.integer
            type := r.type }
  token := r.token

/-- What an action does to the offsets. -/
def Act.flow {κ : Type} (x : Act κ) (b : Mbuf) (p : ℕ) (r : TokRegs κ) : Flow (TokRegs κ) :=
  TokenParser.step ⟨r.core, fun _ _ _ => x, id, id⟩ 0 b p 0 r

section Agree

variable {b : Mbuf} {p : ℕ} {ch : Byte} {r : RspRegs}

/-- An action that goes on, and an iteration that leaves what the action says. -/
theorem flow_next {r' : RspRegs} {k : RspCore} {m : TokenMove} (h : r'.seen.core = k)
    (htok : r'.token = m.offset r.token p) :
    (Flow.next p r').Agrees RspRegs.seen ((Act.next k m false false).flow b p r.seen) := by
  refine ⟨rfl, ?_⟩
  have hseen : r'.seen = ⟨r'.seen.core, r'.token, [], none⟩ := rfl
  rw [hseen, h, htok]
  rfl

theorem flow_error {r' : RspRegs} :
    (Flow.error r').Agrees RspRegs.seen ((Act.error : Act RspCore).flow b p r.seen) := trivial

theorem flow_done : (Flow.done p r).Agrees RspRegs.seen
    ((Act.done : Act RspCore).flow b p r.seen) :=
  ⟨rfl, rfl⟩

/-- The open token, as bytes. -/
def RspRegs.tok (r : RspRegs) (b : Mbuf) (p : ℕ) : Option (List Byte) :=
  r.token.map fun t => slice b.data t p

theorem lfCase_agrees (s : RspState) :
    (RspRegs.lfCase p ch r s).Agrees RspRegs.seen ((r.seen.core.lfAct ch s).flow b p r.seen) := by
  unfold RspRegs.lfCase RspCore.lfAct
  split
  · exact flow_next rfl rfl
  · exact flow_error

theorem lastLf_agrees : (RspRegs.lastLf p ch r).Agrees RspRegs.seen
    ((if ch = LF then .done else .error : Act RspCore).flow b p r.seen) := by
  unfold RspRegs.lastLf
  split
  · exact flow_done
  · exact flow_error

theorem argnLf_agrees : (RspRegs.argnLf p ch r).Agrees RspRegs.seen
    ((r.seen.core.argnLfAct ch).flow b p r.seen) := by
  unfold RspRegs.argnLf RspCore.argnLfAct
  split
  · change Flow.Agrees _ (if r.rnarg = 0 then _ else _)
      ((if r.rnarg = 0 then _ else _ : Act RspCore).flow b p r.seen)
    split
    · exact flow_done
    · exact flow_next rfl rfl
  · exact flow_error

/-- `SW_ERROR`, also when it is applied at the first byte, where `r₀` are the registers before. -/
theorem errorCase_agrees {r₀ : RspRegs} (h₀ : r.token = r₀.token) :
    (RspRegs.errorCase b p ch r).Agrees RspRegs.seen
      ((r.seen.core.errorAct (r.tok b p) ch).flow b p r₀.seen) := by
  unfold RspRegs.errorCase RspCore.errorAct RspRegs.tok
  cases htok : r.token with
  | none =>
    dsimp only [Option.map_none]
    split
    · exact flow_error
    · next hc =>
      have hch : ch = 45 := not_not.1 hc
      subst hch
      exact flow_next rfl rfl
  | some =>
    dsimp only [Option.map_some]
    unfold RspRegs.errorWord
    split
    · exact flow_next rfl rfl
    · exact flow_next rfl (htok.symm.trans h₀)

theorem bulkCase_agrees {r₀ : RspRegs} (h₀ : r.token = r₀.token) (hp : p ≤ b.data.length) :
    (RspRegs.bulkCase p ch r).Agrees RspRegs.seen
      ((r.seen.core.bulkAct (r.tok b p) ch).flow b p r₀.seen) := by
  unfold RspRegs.bulkCase RspCore.bulkAct RspRegs.tok
  cases htok : r.token with
  | none =>
    dsimp only [Option.map_none]
    split
    · exact flow_error
    · exact flow_next rfl rfl
  | some =>
    simp only [Option.map_some, slice_length hp]
    split_ifs
    · exact flow_next rfl (htok.symm.trans h₀)
    · exact flow_next rfl (htok.symm.trans h₀)
    · exact flow_error
    · exact flow_next rfl rfl
    · exact flow_error

variable (ch) in
theorem multibulkCase_agrees {r₀ : RspRegs} (h₀ : r.token = r₀.token) (hp : p ≤ b.data.length) :
    (RspRegs.multibulkCase b p ch r).Agrees RspRegs.seen
      ((r.seen.core.multibulkAct (r.tok b p) ch).flow b p r₀.seen) := by
  unfold RspRegs.multibulkCase RspCore.multibulkAct RspRegs.tok
  cases htok : r.token with
  | none =>
    dsimp only [Option.map_none]
    split
    · exact flow_error
    · exact flow_next rfl rfl
  | some =>
    simp only [Option.map_some, slice_length hp]
    split_ifs
    · exact flow_next rfl (htok.symm.trans h₀)
    · exact flow_next rfl (htok.symm.trans h₀)
    · exact flow_error
    · exact flow_next rfl rfl
    · exact flow_error

theorem argnLenCase_agrees (hp : p ≤ b.data.length) :
    (RspRegs.argnLenCase b p ch r).Agrees RspRegs.seen
      ((r.seen.core.argnLenAct (r.tok b p) ch).flow b p r.seen) := by
  unfold RspRegs.argnLenCase RspCore.argnLenAct RspRegs.tok
  cases htok : r.token with
  | none =>
    dsimp only [Option.map_none]
    split_ifs
    · -- the first byte of a nested multi-bulk is read in the state for its header
      have hhead : RspRegs.tok { r with state := .multibulk } b p = none := by
        rw [RspRegs.tok, show RspRegs.token { r with state := .multibulk } = none from htok]
        rfl
      have h := multibulkCase_agrees ch (r := { r with state := .multibulk })
        (show _ = RspRegs.token r from rfl) hp
      rw [hhead, htok] at h
      exact h
    · exact flow_next rfl htok.symm
    · exact flow_error
    · exact flow_next rfl rfl
  | some t =>
    simp only [Option.map_some, slice_length hp]
    change Flow.Agrees _ _ ((if _ then _ else if _ then _ else if _ then
      (if p - t ≤ 1 ∨ r.rnarg = 0 then _ else if r.rlen = 1 ∧ p - t = 3 then _ else _) else _ :
        Act RspCore).flow
        b p r.seen)
    split_ifs
    · exact flow_next rfl htok.symm
    · exact flow_next rfl rfl
    · exact flow_error
    · exact flow_next rfl rfl
    · exact flow_next rfl rfl
    · exact flow_error

theorem skipCase_agrees (s : RspState) : (RspRegs.skipCase b p r s).Agrees RspRegs.seen
    ((r.seen.core.skipAct s).flow b p r.seen) := by
  unfold RspRegs.skipCase RspCore.skipAct Act.flow TokenParser.step
  dsimp only [RspRegs.seen]
  split
  · exact ⟨rfl, rfl⟩
  · cases hc : b.data[p + r.rlen]? with
    | none => trivial
    | some c =>
      by_cases hcr : c = CR
      · rw [if_neg (by simp [hcr])]
        simp only [Option.bind_some, if_pos hcr]
        exact ⟨rfl, rfl⟩
      · rw [if_pos (by simp [hcr])]
        simp only [Option.bind_some, if_neg hcr]
        trivial

theorem startCase_agrees (hp : p ≤ b.data.length) :
    (RspRegs.startCase b p ch r).Agrees RspRegs.seen
      ((r.seen.core.startAct (r.tok b p) ch).flow b p r.seen) := by
  unfold RspRegs.startCase RspCore.startAct
  split_ifs
  · exact flow_next rfl rfl
  · exact errorCase_agrees (r := { r with type := .rspRedisError, state := .error }) rfl
  · exact flow_next rfl rfl
  · exact bulkCase_agrees (r := { r with type := .rspRedisBulk, state := .bulk }) rfl hp
  · exact multibulkCase_agrees ch (r := { r with type := .rspRedisMultibulk, state := .multibulk })
      rfl hp
  · exact flow_error

theorem integerCase_agrees : (RspRegs.integerCase p ch r).Agrees RspRegs.seen
    ((r.seen.core.integerAct ch).flow b p r.seen) := by
  unfold RspRegs.integerCase RspCore.integerAct
  split_ifs
  · exact flow_next rfl rfl
  · exact flow_next rfl rfl
  · exact flow_next rfl rfl
  · exact flow_error

end Agree

/-- **The body of the loop does what the actions say.** -/
theorem redisRspStep_agrees (size : ℕ) {b : Mbuf} {p : ℕ} {ch : Byte} {r : RspRegs}
    (hch : b.data[p]? = some ch) :
    (redisRspStep size b p ch r).Agrees RspRegs.seen (redisRsp.step size b p ch r.seen) := by
  have hp : p ≤ b.data.length := (List.getElem?_eq_some_iff.1 hch).1.le
  change Flow.Agrees _ _ ((redisRspAct r.seen.core (r.tok b p) ch).flow b p r.seen)
  obtain ⟨state, token, rlen, rnarg, narg, nargStart, nargEnd, integer, type⟩ := r
  cases state with
  | start => exact startCase_agrees hp
  | status | integer => exact flow_next rfl rfl
  | error => exact errorCase_agrees rfl
  | integerStart => exact integerCase_agrees
  | simple =>
    simp only [redisRspStep, redisRspAct]
    split
    · exact flow_next rfl rfl
    · exact flow_next rfl rfl
  | bulk => exact bulkCase_agrees rfl hp
  | bulkLf | multibulkArgnLenLf => exact lfCase_agrees _
  | bulkArg | multibulkArgn => exact skipCase_agrees _
  | bulkArgLf | almostDone => exact lastLf_agrees
  | multibulk => exact multibulkCase_agrees ch rfl hp
  | multibulkNargLf | multibulkArgnLf => exact argnLf_agrees
  | multibulkArgnLen => exact argnLenCase_agrees hp
  | runtoCrlf =>
    simp only [redisRspStep, redisRspAct]
    split
    · exact flow_next rfl rfl
    · exact flow_next rfl rfl

/-- **The parser of the source, seen without the pointers to a header.** -/
theorem redisParseRsp_seen : redisParseRsp.Seen redisRsp.parser RspRegs.seen := by
  refine ⟨rfl, fun size b p r => ?_⟩
  refine scanParse_agrees ?_ ?_ ?_ (fun p ch r hch => redisRspStep_agrees size hch) p r
  · exact fun r => rfl
  · exact fun r => rfl
  · exact fun r => rfl

/-! ### The laws -/

/-- The states without an open token: those that pass over bytes, and those that lead to them. -/
def RspCore.Closed (k : RspCore) : Prop :=
  k.state ∈ [RspState.bulkLf, .bulkArg, .multibulkArgnLenLf, .multibulkArgn]

/-- **An action that clears the token on its way to these states**, or is in one already. -/
def Act.Tidy (closed : Prop) : Act RspCore → Prop
  | .next k m key _ => key = false ∧ (k.Closed → m = .clear ∨ m = .keep ∧ closed)
  | .skip _ _ _ => False
  | _ => True

namespace RspCore

variable {k : RspCore} {c : Byte} {tok : Option (List Byte)} {closed : Prop}

theorem stays_tidy (h : k.Closed → closed) : k.stays.Tidy closed :=
  ⟨rfl, fun hk => .inr ⟨rfl, h hk⟩⟩

theorem opens_tidy (h : ¬ k.Closed) : k.opens.Tidy closed := ⟨rfl, fun hk => absurd hk h⟩

theorem closes_tidy {s : RspState} : (k.closes s).Tidy closed := ⟨rfl, fun _ => .inl rfl⟩

theorem goto_tidy {s : RspState} (h : ({ k with state := s } : RspCore).Closed → closed) :
    (k.goto s).Tidy closed := ⟨rfl, fun hk => .inr ⟨rfl, h hk⟩⟩

theorem errorAct_tidy (h : k.state = .error) : (k.errorAct tok c).Tidy closed := by
  unfold errorAct
  cases tok with
  | none =>
    dsimp only
    split
    · trivial
    · exact opens_tidy (by simp [Closed, h])
  | some =>
    dsimp only
    split
    · exact closes_tidy
    · exact stays_tidy (by simp [Closed, h])

theorem bulkAct_tidy (h : k.state = .bulk) : (k.bulkAct tok c).Tidy closed := by
  unfold bulkAct
  cases tok with
  | none =>
    dsimp only
    split
    · trivial
    · exact opens_tidy (by simp [Closed, h])
  | some =>
    dsimp only
    split_ifs
    · exact goto_tidy (by simp [Closed])
    · exact stays_tidy (by simp [Closed, h])
    · trivial
    · exact closes_tidy
    · trivial

theorem multibulkAct_tidy (h : k.state = .multibulk) : (k.multibulkAct tok c).Tidy closed := by
  unfold multibulkAct
  cases tok with
  | none =>
    dsimp only
    split
    · trivial
    · exact opens_tidy (by simp [Closed, h])
  | some =>
    dsimp only
    split_ifs
    · exact goto_tidy (by simp [Closed])
    · exact stays_tidy (by simp [Closed, h])
    · trivial
    · exact closes_tidy
    · trivial

theorem argnLenAct_tidy (h : k.state = .multibulkArgnLen) : (k.argnLenAct tok c).Tidy closed := by
  unfold argnLenAct
  cases tok with
  | none =>
    dsimp only
    split_ifs
    · exact multibulkAct_tidy rfl
    · exact goto_tidy (by simp [Closed])
    · trivial
    · exact opens_tidy (by simp [Closed, h])
  | some =>
    dsimp only
    split_ifs
    · exact stays_tidy (by simp [Closed, h])
    · exact stays_tidy (by simp [Closed, h])
    · trivial
    · exact closes_tidy
    · exact closes_tidy
    · trivial

theorem argnLfAct_tidy : (k.argnLfAct c).Tidy closed := by
  unfold argnLfAct
  split_ifs
  · trivial
  · exact goto_tidy (by simp [Closed])
  · trivial

end RspCore

open RspCore in
/-- Where no bytes are passed over. -/
theorem redisRspAct_tidy {k : RspCore} (tok : Option (List Byte)) (c : Byte) (closed : Prop)
    (hskip : k.state ≠ .bulkArg ∧ k.state ≠ .multibulkArgn) (htok : k.Closed → closed) :
    (redisRspAct k tok c).Tidy closed := by
  unfold redisRspAct
  split
  · unfold startAct
    split_ifs
    · exact goto_tidy (by simp [Closed])
    · exact errorAct_tidy rfl
    · exact goto_tidy (by simp [Closed])
    · exact bulkAct_tidy rfl
    · exact multibulkAct_tidy rfl
    · trivial
  · exact goto_tidy (by simp [Closed])
  · next hs => exact errorAct_tidy hs
  · exact goto_tidy (by simp [Closed])
  · next hs =>
    unfold integerAct
    split_ifs
    · exact goto_tidy (by simp [Closed])
    · exact stays_tidy (by simp [Closed, hs])
    · exact stays_tidy (by simp [Closed, hs])
    · trivial
  · next hs =>
    split_ifs
    · exact goto_tidy (by simp [Closed])
    · exact stays_tidy (by simp [Closed, hs])
  · next hs => exact bulkAct_tidy hs
  · next hs =>
    unfold lfAct
    split_ifs
    · exact goto_tidy fun _ => htok (by simp [Closed, hs])
    · trivial
  · next hs => exact absurd hs hskip.1
  · split_ifs <;> trivial
  · next hs => exact multibulkAct_tidy hs
  · exact argnLfAct_tidy
  · next hs => exact argnLenAct_tidy hs
  · next hs =>
    unfold lfAct
    split_ifs
    · exact goto_tidy fun _ => htok (by simp [Closed, hs])
    · trivial
  · next hs => exact absurd hs hskip.2
  · exact argnLfAct_tidy
  · next hs =>
    split_ifs
    · exact goto_tidy (by simp [Closed])
    · exact stays_tidy (by simp [Closed, hs])
  · split_ifs <;> trivial

/-- Where bytes are passed over, the token plays no part. -/
theorem redisRspAct_skip {k : RspCore} (h : k.state = .bulkArg ∨ k.state = .multibulkArgn)
    (tok : Option (List Byte)) (c : Byte) :
    redisRspAct k tok c = k.skipAct
      (if k.state = .bulkArg then .bulkArgLf else .multibulkArgnLf) := by
  rcases h with h | h <;> simp [redisRspAct, h]

theorem skips_of_skip {k : RspCore} {tok : Option (List Byte)} {c : Byte} {n : ℕ}
    {left : ℕ → RspCore}
    {got : Byte → Option RspCore} (h : redisRspAct k tok c = .skip n left got) :
    k.state = .bulkArg ∨ k.state = .multibulkArgn := by
  by_contra hno
  have htidy := redisRspAct_tidy tok c True (not_or.1 hno) fun _ => trivial
  rw [h] at htidy
  exact htidy

theorem not_skips_of_next {k k' : RspCore} {tok : Option (List Byte)} {c : Byte} {m : TokenMove}
    {key mark : Bool} (h : redisRspAct k tok c = .next k' m key mark) :
    k.state ≠ .bulkArg ∧ k.state ≠ .multibulkArgn := by
  rw [← not_or]
  intro hs
  cases (redisRspAct_skip hs tok c).symm.trans h

/-- **The actions respect what a token parser asks for.** -/
theorem redisRsp_laws : redisRsp.Laws Eq RspCore.Closed (fun _ => False) where
  refl := fun _ => rfl
  symm := Eq.symm
  trans := Eq.trans
  act := by
    rintro k _ tok c rfl
    exact Act.Same.refl (fun _ => rfl) _
  skip := by
    intro k tok c n left got h
    have hs := skips_of_skip h
    have heq := (redisRspAct_skip hs tok c).symm.trans h
    cases heq
    refine ⟨by rcases hs with hs | hs <;> simp [RspCore.Closed, hs], rfl, fun j =>
      ⟨?_, fun c' => ?_⟩⟩
    · rcases hs with hs | hs <;> simp [RspCore.Closed, hs]
    · change (redisRspAct { k with rlen := j } none c').Same Eq _
      rw [redisRspAct_skip (k := { k with rlen := j }) hs]
      exact Act.Same.refl (fun _ => rfl) _
  unmarked_skip := fun _ => ⟨fun _ _ _ hf => hf, fun _ _ _ _ _ hf => hf⟩
  closed := by
    intro k tok c k' m key mark h htok hk
    have htidy := redisRspAct_tidy tok c _ (not_skips_of_next h) htok
    rw [show redisRspAct k tok c = _ from h] at htidy
    exact htidy.2 hk
  key := by
    intro k tok c k' m mark h
    have htidy := redisRspAct_tidy tok c True (not_skips_of_next h) fun _ => trivial
    rw [show redisRspAct k tok c = _ from h] at htidy
    cases htidy.1
  marked := fun _ hf => hf.elim
  rewind := fun h => h
  unmarked := fun _ hf => hf
  start := fun hf => hf

/-- **`redis_parse_rsp` simulates the byte machine of its actions.** -/
theorem redisParseRsp_sim (size : ℕ) : Simulation size redisParseRsp redisRsp.machine
    (fun mhdr p a r => TokRel Eq RspCore.Closed (fun _ => False) mhdr p a r.seen)
    (fun mhdr o r => TokOutRel redisRsp Eq (fun _ => False) mhdr o r.seen) :=
  (redisRsp.sim redisRsp_laws size).seen redisParseRsp_seen

end CacheProxy
