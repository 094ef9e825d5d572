/-
**The redis request parser.**

`redis_parse_req` reads a request in the multi-bulk form of the protocol,

    *<number of arguments> CR LF
    $<number of bytes of argument 1> CR LF
    <argument data> CR LF
    ...

keeping its state in the message.  Lengths and keys are *tokens*: their bytes have to lie in one
mbuf, and `r->token` points to the first of them while one is open.  The other arguments are
skipped with a count-down in `r->rlen`.

The first half of this module is the parser as the code has it, with offsets into the mbuf; the
second is a byte machine that reads the same language and has the token's bytes in its state.

Main definitions:

* `ReqState`, `ReqRegs`, `redisReqStep`, `redisParseReq` — the parser of the source;
* `ReqScan`, `ReqOut`, `reqMachine` — the byte machine.
-/

import CacheProxy.RedisCommand
import CacheProxy.Scanner

namespace CacheProxy

open Decimal

/-! ### States and registers -/

/-- **The states of `redis_parse_req`.** -/
inductive ReqState where
  | start | narg | nargLf
  | reqTypeLen | reqTypeLenLf | reqType | reqTypeLf
  | keyLen | keyLenLf | key | keyLf
  | arg1Len | arg1LenLf | arg1 | arg1Lf
  | arg2Len | arg2LenLf | arg2 | arg2Lf
  | arg3Len | arg3LenLf | arg3 | arg3Lf
  | argnLen | argnLenLf | argn | argnLf
  deriving DecidableEq, Repr

/-- What a state reads. -/
inductive ReqKind where
  | start
  | narg
  /-- the length of an argument -/
  | len
  /-- the line feed behind a length -/
  | lenLf
  /-- a token of known length -/
  | token
  | arg2
  /-- an argument that is not looked at -/
  | skip
  /-- the line feed behind an argument or behind the number of arguments -/
  | lf
  deriving DecidableEq, Repr

/-- What the state reads. -/
def ReqState.kind : ReqState → ReqKind
  | .start => .start
  | .narg => .narg
  | .reqTypeLen | .keyLen | .arg1Len | .arg2Len | .arg3Len | .argnLen => .len
  | .reqTypeLenLf | .keyLenLf | .arg1LenLf | .arg2LenLf | .arg3LenLf | .argnLenLf => .lenLf
  | .reqType | .key => .token
  | .arg2 => .arg2
  | .arg1 | .arg3 | .argn => .skip
  | .nargLf | .reqTypeLf | .keyLf | .arg1Lf | .arg2Lf | .arg3Lf | .argnLf => .lf

/-- **The fields of `struct msg` that the parser works on**; `token` is an offset into the last
mbuf. -/
structure ReqRegs where
  state : ReqState := .start
  token : Option ℕ := none
  rnarg : ℕ := 0
  narg : ℕ := 0
  rlen : ℕ := 0
  type : MsgType := .unknown
  keys : List KeyPos := []
  noforward : Bool := false
  quit : Bool := false
  deriving DecidableEq, Repr

/-! ### Where an argument ends

The tests that follow the line feed behind an argument, with the argument count `narg` of the
request and the number `rnarg` of arguments that remain. -/

/-- What happens at the end of an argument. -/
inductive Turn where
  | goto (s : ReqState)
  | done
  | error
  deriving DecidableEq, Repr

/-- The end of the command name. -/
def afterReqType (t : MsgType) (narg : ℕ) : Turn :=
  if redisArgz t then .done
  else if narg = 1 then .error
  else if redisArgeval t then .goto .arg1Len
  else .goto .keyLen

/-- The end of a key. -/
def afterKey (t : MsgType) (narg rnarg : ℕ) : Turn :=
  if redisArg0 t then (if rnarg ≠ 0 then .error else .done)
  else if redisArg1 t then (if rnarg ≠ 1 then .error else .goto .arg1Len)
  else if redisArg2 t then (if rnarg ≠ 2 then .error else .goto .arg1Len)
  else if redisArg3 t then (if rnarg ≠ 3 then .error else .goto .arg1Len)
  else if redisArgn t then (if rnarg = 0 then .done else .goto .arg1Len)
  else if redisArgx t then (if rnarg = 0 then .done else .goto .keyLen)
  else if redisArgkvx t then (if narg % 2 = 0 then .error else .goto .arg1Len)
  else if redisArgeval t then (if rnarg = 0 then .done else .goto .argnLen)
  else .error

/-- The end of the first argument. -/
def afterArg1 (t : MsgType) (rnarg : ℕ) : Turn :=
  if redisArg1 t then (if rnarg ≠ 0 then .error else .done)
  else if redisArg2 t then (if rnarg ≠ 1 then .error else .goto .arg2Len)
  else if redisArg3 t then (if rnarg ≠ 2 then .error else .goto .arg2Len)
  else if redisArgn t then (if rnarg = 0 then .done else .goto .argnLen)
  else if redisArgeval t then (if rnarg < 2 then .error else .goto .arg2Len)
  else if redisArgkvx t then (if rnarg = 0 then .done else .goto .keyLen)
  else .error

/-- The end of the second argument. -/
def afterArg2 (t : MsgType) (rnarg : ℕ) : Turn :=
  if redisArg2 t then (if rnarg ≠ 0 then .error else .done)
  else if redisArg3 t then (if rnarg ≠ 1 then .error else .goto .arg3Len)
  else if redisArgn t then (if rnarg = 0 then .done else .goto .argnLen)
  else if redisArgeval t then (if rnarg < 1 then .error else .goto .keyLen)
  else .error

/-- The end of the third argument. -/
def afterArg3 (t : MsgType) (rnarg : ℕ) : Turn :=
  if redisArg3 t then (if rnarg ≠ 0 then .error else .done)
  else if redisArgn t then (if rnarg = 0 then .done else .goto .argnLen)
  else .error

/-- The end of any further argument. -/
def afterArgn (t : MsgType) (rnarg : ℕ) : Turn :=
  if redisArgn t || redisArgeval t then (if rnarg = 0 then .done else .goto .argnLen)
  else .error

/-- The number of keys that `EVAL` announces: `none` if there is a byte that is not a digit. -/
def evalKeys (tok : List Byte) : Option ℕ :=
  if tok.all isDigit then some (valueModFrom (2 ^ 32) 0 tok) else none

/-! ### The cases of the switch -/

namespace ReqRegs

/-- The states that expect a line feed. -/
def lfCase (p : ℕ) (ch : Byte) (r : ReqRegs) (turn : Turn) : Flow ReqRegs :=
  if ch = LF then
    match turn with
    | .goto s => .next p { r with state := s }
    | .done => .done p r
    | .error => .error r
  else .error r

/-- `SW_START` and `SW_NARG`.  The source does not test that the first byte is a star. -/
def nargCase (p : ℕ) (ch : Byte) (r : ReqRegs) : Flow ReqRegs :=
  match r.token with
  | none => .next p { r with token := some p, rnarg := 0, state := .narg }
  | some _ =>
      if isDigit ch then .next p { r with rnarg := wrap32 (r.rnarg * 10 + digitVal ch) }
      else if ch = CR then
        if r.rnarg = 0 then .error r
        else .next p { r with narg := r.rnarg, token := none, state := .nargLf }
      else .error r

/-- The states that read a length: `bad` is the test at the end of the length, given the number
of bytes of the token. -/
def lenCase (p : ℕ) (ch : Byte) (r : ReqRegs) (bad : ℕ → Bool) (s : ReqState) : Flow ReqRegs :=
  match r.token with
  | none => if ch ≠ 36 then .error r else .next p { r with token := some p, rlen := 0 }
  | some t =>
      if isDigit ch then .next p { r with rlen := wrap32 (r.rlen * 10 + digitVal ch) }
      else if ch = CR then
        if bad (p - t) || r.rnarg == 0 then .error r
        else .next p { r with rnarg := r.rnarg - 1, token := none, state := s }
      else .error r

/-- The states that read a token of `rlen` bytes, up to the carriage return behind it. -/
def tokenCase (b : Mbuf) (p : ℕ) (r : ReqRegs) (got : ℕ → ℕ → ReqRegs → Flow ReqRegs) :
    Flow ReqRegs :=
  let t := r.token.getD p
  let m := t + r.rlen
  if b.data.length ≤ m then .next (b.data.length - 1) { r with token := some t }
  else if b.data[m]? ≠ some CR then .error { r with token := some t }
  else got t m { r with rlen := 0, token := none }

/-- The states that skip an argument of `rlen` bytes; `rlen` is counted down over the mbufs. -/
def skipCase (b : Mbuf) (p : ℕ) (r : ReqRegs) (got : ℕ → ReqRegs → Flow ReqRegs) : Flow ReqRegs :=
  let m := p + r.rlen
  if b.data.length ≤ m then
    .next (b.data.length - 1) { r with rlen := r.rlen - (b.data.length - p) }
  else if b.data[m]? ≠ some CR then .error r
  else got m { r with rlen := 0 }

/-- The command name is complete. -/
def gotReqType (b : Mbuf) (t m : ℕ) (r : ReqRegs) : Flow ReqRegs :=
  let type := redisCommandType (slice b.data t (m + 1)) (m - t)
  let r := { r with
    type := type
    noforward := r.noforward || redisNoforward type
    quit := r.quit || redisQuit type }
  if type = .unknown then .error r else .next m { r with state := .reqTypeLf }

/-- A key is complete. -/
def gotKey (b : Mbuf) (t m : ℕ) (r : ReqRegs) : Flow ReqRegs :=
  .next m { r with keys := r.keys ++ [⟨b.id, t, m⟩], state := .keyLf }

/-- The second argument is complete; for `EVAL` and `EVALSHA` it is the number of keys, which must
not be zero. -/
def gotArg2 (b : Mbuf) (p m : ℕ) (r : ReqRegs) : Flow ReqRegs :=
  if redisArgeval r.type then
    let t := r.token.getD p
    if m - t < 1 then .error r
    else
      match evalKeys (slice b.data t m) with
      | none => .error r
      | some nkey =>
          if nkey = 0 then .error r else .next m { r with token := none, state := .arg2Lf }
  else .next m { r with state := .arg2Lf }

/-- `SW_ARG2`: for `EVAL` and `EVALSHA` the argument is a token, and is counted down as well. -/
def arg2Case (b : Mbuf) (p : ℕ) (r : ReqRegs) : Flow ReqRegs :=
  let r := if r.token = none ∧ redisArgeval r.type then { r with token := some p } else r
  skipCase b p r (gotArg2 b p)

end ReqRegs

open ReqRegs in
/-- **The body of the loop of `redis_parse_req`.** -/
def redisReqStep (size : ℕ) (b : Mbuf) (p : ℕ) (ch : Byte) (r : ReqRegs) : Flow ReqRegs :=
  match r.state with
  | .start => nargCase p ch r
  | .narg => nargCase p ch r
  | .nargLf => lfCase p ch r (.goto .reqTypeLen)
  | .reqTypeLen => lenCase p ch r (fun _ => r.rlen == 0) .reqTypeLenLf
  | .reqTypeLenLf => lfCase p ch r (.goto .reqType)
  | .reqType => tokenCase b p r (gotReqType b)
  | .reqTypeLf => lfCase p ch r (afterReqType r.type r.narg)
  | .keyLen => lenCase p ch r (fun _ => decide (size ≤ r.rlen)) .keyLenLf
  | .keyLenLf => lfCase p ch r (.goto .key)
  | .key => tokenCase b p r (gotKey b)
  | .keyLf => lfCase p ch r (afterKey r.type r.narg r.rnarg)
  | .arg1Len => lenCase p ch r (fun n => decide (n ≤ 1)) .arg1LenLf
  | .arg1LenLf => lfCase p ch r (.goto .arg1)
  | .arg1 => skipCase b p r fun m r => .next m { r with state := .arg1Lf }
  | .arg1Lf => lfCase p ch r (afterArg1 r.type r.rnarg)
  | .arg2Len => lenCase p ch r (fun n => decide (n ≤ 1)) .arg2LenLf
  | .arg2LenLf => lfCase p ch r (.goto .arg2)
  | .arg2 => arg2Case b p r
  | .arg2Lf => lfCase p ch r (afterArg2 r.type r.rnarg)
  | .arg3Len => lenCase p ch r (fun n => decide (n ≤ 1)) .arg3LenLf
  | .arg3LenLf => lfCase p ch r (.goto .arg3)
  | .arg3 => skipCase b p r fun m r => .next m { r with state := .arg3Lf }
  | .arg3Lf => lfCase p ch r (afterArg3 r.type r.rnarg)
  | .argnLen => lenCase p ch r (fun n => decide (n ≤ 1)) .argnLenLf
  | .argnLenLf => lfCase p ch r (.goto .argn)
  | .argn => skipCase b p r fun m r => .next m { r with state := .argnLf }
  | .argnLf => lfCase p ch r (afterArgn r.type r.rnarg)

/-- **`redis_parse_req`.** -/
def redisParseReq : Parser ReqRegs where
  init := {}
  parse := scanParse redisReqStep ReqRegs.token (fun r => { r with token := none })
    (fun r => { r with state := .start, token := none })

/-! ### The byte machine -/

/-- **A state of the machine**: as the registers, with the open token and the keys as bytes. -/
structure ReqScan where
  state : ReqState := .start
  tok : List Byte := []
  rnarg : ℕ := 0
  narg : ℕ := 0
  rlen : ℕ := 0
  type : MsgType := .unknown
  keys : List (List Byte) := []
  noforward : Bool := false
  quit : Bool := false
  deriving DecidableEq, Repr

/-- What is known of a request when it is complete. -/
structure ReqOut where
  type : MsgType
  narg : ℕ
  keys : List (List Byte)
  noforward : Bool
  quit : Bool
  deriving DecidableEq, Repr

namespace ReqScan

/-- The result of a request that ends in state `a`. -/
def out (a : ReqScan) : ReqOut := ⟨a.type, a.narg, a.keys, a.noforward, a.quit⟩

/-- A line feed is expected. -/
def lf (a : ReqScan) (c : Byte) (turn : Turn) : Next ReqScan ReqOut :=
  if c = LF then
    match turn with
    | .goto s => .more { a with state := s }
    | .done => .done a.out
    | .error => .fail
  else .fail

/-- The number of arguments. -/
def nargStep (a : ReqScan) (c : Byte) : Next ReqScan ReqOut :=
  if a.tok = [] then .more { a with tok := [c], rnarg := 0, state := .narg }
  else if isDigit c then
    .more { a with tok := a.tok ++ [c], rnarg := wrap32 (a.rnarg * 10 + digitVal c) }
  else if c = CR then
    if a.rnarg = 0 then .fail
    else .more { a with narg := a.rnarg, tok := [], state := .nargLf }
  else .fail

/-- The length of an argument. -/
def len (a : ReqScan) (c : Byte) (bad : ℕ → Bool) (s : ReqState) : Next ReqScan ReqOut :=
  if a.tok = [] then (if c ≠ 36 then .fail else .more { a with tok := [c], rlen := 0 })
  else if isDigit c then
    .more { a with tok := a.tok ++ [c], rlen := wrap32 (a.rlen * 10 + digitVal c) }
  else if c = CR then
    if bad a.tok.length || a.rnarg == 0 then .fail
    else .more { a with rnarg := a.rnarg - 1, tok := [], state := s }
  else .fail

/-- A byte of a token of `rlen` bytes, or the carriage return behind it. -/
def token (a : ReqScan) (c : Byte) (got : List Byte → ReqScan → Next ReqScan ReqOut) :
    Next ReqScan ReqOut :=
  if a.tok.length < a.rlen then .more { a with tok := a.tok ++ [c] }
  else if c ≠ CR then .fail
  else got a.tok { a with tok := [], rlen := 0 }

/-- A byte of an argument that is skipped, or the carriage return behind it. -/
def skip (a : ReqScan) (c : Byte) (s : ReqState) : Next ReqScan ReqOut :=
  if 0 < a.rlen then .more { a with rlen := a.rlen - 1 }
  else if c ≠ CR then .fail
  else .more { a with state := s }

/-- The command name is complete. -/
def gotReqType (tok : List Byte) (a : ReqScan) : Next ReqScan ReqOut :=
  let type := redisCommandType (tok ++ [CR]) tok.length
  if type = .unknown then .fail
  else .more { a with
    type := type
    noforward := a.noforward || redisNoforward type
    quit := a.quit || redisQuit type
    state := .reqTypeLf }

/-- A key is complete. -/
def gotKey (tok : List Byte) (a : ReqScan) : Next ReqScan ReqOut :=
  .more { a with keys := a.keys ++ [tok], state := .keyLf }

/-- The number of keys of `EVAL` is complete. -/
def gotEvalKeys (a : ReqScan) : Next ReqScan ReqOut :=
  if a.tok = [] then .fail
  else
    match evalKeys a.tok with
    | none => .fail
    | some nkey => if nkey = 0 then .fail else .more { a with tok := [], state := .arg2Lf }

/-- The second argument: of `EVAL` it is kept as a token. -/
def arg2 (a : ReqScan) (c : Byte) : Next ReqScan ReqOut :=
  if redisArgeval a.type then
    if 0 < a.rlen then .more { a with tok := a.tok ++ [c], rlen := a.rlen - 1 }
    else if c ≠ CR then .fail
    else a.gotEvalKeys
  else a.skip c .arg2Lf

/-- The machine's step. -/
def step (size : ℕ) (a : ReqScan) (c : Byte) : Next ReqScan ReqOut :=
  match a.state with
  | .start => a.nargStep c
  | .narg => a.nargStep c
  | .nargLf => a.lf c (.goto .reqTypeLen)
  | .reqTypeLen => a.len c (fun _ => a.rlen == 0) .reqTypeLenLf
  | .reqTypeLenLf => a.lf c (.goto .reqType)
  | .reqType => a.token c gotReqType
  | .reqTypeLf => a.lf c (afterReqType a.type a.narg)
  | .keyLen => a.len c (fun _ => decide (size ≤ a.rlen)) .keyLenLf
  | .keyLenLf => a.lf c (.goto .key)
  | .key => a.token c gotKey
  | .keyLf => a.lf c (afterKey a.type a.narg a.rnarg)
  | .arg1Len => a.len c (fun n => decide (n ≤ 1)) .arg1LenLf
  | .arg1LenLf => a.lf c (.goto .arg1)
  | .arg1 => a.skip c .arg1Lf
  | .arg1Lf => a.lf c (afterArg1 a.type a.rnarg)
  | .arg2Len => a.len c (fun n => decide (n ≤ 1)) .arg2LenLf
  | .arg2LenLf => a.lf c (.goto .arg2)
  | .arg2 => a.arg2 c
  | .arg2Lf => a.lf c (afterArg2 a.type a.rnarg)
  | .arg3Len => a.len c (fun n => decide (n ≤ 1)) .arg3LenLf
  | .arg3LenLf => a.lf c (.goto .arg3)
  | .arg3 => a.skip c .arg3Lf
  | .arg3Lf => a.lf c (afterArg3 a.type a.rnarg)
  | .argnLen => a.len c (fun n => decide (n ≤ 1)) .argnLenLf
  | .argnLenLf => a.lf c (.goto .argn)
  | .argn => a.skip c .argnLf
  | .argnLf => a.lf c (afterArgn a.type a.rnarg)

/-- The state in which an open token that was moved is read again.  In `SW_ARG2` the length has
been counted down for the bytes of the token, and it is not restored. -/
def rewind (a : ReqScan) : ReqScan :=
  match a.state.kind with
  | .start | .narg => { a with tok := [], rnarg := 0, state := .start }
  | .len => { a with tok := [], rlen := 0 }
  | .token | .arg2 | .skip | .lenLf | .lf => { a with tok := [] }

end ReqScan

/-- **The byte machine for requests**, for keys shorter than `size`. -/
def reqMachine (size : ℕ) : ByteMachine ReqScan ReqOut where
  init := {}
  step := ReqScan.step size
  token := ReqScan.tok
  rewind := ReqScan.rewind

end CacheProxy
