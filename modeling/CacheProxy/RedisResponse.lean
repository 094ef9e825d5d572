/-
**The redis response parser.**

`redis_parse_rsp` reads a reply of a server: a status line, an error line, an integer, a bulk, or a
multi-bulk whose elements are bulks, null bulks and lines, and whose last element may be a
multi-bulk again.  The header of a nested multi-bulk overwrites what was kept of the outer one.

Where the source goes back by one byte, the byte is read again in the new state; the case of that
state is applied to it at once.

Main definitions:

* `RspState`, `RspRegs`, `redisRspStep`, `redisParseRsp` — the parser of the source;
* `redisFailure` — the replies that are treated as a failure of the server.
-/

import CacheProxy.RedisCommand
import CacheProxy.Scanner

namespace CacheProxy

open Decimal

/-! ### States and registers -/

/-- **The states of `redis_parse_rsp`.** -/
inductive RspState where
  | start | status | error | integer | integerStart | simple
  | bulk | bulkLf | bulkArg | bulkArgLf
  | multibulk | multibulkNargLf | multibulkArgnLen | multibulkArgnLenLf
  | multibulkArgn | multibulkArgnLf
  | runtoCrlf | almostDone
  deriving DecidableEq, Repr

/-- A place in an mbuf. -/
structure BufPos where
  mbuf : ℕ
  off : ℕ
  deriving DecidableEq, Repr

/-- **The fields of `struct msg` that the parser works on**; `token` is an offset into the last
mbuf. -/
structure RspRegs where
  state : RspState := .start
  token : Option ℕ := none
  rlen : ℕ := 0
  rnarg : ℕ := 0
  narg : ℕ := 0
  nargStart : Option BufPos := none
  nargEnd : Option BufPos := none
  integer : ℕ := 0
  type : MsgType := .unknown
  deriving DecidableEq, Repr

/-- The first words of error lines that have a type of their own. -/
def redisErrors : List (String × MsgType) :=
  [("-ERR", .rspRedisErrorErr), ("-OOM", .rspRedisErrorOom), ("-BUSY", .rspRedisErrorBusy),
    ("-NOAUTH", .rspRedisErrorNoauth), ("-LOADING", .rspRedisErrorLoading),
    ("-BUSYKEY", .rspRedisErrorBusykey), ("-MISCONF", .rspRedisErrorMisconf),
    ("-NOSCRIPT", .rspRedisErrorNoscript), ("-READONLY", .rspRedisErrorReadonly),
    ("-WRONGTYPE", .rspRedisErrorWrongtype), ("-EXECABORT", .rspRedisErrorExecabort),
    ("-MASTERDOWN", .rspRedisErrorMasterdown), ("-NOREPLICAS", .rspRedisErrorNoreplicas)]

/-- The type of an error line, by its first word; `t` is the type so far. -/
def redisErrorType (t : MsgType) (word : List Byte) : MsgType :=
  match redisErrors.find? fun e => str e.1 == word with
  | some e => e.2
  | none => t

/-- `redis_failure` -/
def redisFailure : MsgType → Bool
  | .rspRedisErrorOom | .rspRedisErrorBusy | .rspRedisErrorLoading => true
  | _ => false

/-! ### The cases of the switch -/

namespace RspRegs

/-- The states that expect a line feed and go on in state `s`. -/
def lfCase (p : ℕ) (ch : Byte) (r : RspRegs) (s : RspState) : Flow RspRegs :=
  if ch = LF then .next p { r with state := s } else .error r

/-- `SW_ALMOST_DONE` and `SW_BULK_ARG_LF` -/
def lastLf (p : ℕ) (ch : Byte) (r : RspRegs) : Flow RspRegs :=
  if ch = LF then .done p r else .error r

/-- `SW_MULTIBULK_NARG_LF` and `SW_MULTIBULK_ARGN_LF`: another element follows, or none. -/
def argnLf (p : ℕ) (ch : Byte) (r : RspRegs) : Flow RspRegs :=
  if ch = LF then
    if r.rnarg = 0 then .done p r else .next p { r with state := .multibulkArgnLen }
  else .error r

/-- The end of the first word of an error line.  The source goes to `SW_RUNTO_CRLF` also if the
word ends with the carriage return. -/
def errorWord (b : Mbuf) (p t : ℕ) (ch : Byte) (r : RspRegs) : Flow RspRegs :=
  if ch = 32 ∨ ch = CR then
    .next p { r with
      token := none
      type := redisErrorType r.type (slice b.data t p)
      state := .runtoCrlf }
  else .next p { r with token := some t }

/-- `SW_ERROR` -/
def errorCase (b : Mbuf) (p : ℕ) (ch : Byte) (r : RspRegs) : Flow RspRegs :=
  match r.token with
  | none => if ch ≠ 45 then .error r else errorWord b p p ch r
  | some t => errorWord b p t ch r

/-- `SW_INTEGER_START` -/
def integerCase (p : ℕ) (ch : Byte) (r : RspRegs) : Flow RspRegs :=
  if ch = CR then .next p { r with state := .almostDone }
  else if ch = 45 then .next p r
  else if isDigit ch then .next p { r with integer := wrap32 (r.integer * 10 + digitVal ch) }
  else .error r

/-- `SW_BULK` -/
def bulkCase (p : ℕ) (ch : Byte) (r : RspRegs) : Flow RspRegs :=
  match r.token with
  | none => if ch ≠ 36 then .error r else .next p { r with token := some p, rlen := 0 }
  | some t =>
      -- a null bulk; the token stays open
      if ch = 45 then .next p { r with state := .runtoCrlf }
      else if isDigit ch then .next p { r with rlen := wrap32 (r.rlen * 10 + digitVal ch) }
      else if ch = CR then
        if p - t ≤ 1 then .error r else .next p { r with token := none, state := .bulkLf }
      else .error r

/-- `SW_MULTIBULK` -/
def multibulkCase (b : Mbuf) (p : ℕ) (ch : Byte) (r : RspRegs) : Flow RspRegs :=
  match r.token with
  | none =>
      if ch ≠ 42 then .error r
      else .next p { r with token := some p, nargStart := some ⟨b.id, p⟩, rnarg := 0 }
  | some t =>
      if ch = 45 then .next p { r with state := .runtoCrlf }
      else if isDigit ch then .next p { r with rnarg := wrap32 (r.rnarg * 10 + digitVal ch) }
      else if ch = CR then
        if p - t ≤ 1 then .error r
        else .next p { r with
          narg := r.rnarg, nargEnd := some ⟨b.id, p⟩, token := none, state := .multibulkNargLf }
      else .error r

/-- `SW_MULTIBULK_ARGN_LEN`: the first byte of an element, or the length of a bulk. -/
def argnLenCase (b : Mbuf) (p : ℕ) (ch : Byte) (r : RspRegs) : Flow RspRegs :=
  match r.token with
  | none =>
      if ch = 42 then multibulkCase b p ch { r with state := .multibulk }
      else if ch = 58 ∨ ch = 43 ∨ ch = 45 then .next p { r with state := .simple }
      else if ch ≠ 36 then .error r
      else .next p { r with token := some p, rlen := 0 }
  | some t =>
      if isDigit ch then .next p { r with rlen := wrap32 (r.rlen * 10 + digitVal ch) }
      else if ch = 45 then .next p r
      else if ch = CR then
        if p - t ≤ 1 ∨ r.rnarg = 0 then .error r
        else if r.rlen = 1 ∧ p - t = 3 then
          -- a null bulk
          .next p { r with
            rlen := 0, state := .multibulkArgnLf, rnarg := r.rnarg - 1, token := none }
        else
          .next p { r with state := .multibulkArgnLenLf, rnarg := r.rnarg - 1, token := none }
      else .error r

/-- The states that skip `rlen` bytes; `rlen` is counted down over the mbufs. -/
def skipCase (b : Mbuf) (p : ℕ) (r : RspRegs) (s : RspState) : Flow RspRegs :=
  let m := p + r.rlen
  if b.data.length ≤ m then
    .next (b.data.length - 1) { r with rlen := r.rlen - (b.data.length - p) }
  else if b.data[m]? ≠ some CR then .error r
  else .next m { r with rlen := 0, state := s }

/-- `SW_START` -/
def startCase (b : Mbuf) (p : ℕ) (ch : Byte) (r : RspRegs) : Flow RspRegs :=
  if ch = 43 then .next p { r with type := .rspRedisStatus, state := .runtoCrlf }
  else if ch = 45 then errorCase b p ch { r with type := .rspRedisError, state := .error }
  else if ch = 58 then
    .next p { r with type := .rspRedisInteger, state := .integerStart, integer := 0 }
  else if ch = 36 then bulkCase p ch { r with type := .rspRedisBulk, state := .bulk }
  else if ch = 42 then multibulkCase b p ch
    { r with type := .rspRedisMultibulk, state := .multibulk }
  else .error { r with type := .unknown }

end RspRegs

open RspRegs in
/-- **The body of the loop of `redis_parse_rsp`.** -/
def redisRspStep (_size : ℕ) (b : Mbuf) (p : ℕ) (ch : Byte) (r : RspRegs) : Flow RspRegs :=
  match r.state with
  | .start => startCase b p ch r
  | .status => .next p { r with state := .runtoCrlf }
  | .error => errorCase b p ch r
  | .integer => .next p { r with state := .integerStart, integer := 0 }
  | .integerStart => integerCase p ch r
  | .simple =>
      if ch = CR then .next p
        { r with state := .multibulkArgnLf, rnarg := wrap32 (r.rnarg + (2 ^ 32 - 1)) }
      else .next p r
  | .bulk => bulkCase p ch r
  | .bulkLf => lfCase p ch r .bulkArg
  | .bulkArg => skipCase b p r .bulkArgLf
  | .bulkArgLf => lastLf p ch r
  | .multibulk => multibulkCase b p ch r
  | .multibulkNargLf => argnLf p ch r
  | .multibulkArgnLen => argnLenCase b p ch r
  | .multibulkArgnLenLf => lfCase p ch r .multibulkArgn
  | .multibulkArgn => skipCase b p r .multibulkArgnLf
  | .multibulkArgnLf => argnLf p ch r
  | .runtoCrlf => if ch = CR then .next p { r with state := .almostDone } else .next p r
  | .almostDone => lastLf p ch r

/-- **`redis_parse_rsp`.** -/
def redisParseRsp : Parser RspRegs where
  init := {}
  parse := scanParse redisRspStep RspRegs.token (fun r => { r with token := none })
    (fun r => { r with state := .start, token := none })

end CacheProxy
