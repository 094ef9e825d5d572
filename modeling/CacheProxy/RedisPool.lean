/-
**A pool of redis servers.**

The protocol handlers of a redis pool, put together to the `Env` that the proxy is run with: how a
request is fragmented, which requests the proxy answers itself and how, what is done to the
response of a fragment when it comes, and how the response of a fragmented request is made.

Main definitions:

* `RedisRegs`, `RedisConf` — what is kept of a message, and the configuration of the pool;
* `redisReply`, `redisHandleAuthReq`, `redisHandleThresholdReq` — local answers;
* `redisPreCoalesce`, `redisCoalesceHead`, `redisCoalesceTail` — the responses of fragments;
* `redisEnv` — **the pool**.
-/

import CacheProxy.ProxyState
import CacheProxy.RedisFragment
import CacheProxy.RedisResponse

namespace CacheProxy

open Decimal

/-! ### Messages and configuration -/

/-- What the parsers keep in a message: `req` of a request, `rsp` of a response.  The field
`integer` of `struct msg` is in `rsp`, also for a request. -/
structure RedisRegs where
  req : ReqRegs := {}
  rsp : RspRegs := {}
  deriving DecidableEq, Repr

/-- How keys are distributed when a request is fragmented: the argument `ncontinuum` of
`msg->fragment`, and what the call of `msg_backend_idx` for the `j`-th key gives. -/
structure Placement where
  ncontinuum : ℕ
  idx : ℕ → List Byte → ℕ

/-- **The configuration** of a pool.  `db` is `redis_db`, and `redisAuth` the password if there is
one. -/
structure RedisConf where
  size : ℕ
  redisAuth : Option (List Byte) := none
  db : ℕ := 0
  timeout : ℤ := 0
  trace : Option ℤ := none
  strerror : ℕ → List Byte
  junk : ℕ → Times := fun _ => {}

/-! ### Local answers -/

/-- `rsp_ok` -/
def rspOk : List Byte := str "+OK" ++ [CR, LF]

/-- `rsp_pong` -/
def rspPong : List Byte := str "+PONG" ++ [CR, LF]

/-- `rsp_invalid_password` -/
def rspInvalidPassword : List Byte := str "-ERR invalid password" ++ [CR, LF]

/-- `rsp_auth_required` -/
def rspAuthRequired : List Byte := str "-NOAUTH Authentication required" ++ [CR, LF]

/-- `rsp_no_password` -/
def rspNoPassword : List Byte := str "-ERR Client sent AUTH, but no password is set" ++ [CR, LF]

/-- The bytes of the first key of a request. -/
def firstKey (con : Content RedisRegs) : List Byte :=
  (con.regs.req.keys.head?.bind (keyBytes con.mhdr)).getD []

/-- `redis_handle_auth_req`, on a connection that is authenticated or not. -/
def redisHandleAuthReq (conf : RedisConf) (con : Content RedisRegs) (authenticated : Bool) :
    LocalReply :=
  match conf.redisAuth with
  | none => { text := rspNoPassword, authenticated := authenticated }
  | some password =>
      if firstKey con = password then { text := rspOk, authenticated := true }
      else { text := rspInvalidPassword, authenticated := false }

/-- `atoi`: an optional sign and the digits behind it, as an `int`. -/
def atoi (bs : List Byte) : ℤ :=
  match bs with
  | 45 :: ds => -toInt32 (value (ds.takeWhile isDigit))
  | 43 :: ds => toInt32 (value (ds.takeWhile isDigit))
  | ds => toInt32 (value (ds.takeWhile isDigit))

/-- `redis_handle_threshold_req` -/
def redisHandleThresholdReq (con : Content RedisRegs) (authenticated : Bool) : LocalReply :=
  { text := rspOk, authenticated := authenticated, threshold := some (atoi (firstKey con)) }

/-- **`redis_reply`**; types that do not get there have an empty answer. -/
def redisReply (conf : RedisConf) (con : Content RedisRegs) (authenticated : Bool) : LocalReply :=
  match con.regs.req.type with
  | .reqRedisAuth => redisHandleAuthReq conf con authenticated
  | .reqRedisSetSlowThreshold => redisHandleThresholdReq con authenticated
  | t =>
      if !authenticated then { text := rspAuthRequired, authenticated := authenticated }
      else
        match t with
        | .reqRedisPing => { text := rspPong, authenticated := authenticated }
        | .reqRedisSelectClient => { text := rspOk, authenticated := authenticated }
        | _ => { text := [], authenticated := authenticated }

/-! ### Fragments -/

/-- `redis_fragment`, as the proxy uses it. -/
def redisFragmentation (size : ℕ) (place : Placement) (next : ℕ) (con : Content RedisRegs) :
    Option (Fragmentation RedisRegs) :=
  match redisFragment size place.ncontinuum next place.idx
      { toMsgBuf := con.toMsgBuf, regs := con.regs.req } with
  | .error _ => none
  | .ok f => some
      { rest := { toMsgBuf := f.src, regs := con.regs }
        parts := f.queue.map fun i =>
          let frag := (f.sub i).getD {}
          { toMsgBuf := frag.buf
            regs := { req := { narg := frag.narg, keys := frag.keys, type := frag.type } } }
        seq := f.seq.map fun i => f.queue.idxOf i
        nextMbuf := f.next }

/-- The first mbuf is emptied. -/
def dropFirst (m : MsgBuf) : MsgBuf :=
  match m.mhdr with
  | [] => m
  | b :: bs => { mhdr := mbufRewind b :: bs, mlen := sub32 m.mlen (mbufLength b) }

/-- `mbuf->pos` is set to an offset. -/
def Mbuf.seek (b : Mbuf) (pos : ℕ) : Mbuf :=
  { b with gone := b.data.take pos, body := b.data.drop pos }

/-- `narg_end - narg_start`, with the line end. -/
def nargLength (r : RspRegs) : ℕ :=
  match r.nargStart, r.nargEnd with
  | some s, some e => e.off + 2 - s.off
  | _, _ => 0

/-- The header of a multi-bulk is skipped: `mlen` is less by the length of the header that was read
last, and `pos` of the first mbuf is set behind it.  In another mbuf that is a pointer of which
nothing is known; the first mbuf then stays as it is. -/
def skipNarg (m : MsgBuf) (r : RspRegs) : MsgBuf :=
  match m.mhdr, r.nargEnd with
  | b :: bs, some e =>
      { mhdr := (if e.mbuf = b.id then b.seek (e.off + 2) else b) :: bs
        mlen := sub32 m.mlen (nargLength r) }
  | _, _ => m

/-- **`redis_pre_coalesce`** behind the counter: fragment, its response and the owner. -/
def redisPreCoalesce (req rsp owner : Content RedisRegs) :
    Content RedisRegs × Content RedisRegs × Bool :=
  match rsp.regs.rsp.type with
  | .rspRedisInteger =>
      ({ rsp with toMsgBuf := dropFirst rsp.toMsgBuf },
        { owner with
          regs := { owner.regs with
            rsp := { owner.regs.rsp with
              integer := wrap32 (owner.regs.rsp.integer + rsp.regs.rsp.integer) } } },
        false)
  | .rspRedisMultibulk =>
      ({ rsp with toMsgBuf := skipNarg rsp.toMsgBuf rsp.regs.rsp }, owner, false)
  | .rspRedisStatus =>
      if req.regs.req.type = .reqRedisMset then
        ({ rsp with toMsgBuf := dropFirst rsp.toMsgBuf }, owner, false)
      else (rsp, owner, false)
  | _ => (rsp, owner, true)

/-- `redis_post_coalesce` before its loop: for `MGET` the header, for `DEL` all of the response, and
for `MSET` nothing. -/
def redisCoalesceHead (size next : ℕ) (req rsp : Content RedisRegs) : Option (Content RedisRegs) :=
  match req.regs.req.type with
  | .reqRedisMget =>
      (msgPrependFormat size next rsp.toMsgBuf
        (42 :: fmtInt (sub32 req.regs.req.narg 1) ++ [CR, LF])).map fun m =>
          { rsp with toMsgBuf := m }
  | .reqRedisDel =>
      (msgPrependFormat size next rsp.toMsgBuf
        (58 :: fmtInt req.regs.rsp.integer ++ [CR, LF])).map fun m => { rsp with toMsgBuf := m }
  | _ => some rsp

/-- `redis_post_coalesce` behind its loop: for `MSET` the response. -/
def redisCoalesceTail (size next : ℕ) (req rsp : Content RedisRegs) : Content RedisRegs :=
  match req.regs.req.type with
  | .reqRedisMset => { rsp with toMsgBuf := msgAppend size next rsp.toMsgBuf rspOk }
  | _ => rsp

/-- `redis_copy_bulk` from the response of a fragment to that of the owner. -/
def redisCopyPart (size next : ℕ) (dst src : Content RedisRegs) :
    Option (Content RedisRegs × Content RedisRegs) :=
  match redisCopyBulk size next (some dst.toMsgBuf) src.toMsgBuf with
  | some (some d, s) => some ({ dst with toMsgBuf := d }, { src with toMsgBuf := s })
  | _ => none

/-! ### The pool -/

/-- A message of the proxy's own with one mbuf. -/
def ownMessage (text : List Byte) (type : MsgType) : Content RedisRegs :=
  { mhdr := [{ id := 0, body := text }], mlen := wrap32 text.length,
    regs := { req := { type := type } } }

/-- The message of `redis_add_auth`. -/
def redisAuthMessage (password : List Byte) : Content RedisRegs :=
  ownMessage (str "*2" ++ [CR, LF] ++ str "$4" ++ [CR, LF] ++ str "AUTH" ++ [CR, LF] ++
    36 :: fmtInt password.length ++ [CR, LF] ++ password ++ [CR, LF]) .unknown

/-- The message of `redis_post_connect`. -/
def redisSelectMessage (db : ℕ) : Content RedisRegs :=
  ownMessage (str "*2" ++ [CR, LF] ++ str "$6" ++ [CR, LF] ++ str "SELECT" ++ [CR, LF] ++
    36 :: fmtInt (numeral db).length ++ [CR, LF] ++ fmtInt db ++ [CR, LF]) .reqRedisSelect

/-- **The pool of redis servers** with a configuration. -/
def redisEnv (conf : RedisConf) : Env RedisRegs Placement where
  size := conf.size
  blank := {}
  nkeys := fun r => r.req.keys.length
  noreply := fun _ => false
  quit := fun r => r.req.quit
  noforward := fun r => r.req.noforward
  fragment := redisFragmentation conf.size
  failure := fun con => redisFailure con.regs.rsp.type
  preCoalesce := redisPreCoalesce
  coalesceHead := redisCoalesceHead conf.size
  gathers := fun r => r.req.type == .reqRedisMget
  copyBulk := redisCopyPart conf.size
  coalesceTail := redisCoalesceTail conf.size
  closesOnError := false
  reply := redisReply conf
  protstr := str "-ERR"
  strerror := conf.strerror
  requireAuth := conf.redisAuth.isSome
  auth := redisAuthMessage (conf.redisAuth.getD [])
  select := if conf.db = 0 then none else some (redisSelectMessage conf.db)
  timeout := conf.timeout
  trace := conf.trace
  junk := conf.junk

/-! ### Messages from bytes -/

/-- The request that `bytes` are, if they arrive in one piece. -/
def redisRequest (size : ℕ) (bytes : List Byte) : Content RedisRegs :=
  match (recvRun redisParseReq size [bytes]).received with
  | m :: _ => { toMsgBuf := m.toMsgBuf, regs := { req := m.regs } }
  | [] => { regs := {} }

/-- The reply that `bytes` are, if they arrive in one piece. -/
def redisResponse (size : ℕ) (bytes : List Byte) : Content RedisRegs :=
  match (recvRun redisParseRsp size [bytes]).received with
  | m :: _ => { toMsgBuf := m.toMsgBuf, regs := { rsp := m.regs } }
  | [] => { regs := {} }

/-- The bytes of lines, each with its line end. -/
def lines (ls : List String) : List Byte := ls.flatMap fun l => str l ++ [CR, LF]

end CacheProxy
