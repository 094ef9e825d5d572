/-
**Message types and the redis command table.**

The types a message can have, the classes of redis commands by the arguments they take, and the
table by which the request parser finds the type of a command name in any letter case.

Main definitions:

* `MsgType` — `msg_type_t`;
* `redisArgz`, ..., `redisArgeval` — the classes of commands;
* `redisCommands`, `redisCommandType` — the names, and the type of a name as the parser finds it.

Main results:

* `redisCommandType_of_mem` — **a name of the table, in any letter case, has its type**;
* `redisArgz_eq`, ..., `redisArgeval_eq` — every command is in at most one class.
-/

import CacheProxy.Mbuf
import Mathlib.Data.List.Find

namespace CacheProxy

/-! ### Types -/

/-- **The types of messages** (`msg_type_t`), in the source's order. -/
inductive MsgType where
  | unknown | reqMcGet | reqMcGets | reqMcDelete | reqMcCas | reqMcSet | reqMcAdd | reqMcReplace
  | reqMcAppend | reqMcPrepend | reqMcIncr | reqMcDecr | reqMcTouch | reqMcQuit | rspMcNum
  | rspMcStored | rspMcNotStored | rspMcExists | rspMcNotFound | rspMcEnd | rspMcValue
  | rspMcDeleted | rspMcTouched | rspMcError | rspMcClientError | rspMcServerError | reqRedisDel
  | reqRedisExists | reqRedisExpire | reqRedisExpireat | reqRedisPexpire | reqRedisPexpireat
  | reqRedisPersist | reqRedisPttl | reqRedisSort | reqRedisTtl | reqRedisType | reqRedisAppend
  | reqRedisBitcount | reqRedisBitpos | reqRedisDecr | reqRedisDecrby | reqRedisDump
  | reqRedisGet | reqRedisGetbit | reqRedisGetrange | reqRedisGetset | reqRedisIncr
  | reqRedisIncrby | reqRedisIncrbyfloat | reqRedisMget | reqRedisMset | reqRedisPsetex
  | reqRedisRestore | reqRedisSet | reqRedisSetbit | reqRedisSetex | reqRedisSetnx
  | reqRedisSetrange | reqRedisStrlen | reqRedisHdel | reqRedisHexists | reqRedisHget
  | reqRedisHgetall | reqRedisHincrby | reqRedisHincrbyfloat | reqRedisHkeys | reqRedisHlen
  | reqRedisHmget | reqRedisHmset | reqRedisHset | reqRedisHsetnx | reqRedisHscan | reqRedisHvals
  | reqRedisLindex | reqRedisLinsert | reqRedisLlen | reqRedisLpop | reqRedisLpush
  | reqRedisLpushx | reqRedisLrange | reqRedisLrem | reqRedisLset | reqRedisLtrim | reqRedisPfadd
  | reqRedisPfcount | reqRedisPfmerge | reqRedisRpop | reqRedisRpoplpush | reqRedisRpush
  | reqRedisRpushx | reqRedisSadd | reqRedisScard | reqRedisSdiff | reqRedisSdiffstore
  | reqRedisSinter | reqRedisSinterstore | reqRedisSismember | reqRedisSmembers | reqRedisSmove
  | reqRedisSpop | reqRedisSrandmember | reqRedisSrem | reqRedisSunion | reqRedisSunionstore
  | reqRedisSscan | reqRedisZadd | reqRedisZcard | reqRedisZcount | reqRedisZincrby
  | reqRedisZinterstore | reqRedisZlexcount | reqRedisZrange | reqRedisZrangebylex
  | reqRedisZrangebyscore | reqRedisZrank | reqRedisZrem | reqRedisZremrangebyrank
  | reqRedisZremrangebylex | reqRedisZremrangebyscore | reqRedisZrevrange
  | reqRedisZrevrangebyscore | reqRedisZrevrank | reqRedisZscore | reqRedisZunionstore
  | reqRedisZscan | reqRedisEval | reqRedisEvalsha | reqRedisPing | reqRedisQuit | reqRedisAuth
  | reqRedisSelectClient | reqRedisSelect | rspRedisStatus | rspRedisError | rspRedisErrorErr
  | rspRedisErrorOom | rspRedisErrorBusy | rspRedisErrorNoauth | rspRedisErrorLoading
  | rspRedisErrorBusykey | rspRedisErrorMisconf | rspRedisErrorNoscript | rspRedisErrorReadonly
  | rspRedisErrorWrongtype | rspRedisErrorExecabort | rspRedisErrorMasterdown
  | rspRedisErrorNoreplicas | rspRedisInteger | rspRedisBulk | rspRedisMultibulk | sentinel
  | reqRedisSetSlowThreshold
  deriving DecidableEq, Repr

/-! ### Classes of commands -/

/-- `redis_argz`: the command takes no key and no argument. -/
def redisArgz : MsgType → Bool
  | .reqRedisPing | .reqRedisQuit => true
  | _ => false

/-- `redis_arg0`: a key and nothing else. -/
def redisArg0 : MsgType → Bool
  | .reqRedisExists | .reqRedisPersist | .reqRedisPttl | .reqRedisTtl | .reqRedisType
  | .reqRedisDump | .reqRedisDecr | .reqRedisGet | .reqRedisIncr | .reqRedisStrlen
  | .reqRedisHgetall | .reqRedisHkeys | .reqRedisHlen | .reqRedisHvals | .reqRedisLlen
  | .reqRedisLpop | .reqRedisRpop | .reqRedisScard | .reqRedisSmembers | .reqRedisSpop
  | .reqRedisZcard | .reqRedisPfcount | .reqRedisAuth | .reqRedisSelectClient
  | .reqRedisSetSlowThreshold => true
  | _ => false

/-- `redis_arg1`: a key and one argument. -/
def redisArg1 : MsgType → Bool
  | .reqRedisExpire | .reqRedisExpireat | .reqRedisPexpire | .reqRedisPexpireat | .reqRedisAppend
  | .reqRedisDecrby | .reqRedisGetbit | .reqRedisGetset | .reqRedisIncrby | .reqRedisIncrbyfloat
  | .reqRedisSetnx | .reqRedisHexists | .reqRedisHget | .reqRedisLindex | .reqRedisLpushx
  | .reqRedisRpoplpush | .reqRedisRpushx | .reqRedisSismember | .reqRedisZrank
  | .reqRedisZrevrank | .reqRedisZscore => true
  | _ => false

/-- `redis_arg2`: a key and two arguments. -/
def redisArg2 : MsgType → Bool
  | .reqRedisGetrange | .reqRedisPsetex | .reqRedisSetbit | .reqRedisSetex | .reqRedisSetrange
  | .reqRedisHincrby | .reqRedisHincrbyfloat | .reqRedisHset | .reqRedisHsetnx | .reqRedisLrange
  | .reqRedisLrem | .reqRedisLset | .reqRedisLtrim | .reqRedisSmove | .reqRedisZcount
  | .reqRedisZlexcount | .reqRedisZincrby | .reqRedisZremrangebylex | .reqRedisZremrangebyrank
  | .reqRedisZremrangebyscore | .reqRedisRestore => true
  | _ => false

/-- `redis_arg3`: a key and three arguments. -/
def redisArg3 : MsgType → Bool
  | .reqRedisLinsert => true
  | _ => false

/-- `redis_argn`: a key and any number of arguments. -/
def redisArgn : MsgType → Bool
  | .reqRedisSort | .reqRedisBitcount | .reqRedisBitpos | .reqRedisSet | .reqRedisHdel
  | .reqRedisHmget | .reqRedisHmset | .reqRedisHscan | .reqRedisLpush | .reqRedisRpush
  | .reqRedisSadd | .reqRedisSdiff | .reqRedisSdiffstore | .reqRedisSinter | .reqRedisSinterstore
  | .reqRedisSrem | .reqRedisSunion | .reqRedisSunionstore | .reqRedisSrandmember
  | .reqRedisSscan | .reqRedisPfadd | .reqRedisPfmerge | .reqRedisZadd | .reqRedisZinterstore
  | .reqRedisZrange | .reqRedisZrangebyscore | .reqRedisZrem | .reqRedisZrevrange
  | .reqRedisZrangebylex | .reqRedisZrevrangebyscore | .reqRedisZunionstore | .reqRedisZscan => true
  | _ => false

/-- `redis_argx`: one or more keys. -/
def redisArgx : MsgType → Bool
  | .reqRedisMget | .reqRedisDel => true
  | _ => false

/-- `redis_argkvx`: one or more keys, each with a value. -/
def redisArgkvx : MsgType → Bool
  | .reqRedisMset => true
  | _ => false

/-- `redis_argeval`: a script, a number of keys, and keys and arguments. -/
def redisArgeval : MsgType → Bool
  | .reqRedisEval | .reqRedisEvalsha => true
  | _ => false

/-- The classes of commands. -/
inductive ArgClass where
  | argz | arg0 | arg1 | arg2 | arg3 | argn | argx | argkvx | argeval
  deriving DecidableEq, Repr

/-- The class of a type, if it is a command's. -/
def argClass (t : MsgType) : Option ArgClass :=
  if redisArgz t then some .argz
  else if redisArg0 t then some .arg0
  else if redisArg1 t then some .arg1
  else if redisArg2 t then some .arg2
  else if redisArg3 t then some .arg3
  else if redisArgn t then some .argn
  else if redisArgx t then some .argx
  else if redisArgkvx t then some .argkvx
  else if redisArgeval t then some .argeval
  else none

theorem redisArgz_eq (t : MsgType) : redisArgz t = decide (argClass t = some .argz) := by
  cases t <;> rfl

theorem redisArg0_eq (t : MsgType) : redisArg0 t = decide (argClass t = some .arg0) := by
  cases t <;> rfl

theorem redisArg1_eq (t : MsgType) : redisArg1 t = decide (argClass t = some .arg1) := by
  cases t <;> rfl

theorem redisArg2_eq (t : MsgType) : redisArg2 t = decide (argClass t = some .arg2) := by
  cases t <;> rfl

theorem redisArg3_eq (t : MsgType) : redisArg3 t = decide (argClass t = some .arg3) := by
  cases t <;> rfl

theorem redisArgn_eq (t : MsgType) : redisArgn t = decide (argClass t = some .argn) := by
  cases t <;> rfl

theorem redisArgx_eq (t : MsgType) : redisArgx t = decide (argClass t = some .argx) := by
  cases t <;> rfl

theorem redisArgkvx_eq (t : MsgType) : redisArgkvx t = decide (argClass t = some .argkvx) := by
  cases t <;> rfl

theorem redisArgeval_eq (t : MsgType) : redisArgeval t = decide (argClass t = some .argeval) := by
  cases t <;> rfl

/-! ### Command names -/

/-- The names of eleven letters. -/
def redisCommands11 : List (String × MsgType) :=
  [("incrbyfloat", .reqRedisIncrbyfloat), ("sinterstore", .reqRedisSinterstore),
   ("srandmember", .reqRedisSrandmember), ("sunionstore", .reqRedisSunionstore),
   ("zinterstore", .reqRedisZinterstore), ("zunionstore", .reqRedisZunionstore),
   ("zrangebylex", .reqRedisZrangebylex)]

/-- **The command names**, by length, in the order in which `redis_parse_req` compares them.  The
case for ten letters has no `break` and goes on with the names of eleven. -/
def redisCommands : ℕ → List (String × MsgType)
  | 3 =>
      [("get", .reqRedisGet), ("set", .reqRedisSet), ("ttl", .reqRedisTtl), ("del", .reqRedisDel)]
  | 4 =>
      [("pttl", .reqRedisPttl), ("decr", .reqRedisDecr), ("dump", .reqRedisDump),
       ("hdel", .reqRedisHdel), ("hget", .reqRedisHget), ("hlen", .reqRedisHlen),
       ("hset", .reqRedisHset), ("incr", .reqRedisIncr), ("llen", .reqRedisLlen),
       ("lpop", .reqRedisLpop), ("lrem", .reqRedisLrem), ("lset", .reqRedisLset),
       ("rpop", .reqRedisRpop), ("sadd", .reqRedisSadd), ("spop", .reqRedisSpop),
       ("srem", .reqRedisSrem), ("type", .reqRedisType), ("mget", .reqRedisMget),
       ("mset", .reqRedisMset), ("zadd", .reqRedisZadd), ("zrem", .reqRedisZrem),
       ("eval", .reqRedisEval), ("sort", .reqRedisSort), ("ping", .reqRedisPing),
       ("quit", .reqRedisQuit), ("auth", .reqRedisAuth)]
  | 5 =>
      [("hkeys", .reqRedisHkeys), ("hmget", .reqRedisHmget), ("hmset", .reqRedisHmset),
       ("hvals", .reqRedisHvals), ("hscan", .reqRedisHscan), ("lpush", .reqRedisLpush),
       ("ltrim", .reqRedisLtrim), ("rpush", .reqRedisRpush), ("scard", .reqRedisScard),
       ("sdiff", .reqRedisSdiff), ("setex", .reqRedisSetex), ("setnx", .reqRedisSetnx),
       ("smove", .reqRedisSmove), ("sscan", .reqRedisSscan), ("zcard", .reqRedisZcard),
       ("zrank", .reqRedisZrank), ("zscan", .reqRedisZscan), ("pfadd", .reqRedisPfadd)]
  | 6 =>
      [("append", .reqRedisAppend), ("bitpos", .reqRedisBitpos), ("decrby", .reqRedisDecrby),
       ("exists", .reqRedisExists), ("expire", .reqRedisExpire), ("getbit", .reqRedisGetbit),
       ("getset", .reqRedisGetset), ("psetex", .reqRedisPsetex), ("hsetnx", .reqRedisHsetnx),
       ("incrby", .reqRedisIncrby), ("lindex", .reqRedisLindex), ("lpushx", .reqRedisLpushx),
       ("lrange", .reqRedisLrange), ("rpushx", .reqRedisRpushx),
       ("select", .reqRedisSelectClient), ("setbit", .reqRedisSetbit),
       ("sinter", .reqRedisSinter), ("strlen", .reqRedisStrlen), ("sunion", .reqRedisSunion),
       ("zcount", .reqRedisZcount), ("zrange", .reqRedisZrange), ("zscore", .reqRedisZscore)]
  | 7 =>
      [("persist", .reqRedisPersist), ("pexpire", .reqRedisPexpire),
       ("hexists", .reqRedisHexists), ("hgetall", .reqRedisHgetall),
       ("hincrby", .reqRedisHincrby), ("linsert", .reqRedisLinsert),
       ("zincrby", .reqRedisZincrby), ("evalsha", .reqRedisEvalsha),
       ("restore", .reqRedisRestore), ("pfcount", .reqRedisPfcount), ("pfmerge", .reqRedisPfmerge)]
  | 8 =>
      [("expireat", .reqRedisExpireat), ("bitcount", .reqRedisBitcount),
       ("getrange", .reqRedisGetrange), ("setrange", .reqRedisSetrange),
       ("smembers", .reqRedisSmembers), ("zrevrank", .reqRedisZrevrank)]
  | 9 =>
      [("pexpireat", .reqRedisPexpireat), ("rpoplpush", .reqRedisRpoplpush),
       ("sismember", .reqRedisSismember), ("zrevrange", .reqRedisZrevrange),
       ("zlexcount", .reqRedisZlexcount), ("threshold", .reqRedisSetSlowThreshold)]
  | 10 => ("sdiffstore", .reqRedisSdiffstore) :: redisCommands11
  | 11 => redisCommands11
  | 12 =>
      [("hincrbyfloat", .reqRedisHincrbyfloat)]
  | 13 =>
      [("zrangebyscore", .reqRedisZrangebyscore)]
  | 14 =>
      [("zremrangebylex", .reqRedisZremrangebylex)]
  | 15 =>
      [("zremrangebyrank", .reqRedisZremrangebyrank)]
  | 16 =>
      [("zremrangebyscore", .reqRedisZremrangebyscore),
       ("zrevrangebyscore", .reqRedisZrevrangebyscore)]
  | _ => []

/-- `strNicmp`: the bytes at `m` are the letters of `name`, each in lower or upper case. -/
def icmp : List Byte → List Byte → Bool
  | [], _ => true
  | _ :: _, [] => false
  | c :: name, b :: m => (b == c || b == c ^^^ 0x20) && icmp name m

/-- The type `redis_parse_req` gives to a command of `n` bytes at `m`. -/
def redisCommandType (m : List Byte) (n : ℕ) : MsgType :=
  match (redisCommands n).find? fun e => icmp (str e.1) m with
  | some e => e.2
  | none => .unknown

/-- The commands that are answered by the proxy itself (`r->noforward`). -/
def redisNoforward : MsgType → Bool
  | .reqRedisPing | .reqRedisAuth | .reqRedisSelectClient | .reqRedisSetSlowThreshold => true
  | _ => false

/-- The command that ends the connection (`r->quit`). -/
def redisQuit : MsgType → Bool
  | .reqRedisQuit => true
  | _ => false

/-! ### Any letter case -/

/-- The lower-case form of a letter. -/
def lower (b : Byte) : Byte := if 65 ≤ b ∧ b ≤ 90 then b ^^^ 0x20 else b

/-- A lower-case letter. -/
def isLower (c : Byte) : Bool := decide (97 ≤ c ∧ c ≤ 122)

/-- The upper-case form of a lower-case letter is an upper-case letter. -/
theorem isLower_xor {c : Byte} (hc : isLower c = true) :
    (65 ≤ c ^^^ 0x20 ∧ c ^^^ 0x20 ≤ 90) ∧ ¬ (65 ≤ c ∧ c ≤ 90) := by
  have key : ∀ n < 256, isLower (UInt8.ofNat n) = true →
      (65 ≤ UInt8.ofNat n ^^^ 0x20 ∧ UInt8.ofNat n ^^^ 0x20 ≤ 90) ∧
        ¬ (65 ≤ UInt8.ofNat n ∧ UInt8.ofNat n ≤ 90) := by
    decide +kernel
  have h := key c.toNat (UInt8.toNat_lt c)
  rw [UInt8.ofNat_toNat] at h
  exact h hc

theorem xor_eq_iff (b c : Byte) : b = c ^^^ 0x20 ↔ b ^^^ 0x20 = c := by
  constructor
  · rintro rfl
    rw [UInt8.xor_assoc, UInt8.xor_self, UInt8.xor_zero]
  · rintro rfl
    rw [UInt8.xor_assoc, UInt8.xor_self, UInt8.xor_zero]

theorem icmp_byte {b c : Byte} (hc : isLower c = true) :
    (b == c || b == c ^^^ 0x20) = (lower b == c) := by
  obtain ⟨hup, hlow⟩ := isLower_xor hc
  rw [Bool.eq_iff_iff, Bool.or_eq_true, beq_iff_eq, beq_iff_eq, beq_iff_eq]
  by_cases hb : 65 ≤ b ∧ b ≤ 90
  · rw [lower, if_pos hb, xor_eq_iff]
    constructor
    · rintro (rfl | h)
      · exact absurd hb hlow
      · exact h
    · exact Or.inr
  · rw [lower, if_neg hb]
    constructor
    · rintro (h | rfl)
      · exact h
      · exact absurd hup hb
    · exact Or.inl

/-- Comparing in any letter case is comparing with the lower-case form. -/
theorem icmp_eq_isPrefixOf {name : List Byte} (hname : ∀ c ∈ name, isLower c = true)
    (m : List Byte) : icmp name m = name.isPrefixOf (m.map lower) := by
  induction name generalizing m with
  | nil => simp [icmp]
  | cons c name ih =>
      cases m with
      | nil => rfl
      | cons =>
          have hc : isLower c = true := hname c (by simp)
          simp only [icmp, icmp_byte hc, ih (fun x hx => hname x (by simp [hx])), List.map_cons,
            List.isPrefixOf]
          rw [Bool.beq_comm]

/-- The types of the table, looked up by the lower-case form. -/
theorem redisCommands_find : ∀ n < 17, ∀ e ∈ redisCommands n, e.1.length = n →
    (redisCommands n).find? (fun e' => (str e'.1).isPrefixOf (str e.1 ++ [CR])) = some e := by
  decide +kernel

theorem redisCommands_lower : ∀ n < 17, ∀ e ∈ redisCommands n, ∀ c ∈ str e.1, isLower c = true := by
  -- over the letters of a name, not over all bytes
  have key : ∀ n < 17, ∀ e ∈ redisCommands n, (str e.1).all isLower = true := by decide +kernel
  exact fun n hn e he => List.all_eq_true.1 (key n hn e he)

theorem redisCommands_lt {n : ℕ} {e : String × MsgType} (h : e ∈ redisCommands n) : n < 17 := by
  by_contra hn
  obtain ⟨k, rfl⟩ : ∃ k, n = k + 17 := ⟨n - 17, by omega⟩
  simp [redisCommands] at h

/-- **A name of the table, in any letter case, has its type.** -/
theorem redisCommandType_of_mem {n : ℕ} {e : String × MsgType} (h : e ∈ redisCommands n)
    (hlen : e.1.length = n) {tok : List Byte} (htok : tok.map lower = str e.1) :
    redisCommandType (tok ++ [CR]) n = e.2 := by
  have hn := redisCommands_lt h
  have hm : (tok ++ [CR]).map lower = str e.1 ++ [CR] := by
    rw [List.map_append, htok]
    rfl
  have hcongr : (redisCommands n).find? (fun e' => icmp (str e'.1) (tok ++ [CR])) =
      (redisCommands n).find? (fun e' => (str e'.1).isPrefixOf (str e.1 ++ [CR])) := by
    refine List.find?_congr fun e' he' => ?_
    rw [icmp_eq_isPrefixOf (redisCommands_lower n hn e' he'), hm]
  rw [redisCommandType, hcongr, redisCommands_find n hn e h hlen]

end CacheProxy
