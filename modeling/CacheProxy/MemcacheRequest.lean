/-
**The memcache request parser.**

`memcache_parse_req` reads a command line and, for the storage commands, a block of data:

    <command> <key> [<key> ...] CR LF
    <command> <key> <flags> <expiry> <bytes> [<cas>] [noreply] CR LF <data> CR LF
    <command> <key> [<number>] [noreply] CR LF

The command, the keys, the numbers and the word `noreply` are tokens; the number of bytes is not,
and neither are the data, which are passed over with a count-down in `r->vlen`.  Several cases of
the switch go back by a byte, so that the next case sees the same byte: here the next case is
applied at once.

Main definitions:

* `McReqState`, `McReqCore` — the states, and the registers other than pointers;
* `memcacheReqAct`, `memcacheReq` — the actions, and the parser they make;
* `memcacheParseReq` — **the parser of the source**.

Main results:

* `memcacheReq_laws` — the actions respect what `CacheProxy/TokenParser.lean` asks for.
-/

import CacheProxy.RedisCommand
import CacheProxy.TokenParser

namespace CacheProxy

open Decimal

/-- A blank. -/
def SP : Byte := 32

/-! ### Commands -/

/-- `memcache_storage` -/
def memcacheStorage : MsgType → Bool
  | .reqMcSet | .reqMcCas | .reqMcAdd | .reqMcReplace | .reqMcAppend | .reqMcPrepend => true
  | _ => false

/-- `memcache_cas` -/
def memcacheCas : MsgType → Bool
  | .reqMcCas => true
  | _ => false

/-- `memcache_retrieval` -/
def memcacheRetrieval : MsgType → Bool
  | .reqMcGet | .reqMcGets => true
  | _ => false

/-- `memcache_arithmetic` -/
def memcacheArithmetic : MsgType → Bool
  | .reqMcIncr | .reqMcDecr => true
  | _ => false

/-- `memcache_delete` -/
def memcacheDelete : MsgType → Bool
  | .reqMcDelete => true
  | _ => false

/-- `memcache_touch` -/
def memcacheTouch : MsgType → Bool
  | .reqMcTouch => true
  | _ => false

/-- The names of `n` bytes.  Those of three are compared with the blank behind them. -/
def memcacheCommands : ℕ → List (String × MsgType)
  | 3 => [("get ", .reqMcGet), ("set ", .reqMcSet), ("add ", .reqMcAdd), ("cas ", .reqMcCas)]
  | 4 => [("gets", .reqMcGets), ("incr", .reqMcIncr), ("decr", .reqMcDecr), ("quit", .reqMcQuit)]
  | 5 => [("touch", .reqMcTouch)]
  | 6 => [("append", .reqMcAppend), ("delete", .reqMcDelete)]
  | 7 => [("prepend", .reqMcPrepend), ("replace", .reqMcReplace)]
  | _ => []

/-- The type of the command with a name of `n` bytes at the start of `m`. -/
def memcacheCommandType (m : List Byte) (n : ℕ) : MsgType :=
  match (memcacheCommands n).find? fun e => (str e.1).isPrefixOf m with
  | some e => e.2
  | none => .unknown

/-- `MEMCACHE_MAX_KEY_LENGTH` -/
def memcacheMaxKeyLength : ℕ := 250

/-! ### States and registers -/

/-- **The states of `memcache_parse_req`.** -/
inductive McReqState where
  | start | reqType | spacesBeforeKey | key | spacesBeforeKeys
  | spacesBeforeFlags | flags | spacesBeforeExpiry | expiry | spacesBeforeVlen | vlen
  | spacesBeforeCas | cas | runtoVal | val | spacesBeforeNum | num
  | runtoCrlf | crlf | noreply | afterNoreply | almostDone
  deriving DecidableEq, Repr

/-- **The fields of `struct msg` that the parser works on**, other than pointers. -/
structure McReqCore where
  state : McReqState := .start
  type : MsgType := .unknown
  narg : ℕ := 0
  vlen : ℕ := 0
  noreply : Bool := false
  quit : Bool := false
  deriving DecidableEq, Repr

/-- The action when the token has been closed before it; `key` says that the token is a key. -/
def Act.cleared {κ : Type} (key : Bool) : Act κ → Act κ
  | .next core .keep _ mark => .next core .clear key mark
  | .next core .set _ mark => .next core .set key mark
  | .next core .clear _ mark => .next core .clear key mark
  | .skip n left got => .skip n left got
  | .done => .done
  | .error => .error

/-! ### The cases of the switch -/

namespace McReqCore

variable (k : McReqCore) (c : Byte)

/-- `state = s` -/
def goto (s : McReqState) : Act McReqCore := .next { k with state := s } .keep false false

/-- `r->token = p; state = s` -/
def opens (s : McReqState) : Act McReqCore := .next { k with state := s } .set false false

/-- `r->token = NULL; state = s` -/
def closes (s : McReqState) : Act McReqCore := .next { k with state := s } .clear false false

/-- `SW_CRLF` -/
def crlfCase : Act McReqCore :=
  if c = SP then k.goto .crlf else if c = CR then k.goto .almostDone else .error

/-- `SW_RUNTO_CRLF` -/
def runtoCrlfCase : Act McReqCore :=
  if c = SP then k.goto .runtoCrlf
  else if c = 110 then
    if memcacheStorage k.type || memcacheArithmetic k.type || memcacheDelete k.type ||
        memcacheTouch k.type then k.opens .noreply
    else .error
  else if c = CR then k.goto (if memcacheStorage k.type then .runtoVal else .almostDone)
  else .error

/-- `SW_AFTER_NOREPLY` -/
def afterNoreplyCase : Act McReqCore :=
  if c = SP then k.goto .afterNoreply
  else if c = CR then k.goto (if memcacheStorage k.type then .runtoVal else .almostDone)
  else .error

/-- The blanks `s` before a number that is read in the state `s'`. -/
def digitsCase (s s' : McReqState) : Act McReqCore :=
  if c ≠ SP then (if isDigit c then k.opens s' else .error) else k.goto s

/-- `SW_SPACES_BEFORE_NUM` -/
def spacesBeforeNumCase : Act McReqCore :=
  if c ≠ SP then (if isDigit c || c == 45 then k.opens .num else .error)
    else k.goto .spacesBeforeNum

/-- `SW_SPACES_BEFORE_KEYS`; `key` is what `SW_KEY` does. -/
def spacesBeforeKeysCase (key : Act McReqCore) : Act McReqCore :=
  if c = SP then k.goto .spacesBeforeKeys
  else if c = CR then k.goto .almostDone
  else key.cleared false

/-- The state behind a key. -/
def afterKey : McReqState :=
  if memcacheStorage k.type then .spacesBeforeFlags
  else if memcacheArithmetic k.type || memcacheTouch k.type then .spacesBeforeNum
  else if memcacheDelete k.type then .runtoCrlf
  else if memcacheRetrieval k.type then .spacesBeforeKeys
  else .runtoCrlf

/-- `SW_KEY`.  A carriage return is looked at again in the next state. -/
def keyCase (tok : Option (List Byte)) : Act McReqCore :=
  if c = SP ∨ c = CR then
    let keylen := (tok.getD []).length
    if memcacheMaxKeyLength < keylen then .error
    else if keylen = 0 then .error
    else
      let k := { k with narg := wrap32 (k.narg + 1) }
      if c = CR then
        if memcacheStorage k.type || memcacheArithmetic k.type then .error
        else
          match k.afterKey with
          | .spacesBeforeNum => (k.spacesBeforeNumCase c).cleared true
          | .spacesBeforeKeys => (k.spacesBeforeKeysCase c .error).cleared true
          | _ => (k.runtoCrlfCase c).cleared true
      else .next { k with state := k.afterKey } .clear true false
  else if tok = none then k.opens .key
  else k.goto .key

/-- `SW_REQ_TYPE`; without a token no name is recognized. -/
def reqTypeCase (tok : Option (List Byte)) : Act McReqCore :=
  if c = SP ∨ c = CR then
    match tok with
    | none => .error
    | some m =>
        let type := memcacheCommandType (m ++ [c]) m.length
        let k := { k with
          type := type, narg := wrap32 (k.narg + 1), quit := k.quit || type == MsgType.reqMcQuit }
        if type = .reqMcQuit then (k.crlfCase c).cleared false
        else if type = .unknown then .error
        else if c = CR then .error
        else k.closes .spacesBeforeKey
  else if isLower c then k.goto .reqType
  else .error

/-- `SW_NOREPLY`; without a token the word is not recognized. -/
def noreplyCase (tok : Option (List Byte)) : Act McReqCore :=
  if c = SP ∨ c = CR then
    if tok = some (str "noreply") then ({ k with noreply := true }.afterNoreplyCase c).cleared false
    else .error
  else k.goto .noreply

end McReqCore

open McReqCore in
/-- **The switch of `memcache_parse_req`.** -/
def memcacheReqAct (k : McReqCore) (tok : Option (List Byte)) (c : Byte) : Act McReqCore :=
  match k.state with
  | .start => if c = SP then k.goto .start else if isLower c then k.opens .reqType else .error
  | .reqType => k.reqTypeCase c tok
  | .spacesBeforeKey => if c ≠ SP then (k.keyCase c none).cleared false else k.goto .spacesBeforeKey
  | .key => k.keyCase c tok
  | .spacesBeforeKeys => k.spacesBeforeKeysCase c (k.keyCase c none)
  | .spacesBeforeFlags => k.digitsCase c .spacesBeforeFlags .flags
  | .flags =>
      if isDigit c then k.goto .flags else if c = SP then k.closes .spacesBeforeExpiry else .error
  | .spacesBeforeExpiry => k.digitsCase c .spacesBeforeExpiry .expiry
  | .expiry =>
      if isDigit c then k.goto .expiry else if c = SP then k.closes .spacesBeforeVlen else .error
  | .spacesBeforeVlen =>
      if c ≠ SP then
        if isDigit c then { k with vlen := digitVal c }.goto .vlen else .error
      else k.goto .spacesBeforeVlen
  | .vlen =>
      if isDigit c then { k with vlen := wrap32 (k.vlen * 10 + digitVal c) }.goto .vlen
      else if memcacheCas k.type then
        if c ≠ SP then .error else (k.digitsCase c .spacesBeforeCas .cas).cleared false
      else if c = SP ∨ c = CR then (k.runtoCrlfCase c).cleared false
      else .error
  | .spacesBeforeCas => k.digitsCase c .spacesBeforeCas .cas
  | .cas =>
      if isDigit c then k.goto .cas
      else if c = SP ∨ c = CR then (k.runtoCrlfCase c).cleared false
      else .error
  | .runtoVal => if c = LF then k.goto .val else .error
  | .val =>
      .skip k.vlen (fun n => { k with vlen := n }) fun m =>
        if m = CR then some { k with state := .almostDone } else none
  | .spacesBeforeNum => k.spacesBeforeNumCase c
  | .num =>
      if isDigit c then k.goto .num
      else if c = SP ∨ c = CR then (k.runtoCrlfCase c).cleared false
      else .error
  | .runtoCrlf => k.runtoCrlfCase c
  | .crlf => k.crlfCase c
  | .noreply => k.noreplyCase c tok
  | .afterNoreply => k.afterNoreplyCase c
  | .almostDone => if c = LF then .done else .error

/-- The parser, given by its actions.  A token that is moved is read again in the same state. -/
def memcacheReq : TokenParser McReqCore where
  init := {}
  act := memcacheReqAct
  rewind k := k
  finish k := { k with state := .start }

/-- **`memcache_parse_req`.** -/
def memcacheParseReq : Parser (TokRegs McReqCore) := memcacheReq.parser

/-! ### What the actions respect -/

namespace McReqCore

/-- Registers that go on alike: behind the data the length is not looked at. -/
def Same (k k' : McReqCore) : Prop :=
  k = k' ∨ (k.state = .almostDone ∧ { k with vlen := 0 } = { k' with vlen := 0 })

/-- The states without a token. -/
def Closed (k : McReqCore) : Prop :=
  k.state ∉ [.reqType, .key, .flags, .expiry, .cas, .num, .noreply]

theorem Same.refl (k : McReqCore) : k.Same k := .inl rfl

theorem Same.state_eq {k k' : McReqCore} (h : { k with vlen := 0 } = { k' with vlen := 0 }) :
    k.state = k'.state := by
  have := congrArg McReqCore.state h
  simpa using this

theorem Same.symm {k k' : McReqCore} (h : k.Same k') : k'.Same k := by
  rcases h with rfl | ⟨hs, h⟩
  · exact .inl rfl
  · exact .inr ⟨(Same.state_eq h).symm.trans hs, h.symm⟩

theorem Same.trans {k k' k'' : McReqCore} (h : k.Same k') (h' : k'.Same k'') : k.Same k'' := by
  rcases h with rfl | ⟨hs, h⟩
  · exact h'
  · rcases h' with rfl | ⟨-, h'⟩
    · exact .inr ⟨hs, h⟩
    · exact .inr ⟨hs, h.trans h'⟩

end McReqCore

/-- **An action that keeps the token to its states**: where there is none afterwards it was closed,
and a key is complete when its token ends.  Nothing is passed over, and nothing marked. -/
def Act.Proper {κ : Type} (Closed : κ → Prop) (tok : Option (List Byte)) : Act κ → Prop
  | .next k m key mark =>
      (Closed k → m = .clear ∨ m = .keep ∧ tok = none) ∧ (key = true → m ≠ .keep) ∧ mark = false
  | .skip _ _ _ => False
  | .done => True
  | .error => True

theorem Act.Proper.cleared {κ : Type} {Closed : κ → Prop} {x : Act κ} (h : x.Proper Closed none)
    (key : Bool) (tok : Option (List Byte)) : (x.cleared key).Proper Closed tok := by
  cases x with
  | next k m =>
    cases m with
    | keep => exact ⟨fun _ => .inl rfl, by simp, h.2.2⟩
    | clear => exact ⟨fun _ => .inl rfl, by simp, h.2.2⟩
    | set =>
      refine ⟨fun hk => ?_, by simp, h.2.2⟩
      rcases h.1 hk with hm | ⟨hm, -⟩ <;> cases hm
  | skip => exact h
  | done | error => trivial

namespace McReqCore

variable (k : McReqCore) (c : Byte)

theorem goto_proper (s : McReqState) : (k.goto s).Proper Closed none :=
  ⟨fun _ => .inr ⟨rfl, rfl⟩, by simp, rfl⟩

/-- A state with a token keeps it. -/
theorem goto_proper_open {s : McReqState}
    (hs : s ∈ [McReqState.reqType, .key, .flags, .expiry, .cas, .num, .noreply])
    (tok : Option (List Byte)) : (k.goto s).Proper Closed tok :=
  ⟨fun hk => absurd hs hk, by simp, rfl⟩

theorem opens_proper {s : McReqState}
    (hs : s ∈ [McReqState.reqType, .key, .flags, .expiry, .cas, .num, .noreply])
    (tok : Option (List Byte)) : (k.opens s).Proper Closed tok :=
  ⟨fun hk => absurd hs hk, by simp, rfl⟩

theorem closes_proper (s : McReqState) (tok : Option (List Byte)) :
    (k.closes s).Proper Closed tok :=
  ⟨fun _ => .inl rfl, by simp, rfl⟩

theorem crlfCase_proper : (k.crlfCase c).Proper Closed none := by
  unfold crlfCase
  split_ifs
  · exact k.goto_proper _
  · exact k.goto_proper _
  · trivial

theorem runtoCrlfCase_proper : (k.runtoCrlfCase c).Proper Closed none := by
  unfold runtoCrlfCase
  split_ifs
  · exact k.goto_proper _
  · exact k.opens_proper (by decide) _
  · trivial
  · exact k.goto_proper _
  · exact k.goto_proper _
  · trivial

theorem afterNoreplyCase_proper : (k.afterNoreplyCase c).Proper Closed none := by
  unfold afterNoreplyCase
  split_ifs
  · exact k.goto_proper _
  · exact k.goto_proper _
  · exact k.goto_proper _
  · trivial

theorem digitsCase_proper {s s' : McReqState}
    (hs : s' ∈ [McReqState.reqType, .key, .flags, .expiry, .cas, .num, .noreply]) :
    (k.digitsCase c s s').Proper Closed none := by
  unfold digitsCase
  split_ifs
  · exact k.opens_proper hs _
  · trivial
  · exact k.goto_proper _

theorem spacesBeforeNumCase_proper : (k.spacesBeforeNumCase c).Proper Closed none := by
  unfold spacesBeforeNumCase
  split_ifs
  · exact k.opens_proper (by decide) _
  · trivial
  · exact k.goto_proper _

theorem spacesBeforeKeysCase_proper {x : Act McReqCore} (hx : x.Proper Closed none) :
    (k.spacesBeforeKeysCase c x).Proper Closed none := by
  unfold spacesBeforeKeysCase
  split_ifs
  · exact k.goto_proper _
  · exact k.goto_proper _
  · exact hx.cleared _ _

theorem keyCase_proper (tok : Option (List Byte)) : (k.keyCase c tok).Proper Closed tok := by
  unfold keyCase
  dsimp only
  split_ifs
  · trivial
  · trivial
  · trivial
  · split
    · exact (spacesBeforeNumCase_proper _ c).cleared _ _
    · exact (spacesBeforeKeysCase_proper _ c
        (show Act.error.Proper Closed none from trivial)).cleared _ _
    · exact (runtoCrlfCase_proper _ c).cleared _ _
  · exact ⟨fun _ => .inl rfl, by simp, rfl⟩
  · exact k.opens_proper (by decide) _
  · exact k.goto_proper_open (by decide) _

theorem reqTypeCase_proper (tok : Option (List Byte)) :
    (k.reqTypeCase c tok).Proper Closed tok := by
  unfold reqTypeCase
  split
  · cases tok with
    | none => trivial
    | some m =>
      dsimp only
      split
      · exact (crlfCase_proper _ c).cleared _ _
      · split
        · trivial
        · split
          · trivial
          · exact closes_proper _ _ _
  · split
    · exact k.goto_proper_open (by decide) _
    · trivial

theorem noreplyCase_proper (tok : Option (List Byte)) :
    (k.noreplyCase c tok).Proper Closed tok := by
  unfold noreplyCase
  split_ifs
  · exact (afterNoreplyCase_proper _ c).cleared _ _
  · trivial
  · exact k.goto_proper_open (by decide) _

end McReqCore

open McReqCore in
/-- **The switch keeps the token to its states.** -/
theorem memcacheReqAct_proper {k : McReqCore} {tok : Option (List Byte)} (c : Byte)
    (hval : k.state ≠ .val) (htok : k.Closed → tok = none) :
    (memcacheReqAct k tok c).Proper Closed tok := by
  have hnone : ∀ {s : McReqState} {x : Act McReqCore}, k.state = s →
      s ∉ [McReqState.reqType, .key, .flags, .expiry, .cas, .num, .noreply] →
      x.Proper Closed none → x.Proper Closed tok := fun hs hn hx =>
    htok (by rw [McReqCore.Closed, hs]; exact hn) ▸ hx
  unfold memcacheReqAct
  split
  · next hs =>
    refine hnone hs (by decide) ?_
    split_ifs
    · exact k.goto_proper _
    · exact k.opens_proper (by decide) _
    · trivial
  · exact k.reqTypeCase_proper c tok
  · next hs =>
    refine hnone hs (by decide) ?_
    split_ifs
    · exact (k.keyCase_proper c none).cleared _ _
    · exact k.goto_proper _
  · exact k.keyCase_proper c tok
  · next hs =>
    exact hnone hs (by decide) (k.spacesBeforeKeysCase_proper c (k.keyCase_proper c none))
  · next hs => exact hnone hs (by decide) (k.digitsCase_proper c (by decide))
  · split_ifs
    · exact k.goto_proper_open (by decide) _
    · exact k.closes_proper _ _
    · trivial
  · next hs => exact hnone hs (by decide) (k.digitsCase_proper c (by decide))
  · split_ifs
    · exact k.goto_proper_open (by decide) _
    · exact k.closes_proper _ _
    · trivial
  · next hs =>
    refine hnone hs (by decide) ?_
    split_ifs
    · exact goto_proper _ _
    · trivial
    · exact k.goto_proper _
  · next hs =>
    refine hnone hs (by decide) ?_
    split_ifs
    · exact goto_proper _ _
    · trivial
    · exact (k.digitsCase_proper c (by decide)).cleared _ _
    · exact (k.runtoCrlfCase_proper c).cleared _ _
    · trivial
  · next hs => exact hnone hs (by decide) (k.digitsCase_proper c (by decide))
  · split_ifs
    · exact k.goto_proper_open (by decide) _
    · exact (k.runtoCrlfCase_proper c).cleared _ _
    · trivial
  · next hs =>
    refine hnone hs (by decide) ?_
    split_ifs
    · exact k.goto_proper _
    · trivial
  · next hs => exact absurd hs hval
  · next hs => exact hnone hs (by decide) (k.spacesBeforeNumCase_proper c)
  · split_ifs
    · exact k.goto_proper_open (by decide) _
    · exact (k.runtoCrlfCase_proper c).cleared _ _
    · trivial
  · next hs => exact hnone hs (by decide) (k.runtoCrlfCase_proper c)
  · next hs => exact hnone hs (by decide) (k.crlfCase_proper c)
  · exact k.noreplyCase_proper c tok
  · next hs => exact hnone hs (by decide) (k.afterNoreplyCase_proper c)
  · split_ifs <;> trivial

theorem memcacheReqAct_val {k : McReqCore} (hval : k.state = .val) (tok : Option (List Byte))
    (c : Byte) :
    memcacheReqAct k tok c = .skip k.vlen (fun n => { k with vlen := n }) fun m =>
      if m = CR then some { k with state := .almostDone } else none := by
  unfold memcacheReqAct
  rw [hval]

/-- In the states without a token the token is not looked at. -/
theorem memcacheReqAct_tok (k : McReqCore) (tok : Option (List Byte)) (c : Byte) :
    ∃ tok', memcacheReqAct k tok c = memcacheReqAct k tok' c ∧ (k.Closed → tok' = none) := by
  by_cases hk : k.Closed
  · refine ⟨none, ?_, fun _ => rfl⟩
    unfold memcacheReqAct
    cases hs : k.state <;> first | rfl | exact absurd hs (fun hs => hk (by simp [hs]))
  · exact ⟨tok, rfl, fun hc => absurd hc hk⟩

theorem memcacheReqAct_skip {k : McReqCore} {tok : Option (List Byte)} {c : Byte} {n : ℕ}
    {left : ℕ → McReqCore} {got : Byte → Option McReqCore}
    (h : memcacheReqAct k tok c = .skip n left got) : k.state = .val := by
  by_contra hval
  obtain ⟨tok', heq, htok⟩ := memcacheReqAct_tok k tok c
  have hproper := memcacheReqAct_proper c hval htok
  rw [← heq, h] at hproper
  exact hproper

/-- **The actions respect what a token parser asks for.** -/
theorem memcacheReq_laws : memcacheReq.Laws McReqCore.Same McReqCore.Closed (fun _ => False) where
  refl := McReqCore.Same.refl
  symm := McReqCore.Same.symm
  trans := McReqCore.Same.trans
  act := by
    rintro k k' tok c (rfl | ⟨hs, h⟩)
    · exact Act.Same.refl McReqCore.Same.refl _
    · have hs' : k'.state = .almostDone := (McReqCore.Same.state_eq h).symm.trans hs
      change (memcacheReqAct k tok c).Same McReqCore.Same (memcacheReqAct k' tok c)
      simp only [memcacheReqAct, hs, hs']
      split <;> trivial
  skip := by
    intro k tok c n left got h
    have hval := memcacheReqAct_skip h
    have heq := (memcacheReqAct_val hval tok c).symm.trans h
    cases heq
    refine ⟨by simp [McReqCore.Closed, hval], .inl rfl, fun j =>
      ⟨by simp [McReqCore.Closed, hval], fun c' => ?_⟩⟩
    change (memcacheReqAct { k with vlen := j } none c').Same McReqCore.Same _
    rw [memcacheReqAct_val (k := { k with vlen := j }) hval]
    refine ⟨rfl, fun i => .inl rfl, fun d => ?_⟩
    dsimp only
    split
    · exact .some (.inr ⟨rfl, rfl⟩)
    · exact .none
  unmarked_skip := fun _ => ⟨fun _ _ _ hf => hf, fun _ _ _ _ _ hf => hf⟩
  closed := by
    intro k tok c k' m key mark h htok hk
    have hval : k.state ≠ .val := fun hval => by
      have := (memcacheReqAct_val hval tok c).symm.trans h
      cases this
    have hproper := memcacheReqAct_proper c hval htok
    rw [show memcacheReqAct k tok c = _ from h] at hproper
    exact hproper.1 hk
  key := by
    intro k tok c k' m mark h
    have hval : k.state ≠ .val := fun hval => by
      have := (memcacheReqAct_val hval tok c).symm.trans h
      cases this
    obtain ⟨tok', heq, htok⟩ := memcacheReqAct_tok k tok c
    have hproper := memcacheReqAct_proper c hval htok
    rw [← heq, show memcacheReqAct k tok c = _ from h] at hproper
    exact hproper.2.1 rfl
  marked := fun _ hf => hf.elim
  rewind := fun h => h
  unmarked := fun _ hf => hf
  start := fun hf => hf

end CacheProxy
