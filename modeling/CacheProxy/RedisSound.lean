/-
**What `redis_parse_req` accepts.**

The requests that the machine of `CacheProxy/RedisRequest.lean` accepts have the multi-bulk form,
with lengths that are the values of their digits modulo `2 ^ 32`: this is read off an invariant,
which says what the bytes read so far look like in each state.  Three things are missing.  The first
byte is not looked at, so it need not be a star; a command without arguments is complete with its
name, whatever number of arguments was announced; and the length of a key may have no digit.

Main definitions:

* `Group`, `multiBulk` — an argument with the digits of its length, and a request of arguments;
* `Conforms` — the bytes of a request with its type, count and keys;
* `Slot`, `Slot.Place` — which argument is being read, and its number;
* `Sofar`, `Form` — the invariant, and what it gives at the end;
* `Resumes` — the parser after reads into one mbuf;
* `Plain` — what a request must be to conform.

Main results:

* `Sofar.step`, `Sofar.run` — the invariant is kept by every byte;
* `Sofar.done` — **the form of what is accepted**;
* `multiBulk_unique` — the arguments are determined by the bytes;
* `redisParseReq_conforms_iff` — **an accepted request conforms if and only if it is plain**.
-/

import CacheProxy.RedisEncoding

namespace CacheProxy

open Decimal

/-! ### The form of a request -/

/-- An argument: the digits of its length, and its bytes. -/
structure Group where
  digits : List Byte
  data : List Byte
  deriving DecidableEq, Repr

namespace Group

/-- `$<digits> CR LF <data> CR LF` -/
def encode (g : Group) : List Byte := 36 :: g.digits ++ [CR, LF] ++ g.data ++ [CR, LF]

/-- The digits are digits, and their value is the number of bytes modulo `2 ^ 32`. -/
def Ok (g : Group) : Prop :=
  (∀ d ∈ g.digits, isDigit d = true) ∧ g.data.length = value g.digits % 2 ^ 32

end Group

/-- `<first><digits> CR LF`, and the arguments. -/
def multiBulk (first : Byte) (digits : List Byte) (gs : List Group) : List Byte :=
  first :: digits ++ [CR, LF] ++ gs.flatMap Group.encode

/-- The arguments of a command of type `t` that are keys. -/
def keysOf (t : MsgType) (args : List (List Byte)) : List (List Byte) :=
  match argClass t with
  | some c => c.keys args
  | none => []

/-- **The bytes of a request**, whose type, number of arguments and keys are in `o`: a star, the
digits of the number, exactly that number of arguments, a supported name, a number of arguments
that its class admits, and the keys at the places of the class. -/
def Conforms (bytes : List Byte) (o : ReqOut) : Prop :=
  ∃ digits name args cls, bytes = multiBulk 42 digits (name :: args) ∧
    (∀ d ∈ digits, isDigit d = true) ∧ o.narg = value digits % 2 ^ 32 ∧ 1 ≤ o.narg ∧
    (name :: args).length = o.narg ∧ (∀ g ∈ name :: args, g.Ok ∧ g.digits ≠ []) ∧
    Supported name.data o.type ∧ argClass o.type = some cls ∧ cls.Admits args.length ∧
    o.keys = cls.keys (args.map Group.data)

/-! ### Command names -/

/-- The names of the table have the length under which they stand, those of eleven letters among
the names of ten apart. -/
theorem redisCommands_length : ∀ n < 17, ∀ e ∈ redisCommands n, e.1.length = n ∨
    (n = 10 ∧ e.1.length = 11) := by
  decide +kernel

theorem redisCommands_class : ∀ n < 17, ∀ e ∈ redisCommands n, (argClass e.2).isSome = true := by
  decide +kernel

/-- A type that was found is that of an entry. -/
theorem exists_of_commandType {m : List Byte} {n : ℕ} (h : redisCommandType m n ≠ .unknown) :
    ∃ e ∈ redisCommands n, icmp (str e.1) m = true ∧ e.2 = redisCommandType m n := by
  unfold redisCommandType at h ⊢
  cases hf : (redisCommands n).find? fun e => icmp (str e.1) m with
  | none => simp [hf] at h
  | some e => exact ⟨e, List.mem_of_find?_eq_some hf, by simpa using List.find?_some hf, rfl⟩

/-- **A command whose type is known is supported**, in any letter case. -/
theorem supported_of_type {name : List Byte}
    (h : redisCommandType (name ++ [CR]) name.length ≠ .unknown) :
    Supported name (redisCommandType (name ++ [CR]) name.length) := by
  obtain ⟨⟨s, t⟩, hmem, hcmp, ht⟩ := exists_of_commandType h
  have hn := redisCommands_lt hmem
  have hlow := redisCommands_lower _ hn _ hmem
  rw [icmp_eq_isPrefixOf hlow, List.isPrefixOf_iff_prefix, List.map_append] at hcmp
  have hlen : (str s).length = s.length := by simp [str, String.length_toList]
  rcases redisCommands_length _ hn _ hmem with hl | ⟨h10, h11⟩
  · refine ⟨s, by rw [← ht]; exact hmem, hl, ?_⟩
    have heq := List.prefix_of_prefix_length_le hcmp (List.prefix_append (name.map lower) _)
      (by rw [hlen, hl, List.length_map])
    exact (heq.eq_of_length (by rw [hlen, hl, List.length_map])).symm
  · -- the eleventh byte of the name would be the carriage return
    exfalso
    have heq := hcmp.eq_of_length (by
      rw [hlen, h11, List.length_append, List.length_map, h10]
      rfl)
    have hcr : lower CR ∈ str s := by rw [heq]; simp
    have := hlow _ hcr
    revert this
    decide

/-! ### Places of arguments -/

/-- Which kind of argument is read. -/
inductive Slot where
  | reqType | key | arg1 | arg2 | arg3 | argn
  deriving DecidableEq, Repr

namespace Slot

/-- The state that reads the length. -/
def len : Slot → ReqState
  | reqType => .reqTypeLen | key => .keyLen | arg1 => .arg1Len
  | arg2 => .arg2Len | arg3 => .arg3Len | argn => .argnLen

/-- The state behind the length. -/
def lenLf : Slot → ReqState
  | reqType => .reqTypeLenLf | key => .keyLenLf | arg1 => .arg1LenLf
  | arg2 => .arg2LenLf | arg3 => .arg3LenLf | argn => .argnLenLf

/-- The state that reads the bytes. -/
def data : Slot → ReqState
  | reqType => .reqType | key => .key | arg1 => .arg1
  | arg2 => .arg2 | arg3 => .arg3 | argn => .argn

/-- The state behind the bytes. -/
def lf : Slot → ReqState
  | reqType => .reqTypeLf | key => .keyLf | arg1 => .arg1Lf
  | arg2 => .arg2Lf | arg3 => .arg3Lf | argn => .argnLf

/-- The tests at the end of the argument. -/
def turn (s : Slot) (t : MsgType) (narg rnarg : ℕ) : Turn :=
  match s with
  | reqType => afterReqType t narg
  | key => afterKey t narg rnarg
  | arg1 => afterArg1 t rnarg
  | arg2 => afterArg2 t rnarg
  | arg3 => afterArg3 t rnarg
  | argn => afterArgn t rnarg

/-- **The number of the argument**, the name being number 0, and what is known then of the number
of arguments `narg`. -/
def Place (s : Slot) (t : MsgType) (narg k : ℕ) : Prop :=
  match s with
  | reqType => k = 0
  | key =>
      match argClass t with
      | some .argx => 1 ≤ k
      | some .argkvx => k % 2 = 1 ∧ (1 < k → narg % 2 = 1)
      | some .argeval => k = 3
      | some .argz => False
      | some _ => k = 1
      | none => False
  | arg1 =>
      match argClass t with
      | some .arg1 => k = 2 ∧ narg = 3
      | some .arg2 => k = 2 ∧ narg = 4
      | some .arg3 => k = 2 ∧ narg = 5
      | some .argn => k = 2
      | some .argkvx => k % 2 = 0 ∧ 2 ≤ k ∧ narg % 2 = 1
      | some .argeval => k = 1
      | _ => False
  | arg2 =>
      match argClass t with
      | some .arg2 => k = 3 ∧ narg = 4
      | some .arg3 => k = 3 ∧ narg = 5
      | some .argeval => k = 2
      | _ => False
  | arg3 =>
      match argClass t with
      | some .arg3 => k = 4 ∧ narg = 5
      | _ => False
  | argn =>
      match argClass t with
      | some .argn => 3 ≤ k
      | some .argeval => 4 ≤ k
      | _ => False

end Slot

/-- The classes as tests on the type. -/
theorem argClass_tests (t : MsgType) {c : ArgClass} (h : argClass t = some c) :
    redisArgz t = decide (c = .argz) ∧ redisArg0 t = decide (c = .arg0) ∧
    redisArg1 t = decide (c = .arg1) ∧ redisArg2 t = decide (c = .arg2) ∧
    redisArg3 t = decide (c = .arg3) ∧ redisArgn t = decide (c = .argn) ∧
    redisArgx t = decide (c = .argx) ∧ redisArgkvx t = decide (c = .argkvx) ∧
    redisArgeval t = decide (c = .argeval) := by
  rw [redisArgz_eq, redisArg0_eq, redisArg1_eq, redisArg2_eq, redisArg3_eq, redisArgn_eq,
    redisArgx_eq, redisArgkvx_eq, redisArgeval_eq, h]
  simp only [Option.some.injEq, and_self]

/-- **Where the tests lead**: the next argument has its place. -/
theorem Slot.Place.goto {s : Slot} {t : MsgType} {narg rnarg k : ℕ} {c : ArgClass} {st : ReqState}
    (h : s.Place t narg k) (hc : argClass t = some c) (count : rnarg + (k + 1) = narg)
    (hturn : s.turn t narg rnarg = .goto st) :
    ∃ s' : Slot, st = s'.len ∧ s'.Place t narg (k + 1) := by
  obtain ⟨hz, h0, h1, h2, h3, hn, hx, hkv, he⟩ := argClass_tests t hc
  cases s <;>
    simp only [Slot.turn, afterReqType, afterKey, afterArg1, afterArg2, afterArg3, afterArgn, hz,
      h0, h1,
      h2, h3, hn, hx, hkv, he] at hturn <;>
    simp only [Slot.Place, hc] at h <;> cases c <;> simp at hturn h <;> split_ifs at hturn <;>
    cases hturn
  all_goals first
    | exact ⟨.key, rfl, by simp [Slot.Place, hc]; try omega⟩
    | exact ⟨.arg1, rfl, by simp [Slot.Place, hc]; try omega⟩
    | exact ⟨.arg2, rfl, by simp [Slot.Place, hc]; try omega⟩
    | exact ⟨.arg3, rfl, by simp [Slot.Place, hc]; try omega⟩
    | exact ⟨.argn, rfl, by simp [Slot.Place, hc]; try omega⟩

/-- **Where the tests end**: all arguments were read and the class admits their number, or the
command takes none. -/
theorem Slot.Place.done {s : Slot} {t : MsgType} {narg rnarg k : ℕ} {c : ArgClass}
    (h : s.Place t narg k) (hc : argClass t = some c) (count : rnarg + (k + 1) = narg)
    (hturn : s.turn t narg rnarg = .done) :
    (c = .argz ∧ k = 0) ∨ (c ≠ .argz ∧ rnarg = 0 ∧ c.Admits k) := by
  obtain ⟨hz, h0, h1, h2, h3, hn, hx, hkv, he⟩ := argClass_tests t hc
  cases s <;>
    simp only [Slot.turn, afterReqType, afterKey, afterArg1, afterArg2, afterArg3, afterArgn, hz,
      h0, h1,
      h2, h3, hn, hx, hkv, he] at hturn <;>
    simp only [Slot.Place, hc] at h <;> cases c <;> simp [ArgClass.Admits] at hturn h ⊢ <;>
    first | omega | (split_ifs at hturn)

/-! ### Keys -/

/-- Whether the argument behind `n` others is a key. -/
def ArgClass.keyAt : ArgClass → ℕ → Bool
  | .argz, _ => false
  | .arg0, n | .arg1, n | .arg2, n | .arg3, n | .argn, n => n == 0
  | .argx, _ => true
  | .argkvx, n => n % 2 == 0
  | .argeval, n => n == 2

theorem everyOther_concat {α : Type} (x : α) : ∀ xs : List α,
    everyOther (xs ++ [x]) = everyOther xs ++ if xs.length % 2 = 0 then [x] else []
  | [] => rfl
  | [_] => rfl
  | y :: z :: xs => by
      have hmod : (xs.length + 1 + 1) % 2 = xs.length % 2 := by omega
      simp [everyOther, everyOther_concat x xs, hmod]

/-- One more argument. -/
theorem ArgClass.keys_concat {α : Type} (c : ArgClass) (vs : List α) (v : α) :
    c.keys (vs ++ [v]) = c.keys vs ++ if c.keyAt vs.length then [v] else [] := by
  have hone : (vs ++ [v]).take 1 = vs.take 1 ++ if vs.length = 0 then [v] else [] := by
    cases vs <;> simp
  have hthird : ((vs ++ [v]).drop 2).take 1 =
      (vs.drop 2).take 1 ++ if vs.length = 2 then [v] else [] := by
    match vs with
    | [] => rfl
    | [_] => rfl
    | [_, _] => rfl
    | _ :: _ :: _ :: _ => simp
  cases c <;> simp [ArgClass.keys, ArgClass.keyAt, hone, hthird, everyOther_concat]

/-- **Keys are read where the class has them.** -/
theorem Slot.Place.keyAt {s : Slot} {t : MsgType} {narg k : ℕ} {c : ArgClass}
    (h : s.Place t narg (k + 1)) (hc : argClass t = some c) : c.keyAt k = decide (s = .key) := by
  cases s <;> cases c <;> simp [Slot.Place, hc, ArgClass.keyAt] at h ⊢ <;> omega

/-! ### What has been read -/

/-- The registers behind the arguments `gs`. -/
structure Reading (digits : List Byte) (gs : List Group) (a : ReqScan) : Prop where
  isDigits : ∀ d ∈ digits, isDigit d = true
  ok : ∀ g ∈ gs, g.Ok
  narg : a.narg = value digits % 2 ^ 32
  pos : a.narg ≠ 0
  named : ∀ g, gs.head? = some g → Supported g.data a.type ∧ (argClass a.type).isSome = true
  keys : a.keys = keysOf a.type (gs.tail.map Group.data)

theorem Reading.congr {digits : List Byte} {gs : List Group} {a a' : ReqScan}
    (h : Reading digits gs a) (narg : a'.narg = a.narg) (type : a'.type = a.type)
    (keys : a'.keys = a.keys) : Reading digits gs a' :=
  ⟨h.isDigits, h.ok, narg ▸ h.narg, narg ▸ h.pos, type ▸ h.named, by rw [keys, type, h.keys]⟩

/-- What the registers have of the `n` bytes of an argument of which `v` were read. -/
def Slot.Holds (s : Slot) (a : ReqScan) (v : List Byte) (n : ℕ) : Prop :=
  match s with
  | .reqType | .key => a.tok = v ∧ a.rlen = n ∧ v.length ≤ n
  | .arg2 => v.length + a.rlen = n ∧ a.tok = if redisArgeval a.type then v else []
  | .arg1 | .arg3 | .argn => v.length + a.rlen = n ∧ a.tok = []

/-- **What the bytes read so far look like** in each state. -/
inductive Sofar : List Byte → ReqScan → Prop
  | start : Sofar [] {}
  | narg {first : Byte} {digits : List Byte} {a : ReqScan} (state : a.state = .narg)
      (tok : a.tok = first :: digits) (isDigits : ∀ d ∈ digits, isDigit d = true)
      (rnarg : a.rnarg = value digits % 2 ^ 32) (keys : a.keys = []) :
      Sofar (first :: digits) a
  | nargLf {first : Byte} {digits : List Byte} {a : ReqScan} (state : a.state = .nargLf)
      (tok : a.tok = []) (reading : Reading digits [] a) (count : a.rnarg = a.narg) :
      Sofar (first :: digits ++ [CR]) a
  /-- before a length -/
  | len {first : Byte} {digits : List Byte} {gs : List Group} {a : ReqScan} (s : Slot)
      (state : a.state = s.len) (tok : a.tok = []) (reading : Reading digits gs a)
      (count : a.rnarg + gs.length = a.narg) (place : s.Place a.type a.narg gs.length) :
      Sofar (multiBulk first digits gs) a
  /-- in a length -/
  | lenDigits {first : Byte} {digits ds : List Byte} {gs : List Group} {a : ReqScan} (s : Slot)
      (state : a.state = s.len) (tok : a.tok = 36 :: ds) (isDigits : ∀ d ∈ ds, isDigit d = true)
      (rlen : a.rlen = value ds % 2 ^ 32) (reading : Reading digits gs a)
      (count : a.rnarg + gs.length = a.narg) (place : s.Place a.type a.narg gs.length) :
      Sofar (multiBulk first digits gs ++ 36 :: ds) a
  /-- behind a length -/
  | lenLf {first : Byte} {digits ds : List Byte} {gs : List Group} {a : ReqScan} (s : Slot)
      (state : a.state = s.lenLf) (tok : a.tok = []) (isDigits : ∀ d ∈ ds, isDigit d = true)
      (rlen : a.rlen = value ds % 2 ^ 32) (reading : Reading digits gs a)
      (count : a.rnarg + (gs.length + 1) = a.narg) (place : s.Place a.type a.narg gs.length) :
      Sofar (multiBulk first digits gs ++ 36 :: ds ++ [CR]) a
  /-- in the bytes of an argument -/
  | data {first : Byte} {digits ds v : List Byte} {gs : List Group} {a : ReqScan} (s : Slot)
      (state : a.state = s.data) (isDigits : ∀ d ∈ ds, isDigit d = true)
      (holds : s.Holds a v (value ds % 2 ^ 32)) (reading : Reading digits gs a)
      (count : a.rnarg + (gs.length + 1) = a.narg) (place : s.Place a.type a.narg gs.length) :
      Sofar (multiBulk first digits gs ++ 36 :: ds ++ [CR, LF] ++ v) a
  /-- behind an argument -/
  | lf {first : Byte} {digits : List Byte} {gs : List Group} {g : Group} {a : ReqScan} (s : Slot)
      (state : a.state = s.lf) (tok : a.tok = []) (reading : Reading digits (gs ++ [g]) a)
      (count : a.rnarg + (gs.length + 1) = a.narg) (place : s.Place a.type a.narg gs.length) :
      Sofar (multiBulk first digits gs ++ 36 :: g.digits ++ [CR, LF] ++ g.data ++ [CR]) a

/-! ### One byte -/

namespace ReqScan

variable {size : ℕ} {a a' : ReqScan} {c : Byte} {o : ReqOut}

theorem step_len (s : Slot) (h : a.state = s.len) :
    ∃ bad, a.step size c = a.len c bad s.lenLf := by
  cases s <;> simp only [step, h, Slot.len, Slot.lenLf] <;> exact ⟨_, rfl⟩

theorem step_lenLf (s : Slot) (h : a.state = s.lenLf) :
    a.step size c = a.lf c (.goto s.data) := by
  cases s <;> simp only [step, h, Slot.lenLf, Slot.data]

theorem step_lf (s : Slot) (h : a.state = s.lf) :
    a.step size c = a.lf c (s.turn a.type a.narg a.rnarg) := by
  cases s <;> simp only [step, h, Slot.lf, Slot.turn]

/-- A line feed that goes on. -/
theorem lf_eq_more {turn : Turn} (h : a.lf c turn = .more a') :
    c = LF ∧ ∃ s, turn = .goto s ∧ a' = { a with state := s } := by
  refine ⟨?_, lf_more h⟩
  by_contra hc
  simp [lf, hc] at h

/-- A line feed that ends the request. -/
theorem lf_eq_done {turn : Turn} (h : a.lf c turn = .done o) :
    c = LF ∧ turn = .done ∧ o = a.out := by
  unfold lf at h
  split at h
  · next hc =>
    cases turn with
    | goto | error => cases h
    | done =>
      cases h
      exact ⟨hc, rfl, rfl⟩
  · cases h

/-- A byte of the number of arguments. -/
theorem nargStep_eq_more (h : a.nargStep c = .more a') :
    (a.tok = [] ∧ a' = { a with tok := [c], rnarg := 0, state := .narg }) ∨
    (a.tok ≠ [] ∧ isDigit c = true ∧
      a' = { a with tok := a.tok ++ [c], rnarg := wrap32 (a.rnarg * 10 + digitVal c) }) ∨
    (a.tok ≠ [] ∧ c = CR ∧ a.rnarg ≠ 0 ∧
      a' = { a with narg := a.rnarg, tok := [], state := .nargLf }) := by
  unfold nargStep at h
  split_ifs at h with htok hd hcr hz
  · cases h
    exact .inl ⟨htok, rfl⟩
  · cases h
    exact .inr (.inl ⟨htok, hd, rfl⟩)
  · cases h
    exact .inr (.inr ⟨htok, hcr, hz, rfl⟩)

/-- A byte of a length. -/
theorem len_eq_more {bad : ℕ → Bool} {s : ReqState} (h : a.len c bad s = .more a') :
    (a.tok = [] ∧ c = 36 ∧ a' = { a with tok := [c], rlen := 0 }) ∨
    (a.tok ≠ [] ∧ isDigit c = true ∧
      a' = { a with tok := a.tok ++ [c], rlen := wrap32 (a.rlen * 10 + digitVal c) }) ∨
    (a.tok ≠ [] ∧ c = CR ∧ a.rnarg ≠ 0 ∧
      a' = { a with rnarg := a.rnarg - 1, tok := [], state := s }) := by
  unfold len at h
  split_ifs at h with htok hc hd hcr hz
  · cases h
    exact .inl ⟨htok, by simpa using hc, rfl⟩
  · cases h
    exact .inr (.inl ⟨htok, hd, rfl⟩)
  · cases h
    simp only [Bool.or_eq_true, beq_iff_eq, not_or] at hz
    exact .inr (.inr ⟨htok, hcr, hz.2, rfl⟩)

/-- A byte of a token. -/
theorem token_eq_more {got : List Byte → ReqScan → Next ReqScan ReqOut}
    (h : a.token c got = .more a') :
    (a.tok.length < a.rlen ∧ a' = { a with tok := a.tok ++ [c] }) ∨
    (a.rlen ≤ a.tok.length ∧ c = CR ∧ got a.tok { a with tok := [], rlen := 0 } = .more a') := by
  unfold token at h
  split_ifs at h with hlt hc
  · cases h
    exact .inl ⟨hlt, rfl⟩
  · exact .inr ⟨Nat.not_lt.1 hlt, by simpa using hc, h⟩

/-- A byte that is skipped. -/
theorem skip_eq_more {s : ReqState} (h : a.skip c s = .more a') :
    (0 < a.rlen ∧ a' = { a with rlen := a.rlen - 1 }) ∨
    (a.rlen = 0 ∧ c = CR ∧ a' = { a with state := s }) := by
  unfold skip at h
  split_ifs at h with hlt hc
  · cases h
    exact .inl ⟨hlt, rfl⟩
  · cases h
    exact .inr ⟨by omega, by simpa using hc, rfl⟩

/-- A byte of the second argument. -/
theorem arg2_eq_more (h : a.arg2 c = .more a') :
    (0 < a.rlen ∧ a' = { a with
      tok := if redisArgeval a.type then a.tok ++ [c] else a.tok, rlen := a.rlen - 1 }) ∨
    (a.rlen = 0 ∧ c = CR ∧ a' = { a with
      tok := if redisArgeval a.type then [] else a.tok, state := .arg2Lf }) := by
  unfold arg2 at h
  split_ifs at h with he hlt hc
  · cases h
    exact .inl ⟨hlt, by simp [he]⟩
  · right
    refine ⟨by omega, by simpa using hc, ?_⟩
    rw [gotEvalKeys_more h]
    simp [he]
  · rcases skip_eq_more h with ⟨hlt, rfl⟩ | ⟨hz, hc, rfl⟩
    · exact .inl ⟨hlt, by simp [he]⟩
    · exact .inr ⟨hz, hc, by simp [he]⟩

end ReqScan

theorem value_snoc (ds : List Byte) (c : Byte) :
    value (ds ++ [c]) = value ds * 10 + digitVal c := by
  simp [value, valueFrom_append]

/-- One more digit in a word of 32 bits. -/
theorem wrap32_snoc {r : ℕ} {ds : List Byte} (c : Byte) (h : r = value ds % 2 ^ 32) :
    wrap32 (r * 10 + digitVal c) = value (ds ++ [c]) % 2 ^ 32 := by
  rw [value_snoc, h, wrap32]
  omega

theorem multiBulk_concat (first : Byte) (digits : List Byte) (gs : List Group) (g : Group) :
    multiBulk first digits (gs ++ [g]) =
      multiBulk first digits gs ++ 36 :: g.digits ++ [CR, LF] ++ g.data ++ [CR] ++ [LF] := by
  simp [multiBulk, Group.encode]

theorem keysOf_nil (t : MsgType) : keysOf t [] = [] := by
  unfold keysOf
  split
  · next c _ => cases c <;> rfl
  · rfl

theorem digits_snoc {ds : List Byte} {c : Byte} (h : ∀ d ∈ ds, isDigit d = true)
    (hc : isDigit c = true) : ∀ d ∈ ds ++ [c], isDigit d = true := by
  intro d hd
  rcases List.mem_append.1 hd with hd | hd
  · exact h d hd
  · rw [List.mem_singleton.1 hd]
    exact hc

/-- The registers behind one more group. -/
theorem Reading.next {digits : List Byte} {gs : List Group} {g : Group} {a a' : ReqScan} {s : Slot}
    (h : Reading digits gs a) (hg : g.Ok) (place : s.Place a.type a.narg gs.length)
    (hs : s ≠ .reqType) (narg : a'.narg = a.narg) (type : a'.type = a.type)
    (keys : a'.keys = a.keys ++ if s = .key then [g.data] else []) :
    Reading digits (gs ++ [g]) a' := by
  obtain ⟨x, xs, rfl⟩ : ∃ x xs, gs = x :: xs := by
    cases gs with
    | cons x xs => exact ⟨x, xs, rfl⟩
    | nil => cases s <;> simp_all [Slot.Place] <;> split at place <;> simp_all
  obtain ⟨hsup, hcls⟩ := h.named x rfl
  obtain ⟨c, hc⟩ := Option.isSome_iff_exists.1 hcls
  have hkey := place.keyAt hc
  refine ⟨h.isDigits, ?_, narg ▸ h.narg,
    narg ▸ h.pos, by rw [type]; exact fun g hg => h.named g hg, ?_⟩
  · intro y hy
    rcases List.mem_append.1 hy with hy | hy
    · exact h.ok y hy
    · exact List.mem_singleton.1 hy ▸ hg
  · rw [keys, type, h.keys]
    by_cases hkeyed : s = .key <;> simp [keysOf, hc, ArgClass.keys_concat, hkey, hkeyed]

/-- The registers behind one more group that is no key. -/
theorem Reading.skip {digits : List Byte} {gs : List Group} {g : Group} {a a' : ReqScan} {s : Slot}
    (h : Reading digits gs a) (hg : g.Ok) (place : s.Place a.type a.narg gs.length)
    (hs : s ≠ .reqType ∧ s ≠ .key) (narg : a'.narg = a.narg) (type : a'.type = a.type)
    (keys : a'.keys = a.keys) : Reading digits (gs ++ [g]) a' :=
  h.next hg place hs.1 narg type (by rw [keys, if_neg hs.2, List.append_nil])

/-- The registers behind one more key. -/
theorem Reading.key {digits : List Byte} {gs : List Group} {g : Group} {a a' : ReqScan}
    (h : Reading digits gs a) (hg : g.Ok) (place : Slot.key.Place a.type a.narg gs.length)
    (narg : a'.narg = a.narg) (type : a'.type = a.type) (keys : a'.keys = a.keys ++ [g.data]) :
    Reading digits (gs ++ [g]) a' :=
  h.next hg place nofun narg type (by rw [keys, if_pos rfl])

open ReqScan in
/-- **Every byte keeps the form.** -/
theorem Sofar.step {size : ℕ} {u : List Byte} {a a' : ReqScan} {c : Byte} (h : Sofar u a)
    (hstep : a.step size c = .more a') : Sofar (u ++ [c]) a' := by
  cases h with
  | start =>
    rcases nargStep_eq_more hstep with ⟨-, rfl⟩ | ⟨htok, -⟩ | ⟨htok, -⟩
    · exact .narg rfl rfl (by simp) rfl rfl
    · exact absurd rfl htok
    · exact absurd rfl htok
  | @narg first digits _ state tok isDigits rnarg keys =>
    simp only [ReqScan.step, state] at hstep
    rcases nargStep_eq_more hstep with ⟨htok, -⟩ | ⟨-, hd, rfl⟩ | ⟨-, rfl, hne, rfl⟩
    · simp [tok] at htok
    · exact .narg state (by simp [tok]) (digits_snoc isDigits hd) (wrap32_snoc c rnarg) keys
    · exact .nargLf rfl rfl ⟨isDigits, by simp, rnarg, hne, by simp, by simp [keys, keysOf_nil]⟩ rfl
  | @nargLf first digits _ state tok reading count =>
    simp only [ReqScan.step, state] at hstep
    obtain ⟨rfl, s, hs, rfl⟩ := lf_eq_more hstep
    cases hs
    have hbytes : first :: digits ++ [CR] ++ [LF] = multiBulk first digits [] := by simp [multiBulk]
    rw [hbytes]
    exact .len .reqType rfl tok (reading.congr rfl rfl rfl) (by simpa using count) rfl
  | @len first digits gs _ s state tok reading count place =>
    obtain ⟨bad, heq⟩ := @step_len size _ c s state
    rw [heq] at hstep
    rcases len_eq_more hstep with ⟨-, rfl, rfl⟩ | ⟨htok, -⟩ | ⟨htok, -⟩
    · exact .lenDigits s state rfl (by simp) rfl (reading.congr rfl rfl rfl) count place
    · exact absurd tok htok
    · exact absurd tok htok
  | @lenDigits first digits ds gs _ s state tok isDigits rlen reading count place =>
    obtain ⟨bad, heq⟩ := @step_len size _ c s state
    rw [heq] at hstep
    rcases len_eq_more hstep with ⟨htok, -⟩ | ⟨-, hd, rfl⟩ | ⟨-, rfl, hne, rfl⟩
    · simp [tok] at htok
    · rw [List.append_assoc, List.cons_append]
      exact .lenDigits s state (by simp [tok]) (digits_snoc isDigits hd) (wrap32_snoc c rlen)
        (reading.congr rfl rfl rfl) count place
    · exact .lenLf s rfl rfl isDigits rlen (reading.congr rfl rfl rfl) (by simp; omega) place
  | @lenLf first digits ds gs _ s state tok isDigits rlen reading count place =>
    rw [step_lenLf s state] at hstep
    obtain ⟨rfl, s', hs, rfl⟩ := lf_eq_more hstep
    cases hs
    have hbytes : multiBulk first digits gs ++ 36 :: ds ++ [CR] ++ [LF] =
        multiBulk first digits gs ++ 36 :: ds ++ [CR, LF] ++ [] := by simp
    rw [hbytes]
    refine .data s rfl isDigits ?_ (reading.congr rfl rfl rfl) count place
    cases s <;> simp [Slot.Holds, tok, rlen]
  | @data first digits ds v gs _ s state isDigits holds reading count place =>
    have hbytes : multiBulk first digits gs ++ 36 :: ds ++ [CR, LF] ++ v ++ [c] =
        multiBulk first digits gs ++ 36 :: ds ++ [CR, LF] ++ (v ++ [c]) := by simp
    cases s with
    | reqType =>
      obtain ⟨htok, hrlen, hle⟩ := holds
      simp only [ReqScan.step, state, Slot.data] at hstep
      rcases token_eq_more hstep with ⟨hlt, rfl⟩ | ⟨hge, rfl, hgot⟩
      · rw [hbytes]
        refine .data .reqType state isDigits ⟨by simp [htok], hrlen, ?_⟩ (reading.congr rfl rfl rfl)
          count place
        rw [htok, hrlen] at hlt
        rw [List.length_append, List.length_singleton]
        omega
      · -- the name of the command is complete
        have hv : v.length = value ds % 2 ^ 32 := by rw [htok, hrlen] at hge; omega
        have hgs : gs = [] := List.length_eq_zero_iff.1 place
        subst hgs
        rw [htok] at hgot
        unfold gotReqType at hgot
        dsimp only at hgot
        split at hgot
        · cases hgot
        · next hne =>
          cases hgot
          have hsup := supported_of_type hne
          obtain ⟨e, hmem, -, he⟩ := exists_of_commandType hne
          refine .lf (g := ⟨ds, v⟩) .reqType rfl rfl
            ⟨reading.isDigits, ?_, reading.narg, reading.pos, ?_, ?_⟩
            count rfl
          · intro g hg
            rw [List.mem_singleton.1 hg]
            exact ⟨isDigits, hv⟩
          · intro g hg
            cases hg
            refine ⟨hsup, ?_⟩
            rw [← he]
            exact redisCommands_class _ (redisCommands_lt hmem) e hmem
          · rw [reading.keys]
            simp [keysOf_nil]
    | key =>
      obtain ⟨htok, hrlen, hle⟩ := holds
      simp only [ReqScan.step, state, Slot.data] at hstep
      rcases token_eq_more hstep with ⟨hlt, rfl⟩ | ⟨hge, rfl, hgot⟩
      · rw [hbytes]
        refine .data .key state isDigits ⟨by simp [htok], hrlen, ?_⟩ (reading.congr rfl rfl rfl)
          count place
        rw [htok, hrlen] at hlt
        rw [List.length_append, List.length_singleton]
        omega
      · have hv : v.length = value ds % 2 ^ 32 := by rw [htok, hrlen] at hge; omega
        cases hgot
        exact .lf (g := ⟨ds, v⟩) .key rfl rfl
          (reading.key ⟨isDigits, hv⟩ place rfl rfl (by simp [htok])) count place
    | arg2 =>
      obtain ⟨hlen, htok⟩ := holds
      simp only [ReqScan.step, state, Slot.data] at hstep
      rcases arg2_eq_more hstep with ⟨hlt, rfl⟩ | ⟨hz, rfl, rfl⟩
      · rw [hbytes]
        refine .data .arg2 state isDigits ⟨by simp; omega, ?_⟩
          (reading.congr rfl rfl rfl) count place
        dsimp only
        split <;> simp_all
      · refine .lf (g := ⟨ds, v⟩) .arg2 rfl ?_
          (reading.skip ⟨isDigits, by simp; omega⟩ place (by decide) rfl rfl rfl) count place
        dsimp only
        split <;> simp_all
    | arg1 | arg3 | argn =>
      obtain ⟨hlen, htok⟩ := holds
      simp only [ReqScan.step, state, Slot.data] at hstep
      rcases skip_eq_more hstep with ⟨hlt, rfl⟩ | ⟨hz, rfl, rfl⟩
      · rw [hbytes]
        exact .data _ state isDigits ⟨by simp; omega, htok⟩ (reading.congr rfl rfl rfl) count place
      · exact .lf (g := ⟨ds, v⟩) _ rfl htok
          (reading.skip ⟨isDigits, by simp; omega⟩ place (by decide) rfl rfl rfl) count place
  | @lf first digits gs g _ s state tok reading count place =>
    rw [step_lf s state] at hstep
    obtain ⟨rfl, st, hturn, rfl⟩ := lf_eq_more hstep
    obtain ⟨k, hk⟩ : ∃ x, (gs ++ [g]).head? = some x := by cases gs <;> simp
    obtain ⟨cls, hc⟩ := Option.isSome_iff_exists.1 (reading.named _ hk).2
    obtain ⟨s', rfl, place'⟩ := place.goto hc count hturn
    rw [← multiBulk_concat]
    exact .len s' rfl tok (reading.congr rfl rfl rfl) (by simpa using count) (by simpa using place')

/-! ### The end of a request -/

/-- **What the parser accepts**: any first byte, and a command without arguments with any number of
them announced. -/
def Form (bytes : List Byte) (o : ReqOut) : Prop :=
  ∃ first digits name args cls, bytes = multiBulk first digits (name :: args) ∧
    (∀ d ∈ digits, isDigit d = true) ∧ o.narg = value digits % 2 ^ 32 ∧ 1 ≤ o.narg ∧
    (∀ g ∈ name :: args, g.Ok) ∧ Supported name.data o.type ∧ argClass o.type = some cls ∧
    o.keys = cls.keys (args.map Group.data) ∧
    ((cls = .argz ∧ args = []) ∨
      (cls ≠ .argz ∧ (name :: args).length = o.narg ∧ cls.Admits args.length))

namespace ReqScan

variable {size : ℕ} {a : ReqScan} {c : Byte} {o : ReqOut}

theorem nargStep_ne_done : a.nargStep c ≠ .done o := by
  unfold nargStep
  split_ifs <;> simp

theorem len_ne_done {bad : ℕ → Bool} {s : ReqState} : a.len c bad s ≠ .done o := by
  unfold len
  split_ifs <;> simp

theorem skip_ne_done {s : ReqState} : a.skip c s ≠ .done o := by
  unfold skip
  split_ifs <;> simp

theorem arg2_ne_done : a.arg2 c ≠ .done o := by
  unfold arg2 gotEvalKeys
  split_ifs
  · simp
  · simp
  · simp
  · split
    · simp
    · split_ifs <;> simp
  · exact skip_ne_done

theorem token_ne_done {got : List Byte → ReqScan → Next ReqScan ReqOut}
    (hgot : ∀ t x, got t x ≠ .done o) : a.token c got ≠ .done o := by
  unfold token
  split_ifs
  · simp
  · simp
  · exact hgot _ _

theorem gotReqType_ne_done (t : List Byte) (x : ReqScan) : gotReqType t x ≠ .done o := by
  unfold gotReqType
  dsimp only
  split_ifs <;> simp

end ReqScan

open ReqScan in
/-- **The form of what is accepted.** -/
theorem Sofar.done {size : ℕ} {u : List Byte} {a : ReqScan} {c : Byte} {o : ReqOut} (h : Sofar u a)
    (hstep : a.step size c = .done o) : Form (u ++ [c]) o := by
  cases h with
  | start => exact absurd hstep nargStep_ne_done
  | narg state =>
    simp only [ReqScan.step, state] at hstep
    exact absurd hstep nargStep_ne_done
  | nargLf state =>
    simp only [ReqScan.step, state] at hstep
    exact absurd (lf_eq_done hstep).2.1 (by simp)
  | len s state | lenDigits s state =>
    obtain ⟨bad, heq⟩ := @step_len size _ c s state
    rw [heq] at hstep
    exact absurd hstep len_ne_done
  | lenLf s state =>
    rw [step_lenLf s state] at hstep
    exact absurd (lf_eq_done hstep).2.1 (by simp)
  | data s state =>
    cases s <;> simp only [ReqScan.step, state, Slot.data] at hstep
    case reqType => exact absurd hstep (token_ne_done gotReqType_ne_done)
    case key => exact absurd hstep (token_ne_done fun _ _ => by simp [gotKey])
    case arg2 => exact absurd hstep arg2_ne_done
    all_goals exact absurd hstep skip_ne_done
  | @lf first digits gs g _ s state tok reading count place =>
    rw [step_lf s state] at hstep
    obtain ⟨rfl, hturn, rfl⟩ := lf_eq_done hstep
    obtain ⟨name, args, hgs⟩ : ∃ name args, gs ++ [g] = name :: args := by
      cases gs with
      | nil => exact ⟨g, [], rfl⟩
      | cons x xs => exact ⟨x, xs ++ [g], rfl⟩
    have hlen : gs.length = args.length := by simpa using congrArg List.length hgs
    rw [hgs] at reading
    obtain ⟨hsup, hcls⟩ := reading.named name rfl
    obtain ⟨cls, hc⟩ := Option.isSome_iff_exists.1 hcls
    refine ⟨first, digits, name, args, cls, ?_, reading.isDigits, reading.narg,
      Nat.pos_of_ne_zero reading.pos, reading.ok, hsup, hc, ?_, ?_⟩
    · rw [← multiBulk_concat, hgs]
    · rw [ReqScan.out, reading.keys]
      simp [keysOf, hc]
    · rcases place.done hc count hturn with ⟨hz, hk⟩ | ⟨hz, hr, had⟩
      · exact .inl ⟨hz, List.length_eq_zero_iff.1 (hlen ▸ hk)⟩
      · refine .inr ⟨hz, ?_, hlen ▸ had⟩
        change args.length + 1 = _
        simp only [ReqScan.out]
        omega

/-- **Every run keeps the form.** -/
theorem Sofar.run {size : ℕ} (bs : List Byte) : ∀ {u : List Byte} {a a' : ReqScan}, Sofar u a →
    (reqMachine size).run a bs = .more a' → Sofar (u ++ bs) a' := by
  induction bs with
  | nil =>
    intro u a a' h hrun
    cases hrun
    simpa using h
  | cons c bs ih =>
    intro u a a' h hrun
    rw [ByteMachine.run_cons] at hrun
    cases hs : (reqMachine size).step a c with
    | more =>
      rw [hs] at hrun
      simpa using ih (h.step hs) hrun
    | done =>
      rw [hs] at hrun
      cases hrun
    | fail =>
      rw [hs] at hrun
      cases hrun

theorem Sofar.run_done {size : ℕ} (bs : List Byte) {rest : List Byte} {o : ReqOut} :
    ∀ {u : List Byte} {a : ReqScan}, Sofar u a → (reqMachine size).run a bs = .done o rest →
      ∃ used, bs = used ++ rest ∧ Form (u ++ used) o := by
  induction bs with
  | nil =>
    intro u a _ hrun
    cases hrun
  | cons c bs ih =>
    intro u a h hrun
    rw [ByteMachine.run_cons] at hrun
    cases hs : (reqMachine size).step a c with
    | more =>
      rw [hs] at hrun
      obtain ⟨used, rfl, hform⟩ := ih (h.step hs) hrun
      exact ⟨c :: used, rfl, by simpa using hform⟩
    | done =>
      rw [hs] at hrun
      cases hrun
      exact ⟨[c], rfl, h.done hs⟩
    | fail =>
      rw [hs] at hrun
      cases hrun

/-! ### Decoding -/

/-- The digits of a number end at the carriage return. -/
theorem digits_unique {xs ys u v : List Byte} (hx : ∀ d ∈ xs, isDigit d = true)
    (hy : ∀ d ∈ ys, isDigit d = true) (h : xs ++ CR :: u = ys ++ CR :: v) : xs = ys ∧ u = v := by
  induction xs generalizing ys with
  | nil =>
    cases ys with
    | nil => exact ⟨rfl, (List.cons.inj h).2⟩
    | cons y =>
      have hcr := hy y (by simp)
      rw [← (List.cons.inj h).1] at hcr
      exact absurd hcr (by decide)
  | cons x xs ih =>
    cases ys with
    | nil =>
      have hcr := hx x (by simp)
      rw [(List.cons.inj h).1] at hcr
      exact absurd hcr (by decide)
    | cons =>
      obtain ⟨rfl, htail⟩ := List.cons.inj h
      obtain ⟨rfl, rfl⟩ := ih (fun d hd => hx d (by simp [hd]))
        (fun d hd => hy d (by simp [hd])) htail
      exact ⟨rfl, rfl⟩

theorem Group.encode_unique {g g' : Group} {u v : List Byte} (hg : g.Ok) (hg' : g'.Ok)
    (h : g.encode ++ u = g'.encode ++ v) : g = g' ∧ u = v := by
  obtain ⟨ds, data⟩ := g
  obtain ⟨ds', data'⟩ := g'
  simp only [Group.encode, List.cons_append, List.append_assoc, List.cons.injEq, true_and,
    List.nil_append] at h
  obtain ⟨rfl, htail⟩ := digits_unique hg.1 hg'.1 h
  have hlen : data.length = data'.length := hg.2.trans hg'.2.symm
  obtain ⟨rfl, hrest⟩ := List.append_inj (List.cons.inj htail).2 hlen
  exact ⟨rfl, (List.cons.inj (List.cons.inj hrest).2).2⟩

theorem encodes_unique {u v : List Byte} : ∀ {gs gs' : List Group}, (∀ g ∈ gs, g.Ok) →
    (∀ g ∈ gs', g.Ok) → gs.length ≤ gs'.length →
    gs.flatMap Group.encode ++ u = gs'.flatMap Group.encode ++ v → gs <+: gs'
  | [], gs', _, _, _, _ => List.nil_prefix
  | g :: gs, [], _, _, hle, _ => by simp at hle
  | g :: gs, g' :: gs', hg, hg', hle, h => by
      rw [List.flatMap_cons, List.flatMap_cons, List.append_assoc, List.append_assoc] at h
      obtain ⟨rfl, htail⟩ := Group.encode_unique (hg g (by simp)) (hg' g' (by simp)) h
      have ih := encodes_unique (fun x hx => hg x (by simp [hx])) (fun x hx => hg' x (by simp [hx]))
        (by simpa using hle) htail
      exact List.cons_prefix_cons.2 ⟨rfl, ih⟩

/-- **The arguments are determined by the bytes.** -/
theorem multiBulk_unique {first first' : Byte} {digits digits' u v : List Byte}
    {gs gs' : List Group}
    (hd : ∀ d ∈ digits, isDigit d = true) (hd' : ∀ d ∈ digits', isDigit d = true)
    (hg : ∀ g ∈ gs, g.Ok) (hg' : ∀ g ∈ gs', g.Ok) (hle : gs.length ≤ gs'.length)
    (h : multiBulk first digits gs ++ u = multiBulk first' digits' gs' ++ v) :
    first = first' ∧ digits = digits' ∧ gs <+: gs' := by
  simp only [multiBulk, List.cons_append, List.append_assoc, List.cons.injEq, List.nil_append] at h
  obtain ⟨rfl, htail⟩ := digits_unique hd hd' h.2
  exact ⟨h.1, rfl, encodes_unique hg hg' hle (List.cons.inj htail).2⟩

/-! ### The parser -/

/-- **The parser in one mbuf**: the buffer, the parse position and the registers before a call of
`redis_parse_req`, when the bytes came in any number of reads. -/
inductive Resumes (size : ℕ) : Mbuf → ℕ → ReqRegs → Prop
  | start (id : ℕ) (bs : List Byte) : Resumes size (mbufCopy (mbufGet id) bs) 0 redisParseReq.init
  | again {b : Mbuf} {p p' : ℕ} {r r' : ReqRegs} (bs : List Byte) (before : Resumes size b p r)
      (call : redisParseReq.parse size b p r = (.again, p', r')) :
      Resumes size (mbufCopy b bs) p' r'

theorem Resumes.sofar {size : ℕ} {b : Mbuf} {p : ℕ} {r : ReqRegs} (h : Resumes size b p r) :
    b.gone = [] ∧ p ≤ b.data.length ∧ ∃ a, ReqRelAt [] b p a r ∧ Sofar (b.data.take p) a := by
  induction h with
  | start id bs =>
    exact ⟨rfl, Nat.zero_le _, {}, reqRel_iff.1 ((redisParseReq_sim size).start _), .start⟩
  | @again b p p' r r' bs before call ih =>
    obtain ⟨hgone, hp, a, hrel, hsofar⟩ := ih
    have hsim := redisParseReq_sim size
    cases hrun : (reqMachine size).run a (b.data.drop p) with
    | done =>
      obtain ⟨_, hparse, -⟩ := redisParseReq_done hgone hrel hp hrun
      rw [hparse] at call
      cases call
    | fail =>
      have hfail := hsim.parse_fail hgone (reqRel_iff.2 hrel) hp hrun
      rw [call] at hfail
      cases hfail
    | more a' =>
      obtain ⟨r₁, hrel', hparse⟩ := redisParseReq_end hrel hp hrun
      rw [hparse] at call
      split at call
      · cases call
      cases call
      have hgrow := reqRel_iff.1 (hsim.grow bs (reqRel_iff.2 hrel') (Nat.le_refl _))
      refine ⟨hgone, by simp, a', hgrow, ?_⟩
      simpa using hsofar.run _ hrun

/-- **What an accepted request looks like.** -/
theorem Resumes.form {size : ℕ} {b : Mbuf} {p n : ℕ} {r r' : ReqRegs} (h : Resumes size b p r)
    (ok : redisParseReq.parse size b p r = (.ok, n, r')) :
    ∃ o, Form (b.data.take n) o ∧ ReqOutRel [b.truncate n] o r' := by
  obtain ⟨hgone, hp, a, hrel, hsofar⟩ := h.sofar
  cases hrun : (reqMachine size).run a (b.data.drop p) with
  | done o rest =>
    obtain ⟨r₁, hparse, hout⟩ := redisParseReq_done hgone hrel hp hrun
    rw [hparse] at ok
    cases ok
    obtain ⟨used, hused, hform⟩ := hsofar.run_done _ hrun
    refine ⟨o, ?_, hout⟩
    have hdata : b.data = (b.data.take p ++ used) ++ rest := by
      rw [List.append_assoc, ← hused, List.take_append_drop]
    generalize b.data.take p ++ used = bytes at hdata hform
    rw [hdata]
    simpa using hform
  | fail =>
    have hfail := (redisParseReq_sim size).parse_fail hgone (reqRel_iff.2 hrel) hp hrun
    rw [ok] at hfail
    cases hfail
  | more =>
    obtain ⟨r₁, -, hparse⟩ := redisParseReq_end hrel hp hrun
    rw [hparse] at ok
    split at ok <;> cases ok

/-! ### Which requests conform -/

/-- **Requests that leave nothing over**: the bytes begin with a star, `PING` and `QUIT` announce
one argument, and every length has a digit. -/
structure Plain (bytes : List Byte) : Prop where
  star : bytes.head? = some 42
  announced : ∀ first digits g rest, bytes = multiBulk first digits [g] ++ rest →
    (∀ d ∈ digits, isDigit d = true) → g.Ok → g.data.map lower ∈ [str "ping", str "quit"] →
    value digits % 2 ^ 32 = 1
  lengths : ∀ first digits gs g rest, bytes = multiBulk first digits (gs ++ [g]) ++ rest →
    (∀ d ∈ digits, isDigit d = true) → (∀ x ∈ gs ++ [g], x.Ok) →
    gs.length < value digits % 2 ^ 32 → g.digits ≠ []

theorem redisCommands_argz : ∀ n < 17, ∀ e ∈ redisCommands n,
    (redisArgz e.2 = true ↔ str e.1 = str "ping" ∨ str e.1 = str "quit") := by
  decide +kernel

/-- The commands without arguments. -/
theorem Supported.argz_iff {name : List Byte} {t : MsgType} (h : Supported name t) :
    argClass t = some .argz ↔ name.map lower ∈ [str "ping", str "quit"] := by
  obtain ⟨s, hmem, -, hs⟩ := h
  have hz := redisCommands_argz _ (redisCommands_lt hmem) _ hmem
  rw [redisArgz_eq, decide_eq_true_eq] at hz
  rw [hz, hs]
  simp

/-- A form that is plain conforms. -/
theorem Form.conforms {bytes rest : List Byte} {o : ReqOut} (h : Form bytes o)
    (plain : Plain (bytes ++ rest)) : Conforms bytes o := by
  obtain ⟨first, digits, name, args, cls, rfl, hd, hnarg, hpos, hok, hsup, hcls, hkeys, hend⟩ := h
  have hfirst : first = 42 := by simpa [multiBulk] using plain.star
  have hlen : (name :: args).length = o.narg ∧ cls.Admits args.length := by
    rcases hend with ⟨rfl, rfl⟩ | ⟨-, hlen, had⟩
    · refine ⟨?_, rfl⟩
      have := plain.announced first digits name rest rfl hd (hok name (by simp))
        (hsup.argz_iff.1 hcls)
      rw [hnarg, this]
      rfl
    · exact ⟨hlen, had⟩
  refine ⟨digits, name, args,
    cls, by rw [hfirst], hd, hnarg, hpos, hlen.1, ?_, hsup, hcls, hlen.2, hkeys⟩
  intro g hg
  refine ⟨hok g hg, ?_⟩
  obtain ⟨gs, gs', hgs⟩ := List.append_of_mem hg
  refine plain.lengths first digits gs g (gs'.flatMap Group.encode ++ rest) ?_ hd ?_ ?_
  · rw [hgs]
    simp [multiBulk]
  · intro x hx
    refine hok x ?_
    rw [hgs]
    rcases List.mem_append.1 hx with hx | hx
    · simp [hx]
    · simp [List.mem_singleton.1 hx]
  · have := congrArg List.length hgs
    rw [List.length_append, hlen.1, hnarg] at this
    rw [this, List.length_cons]
    omega

/-- What conforms is plain. -/
theorem Conforms.plain {bytes : List Byte} {o : ReqOut} (h : Conforms bytes o) (rest : List Byte) :
    Plain (bytes ++ rest) := by
  obtain ⟨digits, name, args, cls, rfl, hd, hnarg, hpos, hlen, hok, hsup, hcls, had, hkeys⟩ := h
  refine ⟨rfl, ?_, ?_⟩
  · intro first digits' g rest' heq hd' hg hname
    obtain ⟨-, rfl, hpre⟩ := multiBulk_unique hd' hd (by simpa using hg) (fun g hg => (hok g hg).1)
      (by simp) heq.symm
    obtain rfl : g = name := by simpa using hpre
    cases hcls.symm.trans (hsup.argz_iff.2 hname)
    obtain rfl : args = [] := List.length_eq_zero_iff.1 had
    rw [← hnarg, ← hlen]
    rfl
  · intro first digits' gs g rest' heq hd' hgs hlt
    have heads := multiBulk_unique hd' hd (by simp) (fun g hg => (hok g hg).1) (Nat.zero_le _)
      (by simpa [multiBulk] using heq.symm :
        multiBulk first digits' [] ++ ((gs ++ [g]).flatMap Group.encode ++ rest') =
          multiBulk 42 digits (name :: args) ++ rest)
    obtain ⟨-, rfl, -⟩ := heads
    obtain ⟨-, -, hpre⟩ := multiBulk_unique hd hd hgs (fun g hg => (hok g hg).1)
      (by rw [hlen, hnarg, List.length_append]; exact hlt) heq.symm
    exact (hok g (hpre.subset (by simp))).2

/-- **An accepted request conforms if and only if it is plain**: for all bytes in one mbuf, in any
number of reads, when `redis_parse_req` reports a request of `n` bytes. -/
theorem redisParseReq_conforms_iff {size : ℕ} {b : Mbuf} {p n : ℕ} {r r' : ReqRegs}
    (before : Resumes size b p r) (ok : redisParseReq.parse size b p r = (.ok, n, r')) :
    (∃ o, ReqOutRel [b.truncate n] o r' ∧ Conforms (b.data.take n) o) ↔ Plain b.data := by
  obtain ⟨o, hform, hout⟩ := before.form ok
  have hdata : b.data = b.data.take n ++ b.data.drop n := (List.take_append_drop n _).symm
  constructor
  · rintro ⟨o', -, hconf⟩
    rw [hdata]
    exact hconf.plain _
  · intro hplain
    rw [hdata] at hplain
    exact ⟨o, hout, hform.conforms hplain⟩

/-- `PING` with an argument. -/
def pingArgument : Mbuf :=
  mbufCopy (mbufGet 0) (multiBulk 42 (str "2") [⟨str "4", str "PING"⟩, ⟨str "1", str "x"⟩])

/-- **`PING` leaves its argument over**, and the next request begins there. -/
theorem not_conforms_pingArgument :
    (redisParseReq.parse 464 pingArgument 0 redisParseReq.init).1 = .ok ∧
      (redisParseReq.parse 464 pingArgument 0 redisParseReq.init).2.1 = 14 ∧
      pingArgument.data.drop 14 = Group.encode ⟨str "1", str "x"⟩ ∧
      ∀ o, ¬ Conforms (pingArgument.data.take 14) o := by
  refine ⟨by decide +kernel, by decide +kernel, by decide +kernel, fun o hconf => ?_⟩
  have hplain := hconf.plain []
  have hone := hplain.announced 42 (str "2") ⟨str "4", str "PING"⟩ [] (by decide +kernel)
    (by decide +kernel) ⟨by decide +kernel, by decide +kernel⟩ (by decide +kernel)
  exact absurd hone (by decide +kernel)

/-- `GET k` -/
def getKey : Mbuf :=
  mbufCopy (mbufGet 0) (multiBulk 42 (str "2") [⟨str "3", str "GET"⟩, ⟨str "1", str "k"⟩])

theorem conforms_getKey : Conforms getKey.data ⟨.reqRedisGet, 2, [str "k"], false, false⟩ := by
  refine ⟨str "2", ⟨str "3", str "GET"⟩, [⟨str "1", str "k"⟩], .arg0, rfl, by decide +kernel,
    by decide +kernel, by decide, rfl, ?_, ⟨"get", by decide +kernel, rfl, by decide +kernel⟩,
    by decide +kernel, rfl, rfl⟩
  intro g hg
  rcases List.mem_pair.1 hg with rfl | rfl
  · exact ⟨⟨by decide +kernel, by decide +kernel⟩, by decide +kernel⟩
  · exact ⟨⟨by decide +kernel, by decide +kernel⟩, by decide +kernel⟩

theorem redisParseReq_conforms_getKey :
    ∃ r', redisParseReq.parse 464 getKey 0 redisParseReq.init = (.ok, 20, r') ∧
      ∃ o, ReqOutRel [getKey.truncate 20] o r' ∧ Conforms (getKey.data.take 20) o := by
  have hok : redisParseReq.parse 464 getKey 0 redisParseReq.init =
      (.ok, 20, (redisParseReq.parse 464 getKey 0 redisParseReq.init).2.2) := by decide +kernel
  have hplain : Plain getKey.data := by simpa using conforms_getKey.plain []
  exact ⟨_, hok, (redisParseReq_conforms_iff (.start 0 _) hok).2 hplain⟩

end CacheProxy
