/-
**The lines of `servers:`.**

`conf_add_server` reads `host:port:weight [name]` from the right: a name behind the last space, then
what is behind the last colon and behind the one before it.  The numbers are read by `_nc_atoi`,
which sums in a signed 32-bit integer without a bound.

The reading is exact but for four kinds of lines: a space at the end gives an empty name; with a
name behind it the host may hold spaces; the host may be empty; and a number that is too large is
taken modulo `2 ^ 32`.

Main definitions:

* `ncStrrchr`, `ncAtoi`, `splitServer`, `confAddServer` — the functions of the source;
* `serverLine` — the text that the pieces are written as;
* `Split` — the pieces at the last space and the last two colons;
* `ExactLine` — the lines that should be accepted, with what should be read.

Main results:

* `splitServer_iff` — the loop finds the pieces;
* `confAddServer_iff` — what is accepted, and what is read;
* `confAddServer_exact` — **lines are read exactly unless they are of one of the four kinds**;
* `confAddServer_loose` — a line of each kind.
-/

import CacheProxy.RedisEncoding

namespace CacheProxy

open Decimal

/-! ### The functions -/

/-- `nc_strrchr`: the bytes before the last `c`, and those behind it. -/
def ncStrrchr (c : Byte) : List Byte → Option (List Byte × List Byte)
  | [] => none
  | b :: bs =>
      match ncStrrchr c bs with
      | some (before, behind) => some (b :: before, behind)
      | none => if b = c then some ([], bs) else none

/-- The loop of `_nc_atoi`: a signed 32-bit sum that wraps, and `-1` if it ends negative. -/
def ncAtoiFrom (v : ℕ) : List Byte → ℤ
  | [] => if 2 ^ 31 ≤ v then -1 else v
  | c :: cs => if isDigit c then ncAtoiFrom ((v * 10 + digitVal c) % 2 ^ 32) cs else -1

/-- `_nc_atoi`. -/
def ncAtoi (line : List Byte) : ℤ := if line = [] then -1 else ncAtoiFrom 0 line

/-- `nc_valid_port`. -/
def ncValidPort (n : ℤ) : Bool := decide (1 ≤ n ∧ n ≤ 65535)

/-- What the loop of `conf_add_server` has found, and the bytes up to `p`. -/
structure Found where
  name : Option (List Byte) := none
  weight : List Byte := []
  port : List Byte := []
  rest : List Byte
  deriving DecidableEq, Repr

/-- The switch of `conf_add_server`; there is no case for the terminator. -/
def Found.take (f : Found) (k : ℕ) (piece rest : List Byte) : Found :=
  match k with
  | 0 => { f with name := some piece, rest := rest }
  | 1 => { f with weight := piece, rest := rest }
  | 2 => { f with port := piece, rest := rest }
  | _ => { f with rest := rest }

/-- The loop over the delimiters from the `k`-th on, with the value of `k` at its end.  Only the
name may be missing. -/
def splitServer (k : ℕ) (f : Found) : List Byte → ℕ × Found
  | [] => (k, f)
  | c :: cs =>
      match ncStrrchr c f.rest with
      | none => if k = 0 then splitServer (k + 1) f cs else (k, f)
      | some (before, behind) => splitServer (k + 1) (f.take k behind before) cs

/-- `delim`, with its terminator. -/
def serverDelim : List Byte := [32, 58, 58, 0]

inductive ServerLineError where
  | format
  | weight
  | zeroWeight
  | port
  deriving DecidableEq, Repr

def ServerLineError.text : ServerLineError → String
  | .format => "has an invalid \"hostname:port:weight [name]\"or \"/path/unix_socket:weight [name]\" format string"
  | .weight => "has an invalid weight in \"hostname:port:weight [name]\" format string"
  | .zeroWeight => "has a zero weight in \"hostname:port:weight [name]\" format string"
  | .port => "has an invalid port in \"hostname:port:weight [name]\" format string"

/-- `conf_server`, as a line fills it. -/
structure ServerField where
  pname : List Byte
  name : List Byte
  addrstr : List Byte
  port : ℤ
  weight : ℤ
  deriving DecidableEq, Repr

/-- `CONF_DEFAULT_KETAMA_PORT`. -/
def confDefaultKetamaPort : ℤ := 11211

/-- **`conf_add_server`**, when no allocation fails. -/
def confAddServer (value : List Byte) : Except ServerLineError ServerField :=
  let delimlen := if value.head? = some 47 then 2 else 3
  let split := splitServer 0 { rest := value } serverDelim
  let f := split.2
  if split.1 ≠ delimlen then .error .format
  else
    let namelen := (f.name.getD []).length
    let pname := if 0 < namelen then value.take (value.length - (namelen + 1)) else value
    let weight := ncAtoi f.weight
    if weight < 0 then .error .weight
    else if weight = 0 then .error .zeroWeight
    else
      let port := if value.head? = some 47 then 0 else ncAtoi f.port
      if value.head? ≠ some 47 ∧ (port < 0 ∨ ncValidPort port = false) then .error .port
      else
        let name := f.name.getD
          (if port = confDefaultKetamaPort then f.rest else value.take
            (f.rest.length + 1 + f.port.length))
        .ok { pname := pname, name := name, addrstr := f.rest, port := port, weight := weight }

/-! ### The last delimiter -/

section Strrchr

variable {c : Byte} {bs before behind : List Byte}

theorem ncStrrchr_eq_none_iff : ncStrrchr c bs = none ↔ c ∉ bs := by
  induction bs with
  | nil => simp [ncStrrchr]
  | cons b bs ih =>
    rw [ncStrrchr]
    cases hrest : ncStrrchr c bs with
    | none =>
      have hbs := ih.mp hrest
      by_cases hb : b = c
      · simp [hb]
      · simp [hb, hbs, Ne.symm hb]
    | some =>
      have hbs : c ∈ bs := by
        by_contra hno
        rw [ih.mpr hno] at hrest
        cases hrest
      simp [hbs]

theorem ncStrrchr_append (h : c ∉ behind) :
    ncStrrchr c (before ++ c :: behind) = some (before, behind) := by
  induction before with
  | nil => rw [List.nil_append, ncStrrchr, ncStrrchr_eq_none_iff.mpr h, if_pos rfl]
  | cons b before ih => rw [List.cons_append, ncStrrchr, ih]

theorem ncStrrchr_eq_some_iff :
    ncStrrchr c bs = some (before, behind) ↔ bs = before ++ c :: behind ∧ c ∉ behind := by
  constructor
  · intro h
    induction bs generalizing before with
    | nil => cases h
    | cons b bs ih =>
      rw [ncStrrchr] at h
      cases hrest : ncStrrchr c bs with
      | none =>
        rw [hrest] at h
        dsimp only at h
        split at h
        · next hb =>
          cases h
          exact ⟨by rw [hb]; rfl, ncStrrchr_eq_none_iff.mp hrest⟩
        · cases h
      | some =>
        rw [hrest] at h
        cases h
        obtain ⟨rfl, hno⟩ := ih hrest
        exact ⟨rfl, hno⟩
  · rintro ⟨rfl, hno⟩
    exact ncStrrchr_append hno

end Strrchr

/-! ### Numbers -/

/-- A non-empty string of digits. -/
def IsNumber (ds : List Byte) : Prop := ds ≠ [] ∧ ∀ d ∈ ds, isDigit d = true

theorem ncAtoiFrom_eq (ds : List Byte) : ∀ v : ℕ, (∀ d ∈ ds, isDigit d = true) →
    ncAtoiFrom v ds = if 2 ^ 31 ≤ valueModFrom
      (2 ^ 32) v ds then -1 else (valueModFrom (2 ^ 32) v ds : ℤ) := by
  induction ds with
  | nil =>
    intro v _
    rfl
  | cons d ds ih =>
    intro v h
    rw [ncAtoiFrom, if_pos (h d List.mem_cons_self), ih _ fun e he =>
      h e (List.mem_cons_of_mem _ he)]
    rfl

theorem ncAtoiFrom_of_not_digit (ds : List Byte) : ∀ v : ℕ, (¬∀ d ∈ ds, isDigit d = true) →
    ncAtoiFrom v ds = -1 := by
  induction ds with
  | nil =>
    intro v h
    exact absurd (by simp) h
  | cons d ds ih =>
    intro v h
    rw [ncAtoiFrom]
    split
    · next hd =>
      refine ih _ fun hds => h fun e he => ?_
      rcases List.mem_cons.1 he with rfl | he
      · exact hd
      · exact hds e he
    · rfl

/-- **A number is accepted** with its value in 32 bits. -/
theorem ncAtoi_eq_iff {ds : List Byte} {n : ℕ} (hn : 0 < n) :
    ncAtoi ds = n ↔ IsNumber ds ∧ value ds % 2 ^ 32 = n ∧ n < 2 ^ 31 := by
  unfold ncAtoi
  by_cases hnil : ds = []
  · rw [if_pos hnil]
    exact ⟨fun h => by omega, fun h => absurd hnil h.1.1⟩
  rw [if_neg hnil]
  by_cases hdigits : ∀ d ∈ ds, isDigit d = true
  · rw [ncAtoiFrom_eq ds 0 hdigits, valueMod_eq]
    constructor
    · intro h
      split at h
      · omega
      · exact ⟨⟨hnil, hdigits⟩, by omega, by omega⟩
    · rintro ⟨-, hval, hlt⟩
      rw [if_neg (by omega)]
      omega
  · rw [ncAtoiFrom_of_not_digit ds 0 hdigits]
    exact ⟨fun h => by omega, fun h => absurd h.1.2 hdigits⟩

theorem IsNumber.not_mem {ds : List Byte} (h : IsNumber ds) {c : Byte} (hc : isDigit c = false) :
    c ∉ ds := by
  intro hmem
  rw [h.2 c hmem] at hc
  cases hc

/-! ### The pieces of a line -/

/-- The text of a host, a port and a weight. -/
def addressText (host port weight : List Byte) : List Byte := host ++ 58 :: (port ++ 58 :: weight)

/-- **The text of a line.** -/
def serverLine (host port weight : List Byte) (name : Option (List Byte)) : List Byte :=
  addressText host port weight ++ name.elim [] fun n => 32 :: n

/-- **The pieces** at the last space and the last two colons before it. -/
structure Split (s host port weight : List Byte) (name : Option (List Byte)) : Prop where
  text : s = serverLine host port weight name
  port_colon : 58 ∉ port
  weight_colon : 58 ∉ weight
  name_space : ∀ n, name = some n → 32 ∉ n
  no_name : name = none → 32 ∉ s

section Pieces

variable {s host port weight : List Byte} {name : Option (List Byte)}

theorem splitServer_some {k : ℕ} {f : Found} {c : Byte} {before behind : List Byte} (cs : List Byte)
    (h : ncStrrchr c f.rest = some (before, behind)) :
    splitServer k f (c :: cs) = splitServer (k + 1) (f.take k behind before) cs := by
  rw [splitServer, h]

theorem splitServer_none {k : ℕ} {f : Found} {c : Byte} (cs : List Byte)
    (h : ncStrrchr c f.rest = none) :
    splitServer (k + 1) f (c :: cs) = (k + 1, f) := by
  rw [splitServer, h]
  exact if_neg k.succ_ne_zero

/-- The loop from the first colon on. -/
theorem splitServer_colons {f f' : Found} (hnul : 0 ∉ f.rest) :
    splitServer 1 f [58, 58, 0] = (3, f') ↔ ∃ host port weight,
      f.rest = addressText host port weight ∧
      58 ∉ port ∧ 58 ∉ weight ∧ f' = { f with weight := weight, port := port, rest := host } := by
  constructor
  · intro h
    cases hlast : ncStrrchr 58 f.rest with
    | none =>
      rw [splitServer_none _ hlast] at h
      cases h
    | some pieces =>
      obtain ⟨before, weight⟩ := pieces
      rw [splitServer_some _ hlast] at h
      obtain ⟨hrest, hweight⟩ := ncStrrchr_eq_some_iff.mp hlast
      cases hprev : ncStrrchr 58 before with
      | none =>
        rw [splitServer_none _ hprev] at h
        cases h
      | some pieces =>
        obtain ⟨host, port⟩ := pieces
        rw [splitServer_some _ hprev] at h
        obtain ⟨rfl, hport⟩ := ncStrrchr_eq_some_iff.mp hprev
        have hhost : 0 ∉ host := fun hmem => hnul (by rw [hrest]; simp [hmem])
        rw [splitServer_none _ (ncStrrchr_eq_none_iff.mpr hhost)] at h
        cases h
        exact ⟨host, port, weight, by rw [hrest, addressText]; simp, hport, hweight, rfl⟩
  · rintro ⟨host, port, weight, hrest, hport, hweight, rfl⟩
    have hlast : ncStrrchr 58 f.rest = some (host ++ 58 :: port, weight) :=
      ncStrrchr_eq_some_iff.mpr ⟨by rw [hrest, addressText]; simp, hweight⟩
    have hhost : 0 ∉ host := fun hmem => hnul (by rw [hrest, addressText]; simp [hmem])
    rw [splitServer_some _ hlast, splitServer_some _ (ncStrrchr_append hport),
      splitServer_none _ (ncStrrchr_eq_none_iff.mpr hhost)]
    rfl

/-- **The loop finds the pieces.** -/
theorem splitServer_iff (hnul : 0 ∉ s) :
    splitServer 0 { rest := s } serverDelim =
      (3, { name := name, weight := weight, port := port, rest := host }) ↔
      Split s host port weight name := by
  rw [serverDelim]
  cases hspace : ncStrrchr 32 s with
  | none =>
    have hno := ncStrrchr_eq_none_iff.mp hspace
    have hloop : splitServer 0 { rest := s } [32, 58, 58, 0] = splitServer 1 { rest := s }
      [58, 58, 0] := by
      rw [splitServer, hspace]
      exact if_pos rfl
    rw [hloop, splitServer_colons hnul]
    constructor
    · rintro ⟨host', port', weight', htext, hport, hweight, heq⟩
      cases heq
      exact ⟨by simpa [serverLine] using htext, hport, hweight, fun n hn => (nomatch hn), fun _ =>
        hno⟩
    · intro h
      cases name with
      | none => exact ⟨host, port,
          weight, by simpa [serverLine] using h.text, h.port_colon, h.weight_colon, rfl⟩
      | some => exact absurd (by rw [h.text]; simp [serverLine]) hno
  | some pieces =>
    obtain ⟨before, behind⟩ := pieces
    obtain ⟨rfl, hbehind⟩ := ncStrrchr_eq_some_iff.mp hspace
    have hnul' : 0 ∉ before := fun hmem => hnul (by simp [hmem])
    rw [splitServer_some _ hspace, splitServer_colons hnul']
    constructor
    · rintro ⟨host', port', weight', htext, hport, hweight, heq⟩
      cases heq
      have htext : before = addressText host port weight := htext
      refine ⟨by rw [htext]; rfl, hport, hweight, fun n hn => ?_, fun hn => (nomatch hn)⟩
      cases hn
      exact hbehind
    · intro h
      cases name with
      | none => exact absurd (by simp) (h.no_name rfl)
      | some n =>
        have hpieces : some (before, behind) = some (addressText host port weight, n) := by
          rw [← hspace, h.text]
          exact ncStrrchr_append (h.name_space n rfl)
        cases hpieces
        exact ⟨host, port, weight, rfl, h.port_colon, h.weight_colon, rfl⟩

/-- A line has one reading. -/
theorem Split.unique (hnul : 0 ∉ s) {host' port' weight' : List Byte} {name' : Option (List Byte)}
    (h : Split s host port weight name) (h' : Split s host' port' weight' name') :
    host = host' ∧ port = port' ∧ weight = weight' ∧ name = name' := by
  have heq := ((splitServer_iff hnul).mpr h).symm.trans ((splitServer_iff hnul).mpr h')
  cases heq
  exact ⟨rfl, rfl, rfl, rfl⟩

end Pieces

/-! ### What is accepted -/

/-- The server that is read from the pieces of a line. -/
def serverOf (host port weight : List Byte) (name : Option (List Byte)) : ServerField :=
  { pname := if name = some [] then serverLine host port weight name
      else addressText host port weight
    name := name.getD (if value port % 2 ^ 32 = 11211 then host else host ++ 58 :: port)
    addrstr := host
    port := (value port % 2 ^ 32 : ℕ)
    weight := (value weight % 2 ^ 32 : ℕ) }

/-- The numbers of a line are in their ranges, in 32 bits. -/
structure NumbersPass (port weight : List Byte) : Prop where
  port_number : IsNumber port
  weight_number : IsNumber weight
  port_pos : 1 ≤ value port % 2 ^ 32
  port_le : value port % 2 ^ 32 ≤ 65535
  weight_pos : 1 ≤ value weight % 2 ^ 32
  weight_lt : value weight % 2 ^ 32 < 2 ^ 31

section Accepted

variable {s host port weight : List Byte} {name : Option (List Byte)}

theorem NumbersPass.atoi (h : NumbersPass port weight) :
    ncAtoi port = (value port % 2 ^ 32 : ℕ) ∧ ncAtoi weight = (value weight % 2 ^ 32 : ℕ) := by
  have hport := h.port_le
  exact ⟨(ncAtoi_eq_iff h.port_pos).mpr ⟨h.port_number, rfl, by omega⟩,
    (ncAtoi_eq_iff h.weight_pos).mpr ⟨h.weight_number, rfl, h.weight_lt⟩⟩

/-- The checks of the source let exactly these numbers pass. -/
theorem numbersPass_iff : NumbersPass port weight ↔
    0 < ncAtoi weight ∧ 0 ≤ ncAtoi port ∧ ncValidPort (ncAtoi port) = true := by
  constructor
  · intro h
    obtain ⟨hport, hweight⟩ := h.atoi
    have := h.port_pos
    have := h.port_le
    have := h.weight_pos
    rw [hport, hweight, ncValidPort, decide_eq_true_iff]
    omega
  · rintro ⟨hweight, hport, hvalid⟩
    rw [ncValidPort, decide_eq_true_iff] at hvalid
    obtain ⟨n, hn⟩ := Int.eq_ofNat_of_zero_le hport
    obtain ⟨m, hm⟩ := Int.eq_ofNat_of_zero_le hweight.le
    obtain ⟨hnum, hval, hlt⟩ := (ncAtoi_eq_iff (show 0 < n by omega)).mp hn
    obtain ⟨hnum', hval', hlt'⟩ := (ncAtoi_eq_iff (show 0 < m by omega)).mp hm
    exact ⟨hnum, hnum', by omega, by omega, by omega, by omega⟩

/-- The line without its name. -/
theorem pname_eq (host port weight : List Byte) (name : Option (List Byte)) :
    (if 0 < (name.getD []).length then
        (serverLine host port weight name).take
          ((serverLine host port weight name).length - ((name.getD []).length + 1))
      else serverLine host port weight name) = (serverOf host port weight name).pname := by
  cases name with
  | none => simp [serverOf, serverLine]
  | some n =>
    cases n with
    | nil => rfl
    | cons =>
      rw [if_pos (by simp), serverLine, Option.elim_some, Option.getD_some, List.length_append,
        List.length_cons,
        Nat.add_sub_cancel, List.take_left]
      rfl

theorem default_name (host port weight : List Byte) (name : Option (List Byte)) :
    (serverLine host port weight name).take (host.length + 1 + port.length) = host ++ 58 ::
      port := by
  have htext : serverLine host port weight name =
      (host ++ 58 :: port) ++ (58 :: weight ++ name.elim [] fun n => 32 :: n) := by
    simp [serverLine, addressText]
  have hlen : host.length + 1 + port.length = (host ++ 58 :: port).length := by
    simp only [List.length_append, List.length_cons]
    omega
  rw [htext, hlen, List.take_left]

/-- The checks behind the loop, for a line that is split into its pieces. -/
theorem confAddServer_of_split (hnul : 0 ∉ s) (hslash : s.head? ≠ some 47)
    (h : Split s host port weight name) :
    (NumbersPass port weight ∧ confAddServer s = .ok (serverOf host port weight name)) ∨
      (¬NumbersPass port weight ∧ ∃ e, confAddServer s = .error e) := by
  have hloop := (splitServer_iff hnul).mpr h
  unfold confAddServer
  simp only [hloop, ne_eq, not_true_eq_false, if_false, hslash, not_false_eq_true, true_and]
  rw [numbersPass_iff]
  by_cases hneg : ncAtoi weight < 0
  · exact .inr ⟨fun hp => by omega, _, if_pos hneg⟩
  by_cases hzero : ncAtoi weight = 0
  · exact .inr ⟨fun hp => by omega, _, by rw [if_neg hneg, if_pos hzero]⟩
  by_cases hport : ncAtoi port < 0 ∨ ncValidPort (ncAtoi port) = false
  · refine .inr ⟨fun hp => ?_, _, by rw [if_neg hneg, if_neg hzero, if_pos hport]⟩
    rcases hport with hlt | hinvalid
    · omega
    · rw [hp.2.2] at hinvalid
      cases hinvalid
  · have hpass : 0 < ncAtoi weight ∧ 0 ≤ ncAtoi port ∧ ncValidPort (ncAtoi port) = true := by
      rw [not_or, Bool.not_eq_false] at hport
      exact ⟨by omega, by omega, hport.2⟩
    refine .inl ⟨hpass, ?_⟩
    obtain ⟨hportval, hweightval⟩ := (numbersPass_iff.mpr hpass).atoi
    rw [if_neg hneg, if_neg hzero, if_neg hport, h.text, pname_eq, default_name, hportval,
      hweightval]
    have hdefault : ((value port % 2 ^ 32 : ℕ) : ℤ) = confDefaultKetamaPort ↔
      value port % 2 ^ 32 = 11211 := by
      unfold confDefaultKetamaPort
      omega
    simp only [hdefault]
    rfl

/-- Without two colons before the name, a line is not accepted. -/
theorem confAddServer_format (hnul : 0 ∉ s) (hslash : s.head? ≠ some 47)
    (h : ∀ host port weight name, ¬Split s host port weight name) :
    confAddServer s = .error .format := by
  obtain ⟨k, f, hloop⟩ : ∃ k f, splitServer 0 { rest := s } serverDelim = (k, f) := ⟨_, _, rfl⟩
  have hk : k ≠ 3 := by
    rintro rfl
    exact h _ _ _ _ ((splitServer_iff hnul).mp hloop)
  unfold confAddServer
  simp only [hloop, if_neg hslash]
  exact if_pos hk

/-- **What is accepted, and what is read.** -/
theorem confAddServer_iff (hnul : 0 ∉ s) (hslash : s.head? ≠ some 47) {r : ServerField} :
    confAddServer s = .ok r ↔ ∃ host port weight name,
      Split s host port weight name ∧ NumbersPass port weight ∧
        r = serverOf host port weight name := by
  constructor
  · intro hok
    by_contra hnone
    by_cases hsplit : ∃ host port weight name, Split s host port weight name
    · obtain ⟨host, port, weight, name, hsplit⟩ := hsplit
      rcases confAddServer_of_split hnul hslash hsplit with ⟨hpass, heq⟩ | ⟨-, e, heq⟩
      · rw [heq] at hok
        cases hok
        exact hnone ⟨host, port, weight, name, hsplit, hpass, rfl⟩
      · rw [heq] at hok
        cases hok
    · rw [confAddServer_format hnul hslash fun host port weight name h =>
        hsplit ⟨_, _, _, _, h⟩] at hok
      cases hok
  · rintro ⟨host, port, weight, name, hsplit, hpass, rfl⟩
    rcases confAddServer_of_split hnul hslash hsplit with ⟨-, heq⟩ | ⟨hfail, -⟩
    · exact heq
    · exact absurd hpass hfail

end Accepted

/-! ### Lines that should be accepted -/

/-- The numbers of a line are in their ranges, as they are written. -/
structure NumbersExact (port weight : List Byte) : Prop where
  port_number : IsNumber port
  weight_number : IsNumber weight
  port_pos : 1 ≤ value port
  port_le : value port ≤ 65535
  weight_pos : 1 ≤ value weight
  weight_le : value weight ≤ 2 ^ 31 - 1

/-- **The lines that should be accepted**, and the address, the port, the weight and the name that
should be read from them. -/
def ExactLine (s addrstr : List Byte) (port weight : ℤ) (name : List Byte) : Prop :=
  ∃ ports weights given, s = serverLine addrstr ports weights given ∧ addrstr ≠ [] ∧ 32 ∉ addrstr ∧
    NumbersExact ports weights ∧ (∀ n, given = some n → n ≠ [] ∧ 32 ∉ n) ∧
    port = value ports ∧ weight = value weights ∧
    name = given.getD (if value ports = 11211 then addrstr else addrstr ++ 58 :: ports)

/-- **A line is plain**: if it is a host, two numbers that pass in 32 bits and perhaps a name behind
the last space, then the host is not empty and has no space in it, the name is not empty, and the
numbers are in their ranges as they are written. -/
def PlainLine (s : List Byte) : Prop :=
  ∀ host port weight name, Split s host port weight name → NumbersPass port weight →
    host ≠ [] ∧ 32 ∉ host ∧ name ≠ some [] ∧ value port ≤ 65535 ∧ value weight ≤ 2 ^ 31 - 1

section Exact

variable {s host port weight : List Byte} {name : Option (List Byte)}

theorem NumbersExact.pass (h : NumbersExact port weight) :
    NumbersPass port weight ∧ value port % 2 ^ 32 = value port ∧
      value weight % 2 ^ 32 = value weight := by
  obtain ⟨hport, hweight, hpos, hle, hwpos, hwle⟩ := h
  have hp : value port % 2 ^ 32 = value port := Nat.mod_eq_of_lt (by omega)
  have hw : value weight % 2 ^ 32 = value weight := Nat.mod_eq_of_lt (by omega)
  exact ⟨⟨hport, hweight, by omega, by omega, by omega, by omega⟩, hp, hw⟩

theorem NumbersPass.exact (h : NumbersPass port weight) (hport : value port ≤ 65535)
    (hweight : value weight ≤ 2 ^ 31 - 1) : NumbersExact port weight := by
  have hpos := h.port_pos
  have hwpos := h.weight_pos
  exact ⟨h.port_number, h.weight_number, by omega, hport, by omega, hweight⟩

theorem NumbersExact.split (h : NumbersExact port weight) (hhost : 32 ∉ host)
    (hname : ∀ n, name = some n → n ≠ [] ∧ 32 ∉ n) :
    Split (serverLine host port weight name) host port weight name := by
  refine ⟨rfl, h.port_number.not_mem (by decide), h.weight_number.not_mem (by decide), fun n hn =>
    (hname n hn).2, ?_⟩
  rintro rfl hmem
  have hport := h.port_number.not_mem (show isDigit 32 = false by decide)
  have hweight := h.weight_number.not_mem (show isDigit 32 = false by decide)
  simp [serverLine, addressText, hhost, hport, hweight] at hmem

/-- **Lines are read exactly, if and only if they are plain.**  On a line without NUL that does not
begin with a slash, `conf_add_server` accepts what it should and reads what it should exactly if the
line is plain. -/
theorem confAddServer_exact (hnul : 0 ∉ s) (hslash : s.head? ≠ some 47) :
    (∀ addrstr port weight name,
      (∃ pname, confAddServer s = .ok ⟨pname, name, addrstr, port, weight⟩) ↔
      ExactLine s addrstr port weight name) ↔ PlainLine s := by
  constructor
  · intro hexact host port weight name hsplit hpass
    have hok := (confAddServer_iff hnul hslash).mpr ⟨host, port, weight, name, hsplit, hpass, rfl⟩
    obtain ⟨ports, weights, given, htext, hne, hspace, hnums, hname, -⟩ :=
      (hexact _ _ _ _).mp ⟨_, hok⟩
    -- The line has one reading.
    have hline : Split s host ports weights given := by
      rw [htext]
      exact hnums.split hspace hname
    obtain ⟨-, rfl, rfl, rfl⟩ := hsplit.unique hnul hline
    exact ⟨hne, hspace, fun hempty => (hname [] hempty).1 rfl, hnums.port_le, hnums.weight_le⟩
  · intro hplain addrstr p w nm
    constructor
    · rintro ⟨pname, hok⟩
      obtain ⟨host, port, weight, name, hsplit, hpass, heq⟩ :=
        (confAddServer_iff hnul hslash).mp hok
      obtain ⟨hne, hspace, hnonempty, hport, hweight⟩ := hplain host port weight name hsplit hpass
      have hnums := hpass.exact hport hweight
      obtain ⟨-, hp, hw⟩ := hnums.pass
      simp only [serverOf, ServerField.mk.injEq, hp, hw] at heq
      obtain ⟨-, rfl, rfl, rfl, rfl⟩ := heq
      refine ⟨port, weight, name, hsplit.text, hne, hspace, hnums, fun n hn =>
        ⟨?_, hsplit.name_space n hn⟩, rfl, rfl, rfl⟩
      rintro rfl
      exact hnonempty hn
    · rintro ⟨ports, weights, given, rfl, hne, hspace, hnums, hname, rfl, rfl, rfl⟩
      obtain ⟨hpass, hp, hw⟩ := hnums.pass
      refine ⟨(serverOf addrstr ports weights given).pname, (confAddServer_iff hnul hslash).mpr
        ⟨addrstr, ports, weights, given, hnums.split hspace hname, hpass, ?_⟩⟩
      simp only [serverOf, hp, hw]

/-- The line `a:1:2 b` is plain. -/
theorem confAddServer_exact_plain : ∃ pname,
    confAddServer (str "a:1:2 b") = .ok ⟨pname, str "b", str "a", 1, 2⟩ := by
  have hplain : PlainLine (str "a:1:2 b") := by
    intro host port weight name hsplit _
    have hline : Split (str "a:1:2 b") (str "a") (str "1") (str "2") (some (str "b")) :=
      (splitServer_iff (by decide)).mp (by decide)
    obtain ⟨rfl, rfl, rfl, rfl⟩ := hline.unique (by decide) hsplit
    decide
  refine ((confAddServer_exact (by decide) (by decide)).mpr hplain _ _ _ _).mpr ?_
  refine ⟨str "1", str "2", some
    (str "b"), by decide, by decide, by decide, ?_, ?_, by decide, by decide, by decide⟩
  · exact ⟨⟨by decide, by decide +kernel⟩,
      ⟨by decide, by decide +kernel⟩, by decide, by decide, by decide, by decide⟩
  · intro n hn
    cases hn
    decide

/-- **A space at the end gives an empty name**; a host with a space in it, an empty host, and a
weight of `2 ^ 32 + 1` are accepted as well. -/
theorem confAddServer_loose :
    confAddServer (str "a:1:2 ") = .ok ⟨str "a:1:2 ", [], str "a", 1, 2⟩ ∧
      confAddServer (str "a b:1:2 c") = .ok ⟨str "a b:1:2", str "c", str "a b", 1, 2⟩ ∧
      confAddServer (str ":1:2") = .ok ⟨str ":1:2", str ":1", [], 1, 2⟩ ∧
      confAddServer (str "a:1:4294967297") = .ok ⟨str "a:1:4294967297", str "a:1", str "a", 1, 1⟩ ∧
      ¬ExactLine (str "a:1:2 ") (str "a") 1 2 [] := by
  refine ⟨by decide, by decide, by decide, by decide +kernel, ?_⟩
  rintro ⟨ports, weights, given, htext, -, hspace, hnums, hname, -⟩
  have hline : Split (str "a:1:2 ") (str "a") ports weights given := by
    rw [htext]
    exact hnums.split hspace hname
  have hcut : Split (str "a:1:2 ") (str "a") (str "1") (str "2") (some []) :=
    (splitServer_iff (by decide)).mp (by decide)
  obtain ⟨-, -, -, rfl⟩ := hline.unique (by decide) hcut
  exact (hname [] rfl).1 rfl

end Exact

end CacheProxy
