/-
**JSON texts.**

The part of the grammar of JSON that a report of names and numbers needs, as a relation between
texts and values: strings without escapes, integers, and objects, with blanks before values and
members.

A program that writes an object member by member puts a separator behind each member, and takes back
the last one when it closes the object.  `Entries` is the text of such an object before it is
closed.

Main definitions:

* `JsonText.Json` — a value;
* `JsonText.Text`, `JsonText.Members` — **a text is JSON for a value**, and for the members of an
  object;
* `JsonText.Entries` — members with a separator behind each.

Main results:

* `JsonText.text_decimal` — what `%d` prints is a number of JSON;
* `JsonText.Entries.close` — without the last separator the entries are the members of an object.
-/

import CacheProxy.Decimal

namespace JsonText

open Decimal

/-! ### The grammar -/

/-- A value: a string, a number or an object. -/
inductive Json where
  | str (s : List Byte)
  | num (z : ℤ)
  | obj (members : List (List Byte × Json))

/-- Printable ASCII without the quotation mark and the backslash: a string that stands for
itself. -/
def Verbatim (s : List Byte) : Prop := ∀ c ∈ s, 32 ≤ c ∧ c < 127 ∧ c ≠ 34 ∧ c ≠ 92

instance (s : List Byte) : Decidable (Verbatim s) := List.decidableBAll _ s

/-- A string between quotation marks. -/
def quoted (s : List Byte) : List Byte := 34 :: s ++ [34]

/-- Digits without a leading zero. -/
structure Digits (ds : List Byte) : Prop where
  ne_nil : ds ≠ []
  isDigit : ∀ d ∈ ds, Decimal.isDigit d = true
  lead : ds.head? = some 48 → ds = [48]

mutual

/-- **A text is JSON for a value.** -/
inductive Text : List Byte → Json → Prop
  | str {s : List Byte} : Verbatim s → Text (quoted s) (.str s)
  | num {ds : List Byte} : Digits ds → Text ds (.num (value ds))
  | neg {ds : List Byte} : Digits ds → Text (45 :: ds) (.num (-(value ds)))
  | obj {bs : List Byte} {ms : List (List Byte × Json)} : Members bs ms →
      Text (123 :: bs ++ [125]) (.obj ms)
  | blank {bs : List Byte} {v : Json} : Text bs v → Text (32 :: bs) v

/-- A text is JSON for the members of an object. -/
inductive Members : List Byte → List (List Byte × Json) → Prop
  | nil : Members [] []
  | one {k t : List Byte} {v : Json} : Verbatim k → Text t v →
      Members (quoted k ++ 58 :: t) [(k, v)]
  | cons {k t bs : List Byte} {v : Json} {m : List Byte × Json} {ms : List (List Byte × Json)} :
      Verbatim k → Text t v → Members bs (m :: ms) →
        Members (quoted k ++ 58 :: t ++ 44 :: bs) ((k, v) :: m :: ms)
  | blank {bs : List Byte} {ms : List (List Byte × Json)} : Members bs ms → Members (32 :: bs) ms

end

/-! ### Numbers -/

/-- The text that `%d` prints for a number. -/
def decimal (z : ℤ) : List Byte := if z < 0 then 45 :: numeral z.natAbs else numeral z.natAbs

theorem numeralAux_head_ne {fuel n : ℕ} (hpos : 0 < n) (hfuel : n < fuel) :
    ∃ d ds, numeralAux fuel n = d :: ds ∧ d ≠ 48 := by
  induction fuel generalizing n with
  | zero => omega
  | succ fuel ih =>
    unfold numeralAux
    split
    · next hlt =>
      refine ⟨digit n, [], rfl, ?_⟩
      intro hzero
      have hval := congrArg digitVal hzero
      rw [digitVal_digit, show digitVal 48 = 0 from rfl] at hval
      omega
    · obtain ⟨d, ds, heq, hne⟩ := ih (show 0 < n / 10 by omega) (by omega)
      exact ⟨d, ds ++ [digit n], by rw [heq, List.cons_append], hne⟩

theorem digits_numeral (n : ℕ) : Digits (numeral n) := by
  refine ⟨numeral_ne_nil n, fun d hd => isDigit_of_mem_numeral hd, fun hlead => ?_⟩
  rcases Nat.eq_zero_or_pos n with rfl | hpos
  · rfl
  · obtain ⟨d, ds, heq, hne⟩ := numeralAux_head_ne hpos (Nat.lt_succ_self n)
    rw [numeral, heq] at hlead
    exact absurd (Option.some.inj hlead) hne

/-- **What is printed is a number of JSON.** -/
theorem text_decimal (z : ℤ) : Text (decimal z) (.num z) := by
  have hdigits := digits_numeral z.natAbs
  unfold decimal
  split
  · next hneg =>
    have hz : z = -((value (numeral z.natAbs) : ℕ) : ℤ) := by
      rw [value_numeral]
      omega
    conv => arg 2; rw [hz]
    exact .neg hdigits
  · next hnonneg =>
    have hz : z = ((value (numeral z.natAbs) : ℕ) : ℤ) := by
      rw [value_numeral]
      omega
    conv => arg 2; rw [hz]
    exact .num hdigits

theorem decimal_length_le {z : ℤ} {k : ℕ} (hk : 0 < k) (h : z.natAbs < 10 ^ k) :
    (decimal z).length ≤ k + 1 := by
  have hlen := numeral_length_le hk h
  unfold decimal
  split
  · rw [List.length_cons]
    omega
  · omega

/-! ### Objects that are being written -/

/-- **Members with a separator behind each**: a comma and a blank behind a value, a comma behind an
object. -/
inductive Entries : List Byte → List (List Byte × Json) → Prop
  | nil : Entries [] []
  | value {bs k t : List Byte} {v : Json} {ms : List (List Byte × Json)} :
      Entries bs ms → Verbatim k → Text t v →
        Entries (bs ++ (quoted k ++ 58 :: t ++ [44, 32])) (ms ++ [(k, v)])
  | object {bs k inner : List Byte} {ms ms' : List (List Byte × Json)} :
      Entries bs ms → Verbatim k → Members inner ms' →
      Entries (bs ++ (quoted k ++ [58, 32, 123] ++ inner ++ [125, 44])) (ms ++ [(k, .obj ms')])

/-- Entries go before members. -/
theorem Entries.members {bs : List Byte} {ms : List (List Byte × Json)} (h : Entries bs ms) :
    ∀ {bs' : List Byte} {m : List Byte × Json} {ms' : List (List Byte × Json)},
      Members bs' (m :: ms') →
      Members (bs ++ bs') (ms ++ m :: ms') := by
  induction h with
  | nil =>
    intro bs' m ms' h'
    exact h'
  | value _ hk ht ih =>
    intro bs' m ms' h'
    have hcons := ih (.cons hk ht (.blank h'))
    simpa using hcons
  | object _ hk hinner ih =>
    intro bs' m ms' h'
    have hcons := ih (.cons hk (.blank (.obj hinner)) h')
    simpa using hcons

/-- **Without the last separator the entries are members**; a comma alone stands behind a closing
brace. -/
theorem Entries.close {bs : List Byte} {ms : List (List Byte × Json)} (h : Entries bs ms)
    (hne : ms ≠ []) :
    ∃ body, Members body ms ∧
      (bs = body ++ [44, 32] ∨ ∃ x, body = x ++ [125] ∧ bs = body ++ [44]) := by
  cases h with
  | nil => exact absurd rfl hne
  | value h hk ht =>
    refine ⟨_, h.members (.one hk ht), .inl ?_⟩
    simp
  | @object bs k inner ms ms' h hk hinner =>
    refine ⟨_, h.members (.one hk (.blank (.obj hinner))),
      .inr ⟨bs ++ (quoted k ++ [58, 32, 123] ++ inner), ?_, ?_⟩⟩
    · simp
    · simp

end JsonText
