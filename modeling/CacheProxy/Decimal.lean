/-
**Decimal numerals as bytes.**

Line protocols write counts and lengths as ASCII decimals, and C code reads them back one digit
at a time into a machine word.  This module has the numeral of a number, the value of a list of
digits, the value read in a word of `w` bits, and the facts that join them.

Main definitions:

* `Decimal.isDigit`, `Decimal.digitVal` — the digits and what they stand for;
* `Decimal.numeral` — the decimal numeral of a number, without leading zeros;
* `Decimal.value`, `Decimal.valueMod` — the value of a list of digits, exactly and modulo `m`.

Main results:

* `Decimal.value_numeral` — **reading back a numeral gives the number**;
* `Decimal.valueMod_eq` — reading modulo `m` gives the value modulo `m`;
* `Decimal.numeral_length_le` — a number below `10 ^ k` has at most `k` digits.
-/

import Mathlib.Data.List.Basic
import Mathlib.Tactic.Ring

/-- A byte of a stream. -/
abbrev Byte := UInt8

namespace Decimal

/-! ### Digits -/

/-- The ASCII digits, as `isdigit` in the C locale. -/
def isDigit (b : Byte) : Bool := decide (48 ≤ b.toNat ∧ b.toNat ≤ 57)

/-- What a digit stands for. -/
def digitVal (b : Byte) : ℕ := (b - 48).toNat

/-- The digit that stands for `d % 10`. -/
def digit (d : ℕ) : Byte := UInt8.ofNat (48 + d % 10)

theorem digit_toNat (d : ℕ) : (digit d).toNat = 48 + d % 10 := by
  have h : d % 10 < 10 := Nat.mod_lt _ (by decide)
  simp only [digit, UInt8.toNat_ofNat']
  omega

@[simp] theorem isDigit_digit (d : ℕ) : isDigit (digit d) = true := by
  have h : d % 10 < 10 := Nat.mod_lt _ (by decide)
  simp only [isDigit, digit_toNat, decide_eq_true_eq]
  omega

theorem isDigit_iff (b : Byte) : isDigit b = true ↔ 48 ≤ b.toNat ∧ b.toNat ≤ 57 := by
  simp [isDigit]

theorem digitVal_eq {b : Byte} (h : isDigit b = true) : digitVal b = b.toNat - 48 := by
  rw [isDigit_iff] at h
  have hle : (48 : Byte) ≤ b := UInt8.le_iff_toNat_le.2 h.1
  simp [digitVal, UInt8.toNat_sub_of_le _ _ hle]

@[simp] theorem digitVal_digit (d : ℕ) : digitVal (digit d) = d % 10 := by
  rw [digitVal_eq (isDigit_digit d), digit_toNat]
  omega

/-! ### Values -/

/-- The value of a list of digits, the most significant first, continuing from `v`. -/
def valueFrom (v : ℕ) : List Byte → ℕ
  | [] => v
  | d :: ds => valueFrom (v * 10 + digitVal d) ds

/-- **The value of a list of digits.** -/
def value (ds : List Byte) : ℕ := valueFrom 0 ds

/-- The value as a loop that keeps it in a word sees it: reduced modulo `m` at every digit. -/
def valueModFrom (m v : ℕ) : List Byte → ℕ
  | [] => v
  | d :: ds => valueModFrom m ((v * 10 + digitVal d) % m) ds

@[simp] theorem valueFrom_nil (v : ℕ) : valueFrom v [] = v := rfl

@[simp] theorem valueFrom_cons (v : ℕ) (d : Byte) (ds : List Byte) :
    valueFrom v (d :: ds) = valueFrom (v * 10 + digitVal d) ds := rfl

theorem valueFrom_append (v : ℕ) (xs ys : List Byte) :
    valueFrom v (xs ++ ys) = valueFrom (valueFrom v xs) ys := by
  induction xs generalizing v with
  | nil => rfl
  | cons x xs ih => simp only [List.cons_append, valueFrom_cons, ih]

@[simp] theorem valueModFrom_nil (m v : ℕ) : valueModFrom m v [] = v := rfl

@[simp] theorem valueModFrom_cons (m v : ℕ) (d : Byte) (ds : List Byte) :
    valueModFrom m v (d :: ds) = valueModFrom m ((v * 10 + digitVal d) % m) ds := rfl

theorem valueModFrom_mod (m v : ℕ) (ds : List Byte) :
    valueModFrom m (v % m) ds = valueFrom v ds % m := by
  induction ds generalizing v with
  | nil => rfl
  | cons d ds ih =>
      rw [valueModFrom_cons, valueFrom_cons, ← ih (v * 10 + digitVal d)]
      congr 1
      simp [Nat.add_mod, Nat.mul_mod]

/-- Reading a numeral in a word gives its value reduced to the word. -/
theorem valueMod_eq (m : ℕ) (ds : List Byte) : valueModFrom m 0 ds = value ds % m := by
  have h := valueModFrom_mod m 0 ds
  rwa [Nat.zero_mod] at h

/-! ### Numerals -/

/-- The numeral of `n`, with `fuel` bounding the number of digits. -/
def numeralAux : ℕ → ℕ → List Byte
  | 0, _ => []
  | fuel + 1, n => if n < 10 then [digit n] else numeralAux fuel (n / 10) ++ [digit n]

/-- **The decimal numeral of `n`**, as `%d` prints it for a number that is not negative. -/
def numeral (n : ℕ) : List Byte := numeralAux (n + 1) n

theorem value_numeralAux {fuel n : ℕ} (h : n < fuel) : value (numeralAux fuel n) = n := by
  induction fuel generalizing n with
  | zero => omega
  | succ fuel ih =>
      unfold numeralAux
      split
      · next hn => simp [value, Nat.mod_eq_of_lt hn]
      · have hq : value (numeralAux fuel (n / 10)) = n / 10 := ih (by omega)
        unfold value at hq ⊢
        rw [valueFrom_append, hq, valueFrom_cons, digitVal_digit, valueFrom_nil]
        omega

/-- **Reading back a numeral gives the number.** -/
@[simp] theorem value_numeral (n : ℕ) : value (numeral n) = n := value_numeralAux (by omega)

theorem isDigit_of_mem_numeralAux {fuel n : ℕ} {b : Byte} (h : b ∈ numeralAux fuel n) :
    isDigit b = true := by
  induction fuel generalizing n with
  | zero => simp [numeralAux] at h
  | succ fuel ih =>
      unfold numeralAux at h
      split at h
      · rw [List.mem_singleton.1 h, isDigit_digit]
      · rcases List.mem_append.1 h with h | h
        · exact ih h
        · rw [List.mem_singleton.1 h, isDigit_digit]

theorem isDigit_of_mem_numeral {n : ℕ} {b : Byte} (h : b ∈ numeral n) : isDigit b = true :=
  isDigit_of_mem_numeralAux h

theorem numeral_ne_nil (n : ℕ) : numeral n ≠ [] := by
  unfold numeral numeralAux
  split <;> simp

theorem numeralAux_length_le {fuel n k : ℕ} (hk : 0 < k) (h : n < 10 ^ k) :
    (numeralAux fuel n).length ≤ k := by
  induction fuel generalizing n k with
  | zero => simp [numeralAux]
  | succ fuel ih =>
      unfold numeralAux
      split
      · exact hk
      · next hn =>
          obtain ⟨k, rfl⟩ : ∃ j, k = j + 2 := by
            rcases k with _ | _ | j
            · omega
            · simp at h; omega
            · exact ⟨j, rfl⟩
          have hq : n / 10 < 10 ^ (k + 1) := by
            rw [Nat.div_lt_iff_lt_mul (by decide)]
            calc n < 10 ^ (k + 2) := h
              _ = 10 ^ (k + 1) * 10 := by ring
          have := ih (Nat.succ_pos k) hq
          simp only [List.length_append, List.length_singleton]
          omega

/-- A number below `10 ^ k` has at most `k` digits. -/
theorem numeral_length_le {n k : ℕ} (hk : 0 < k) (h : n < 10 ^ k) : (numeral n).length ≤ k :=
  numeralAux_length_le hk h

end Decimal
