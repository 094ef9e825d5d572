/-
**The hash of Jenkins does not depend on where a key lies.**

`hash_jenkins` reads a key from memory in one of three ways: in words of four bytes, in words of two
bytes, or byte by byte, as the address of the key allows.  The first way reads up to three bytes
behind the key and masks them off.  A key is hashed where the parser found it in an mbuf, so that a
client's requests for one key come with all alignments and with all bytes behind it, and they have
to go to one server.

Main definitions:

* `Mix`, `mix`, `final` — the three words of the state, and the macros;
* `blocks` — the loop over all but the last block;
* `hashJenkins` — the function.

Main results:

* `word32_and` — what a masked read of a word gives;
* `add32_eq`, `add16_eq`, `tail32_eq`, `tail16_eq` — the ways to read agree on a block;
* `blocks_congr` — the loop, on memories that agree on the key;
* `hashJenkins_congr` — **the hash of a key depends on its bytes only**.
-/

import CacheProxy.Mbuf
import Mathlib.Tactic.IntervalCases

namespace CacheProxy

namespace Jenkins

/-! ### The function -/

/-- The internal state. -/
structure Mix where
  a : BitVec 32
  b : BitVec 32
  c : BitVec 32

/-- `rot`. -/
def rot (x : BitVec 32) (k : ℕ) : BitVec 32 := (x <<< k) ||| (x >>> (32 - k))

/-- **`mix`.** -/
def mix (s : Mix) : Mix :=
  let ⟨a, b, c⟩ := s
  let a := (a - c) ^^^ rot c 4
  let c := c + b
  let b := (b - a) ^^^ rot a 6
  let a := a + c
  let c := (c - b) ^^^ rot b 8
  let b := b + a
  let a := (a - c) ^^^ rot c 16
  let c := c + b
  let b := (b - a) ^^^ rot a 19
  let a := a + c
  let c := (c - b) ^^^ rot b 4
  let b := b + a
  ⟨a, b, c⟩

/-- **`final`**, of which `c` is returned. -/
def final (s : Mix) : BitVec 32 :=
  let ⟨a, b, c⟩ := s
  let c := (c ^^^ b) - rot b 14
  let a := (a ^^^ c) - rot c 11
  let b := (b ^^^ a) - rot a 25
  let c := (c ^^^ b) - rot b 16
  let a := (a ^^^ c) - rot c 4
  let b := (b ^^^ a) - rot a 14
  (c ^^^ b) - rot b 24

variable (mem : ℕ → Byte)

/-- `((uint32_t)k[i]) << s`, for the byte at `p`. -/
def byte (p s : ℕ) : BitVec 32 := BitVec.ofNat 32 (mem p).toNat <<< s

/-- The word of two bytes at `p`, as a `uint32_t`. -/
def word16 (p : ℕ) : BitVec 32 := BitVec.ofNat 32 ((mem p).toNat + (mem (p + 1)).toNat * 2 ^ 8)

/-- `k[i] + (((uint32_t)k[i + 1]) << 16)`, for the words of two bytes at `p`. -/
def pair16 (p : ℕ) : BitVec 32 := word16 mem p + word16 mem (p + 2) <<< 16

/-- The word of four bytes at `p`, on a machine with the low byte first. -/
def word32 (p : ℕ) : BitVec 32 :=
  BitVec.ofNat 32 ((mem p).toNat + (mem (p + 1)).toNat * 2 ^ 8 + (mem (p + 2)).toNat * 2 ^ 16 +
    (mem (p + 3)).toNat * 2 ^ 24)

/-- A block of words of four bytes. -/
def add32 (k : ℕ) (s : Mix) : Mix :=
  ⟨s.a + word32 mem k, s.b + word32 mem (k + 4), s.c + word32 mem (k + 8)⟩

/-- A block of words of two bytes. -/
def add16 (k : ℕ) (s : Mix) : Mix :=
  ⟨s.a + pair16 mem k, s.b + pair16 mem (k + 4), s.c + pair16 mem (k + 8)⟩

/-- A block of bytes. -/
def add8 (k : ℕ) (s : Mix) : Mix :=
  ⟨s.a + byte mem k 0 + byte mem (k + 1) 8 + byte mem (k + 2) 16 + byte mem (k + 3) 24,
    s.b + byte mem (k + 4) 0 + byte mem (k + 5) 8 + byte mem (k + 6) 16 + byte mem (k + 7) 24,
    s.c + byte mem (k + 8) 0 + byte mem (k + 9) 8 + byte mem (k + 10) 16 + byte mem (k + 11) 24⟩

/-- The last block, of `length` bytes, in words of four bytes; `none` if nothing is mixed. -/
def tail32 (k : ℕ) (s : Mix) : ℕ → Option Mix
  | 12 => some (add32 mem k s)
  | 11 => some ⟨s.a + word32 mem k, s.b + word32 mem (k + 4),
      s.c + (word32 mem (k + 8) &&& 0xffffff#32)⟩
  | 10 => some ⟨s.a + word32 mem k, s.b + word32 mem (k + 4),
      s.c + (word32 mem (k + 8) &&& 0xffff#32)⟩
  | 9 => some ⟨s.a + word32 mem k, s.b + word32 mem (k + 4), s.c + (word32 mem (k + 8) &&& 0xff#32)⟩
  | 8 => some ⟨s.a + word32 mem k, s.b + word32 mem (k + 4), s.c⟩
  | 7 => some ⟨s.a + word32 mem k, s.b + (word32 mem (k + 4) &&& 0xffffff#32), s.c⟩
  | 6 => some ⟨s.a + word32 mem k, s.b + (word32 mem (k + 4) &&& 0xffff#32), s.c⟩
  | 5 => some ⟨s.a + word32 mem k, s.b + (word32 mem (k + 4) &&& 0xff#32), s.c⟩
  | 4 => some ⟨s.a + word32 mem k, s.b, s.c⟩
  | 3 => some ⟨s.a + (word32 mem k &&& 0xffffff#32), s.b, s.c⟩
  | 2 => some ⟨s.a + (word32 mem k &&& 0xffff#32), s.b, s.c⟩
  | 1 => some ⟨s.a + (word32 mem k &&& 0xff#32), s.b, s.c⟩
  | _ => none

/-- The last block in words of two bytes; an odd byte is read as a byte. -/
def tail16 (k : ℕ) (s : Mix) : ℕ → Option Mix
  | 12 => some (add16 mem k s)
  | 11 => some ⟨s.a + pair16 mem k, s.b + pair16 mem (k + 4),
      s.c + byte mem (k + 10) 16 + word16 mem (k + 8)⟩
  | 10 => some ⟨s.a + pair16 mem k, s.b + pair16 mem (k + 4), s.c + word16 mem (k + 8)⟩
  | 9 => some ⟨s.a + pair16 mem k, s.b + pair16 mem (k + 4), s.c + byte mem (k + 8) 0⟩
  | 8 => some ⟨s.a + pair16 mem k, s.b + pair16 mem (k + 4), s.c⟩
  | 7 => some ⟨s.a + pair16 mem k, s.b + byte mem (k + 6) 16 + word16 mem (k + 4), s.c⟩
  | 6 => some ⟨s.a + pair16 mem k, s.b + word16 mem (k + 4), s.c⟩
  | 5 => some ⟨s.a + pair16 mem k, s.b + byte mem (k + 4) 0, s.c⟩
  | 4 => some ⟨s.a + pair16 mem k, s.b, s.c⟩
  | 3 => some ⟨s.a + byte mem (k + 2) 16 + word16 mem k, s.b, s.c⟩
  | 2 => some ⟨s.a + word16 mem k, s.b, s.c⟩
  | 1 => some ⟨s.a + byte mem k 0, s.b, s.c⟩
  | _ => none

/-- The last block, byte by byte.  All cases fall through: the byte `i` is added if `i < length`. -/
def tail8 (k : ℕ) (s : Mix) (length : ℕ) : Option Mix :=
  let at' (i shift : ℕ) : BitVec 32 := if i < length then byte mem (k + i) shift else 0
  if length = 0 ∨ 12 < length then none
  else some
    ⟨s.a + at' 3 24 + at' 2 16 + at' 1 8 + at' 0 0, s.b + at' 7 24 + at' 6 16 + at' 5 8 + at' 4 0,
      s.c + at' 11 24 + at' 10 16 + at' 9 8 + at' 8 0⟩

/-- **All but the last block**: the state, and where the last block is. -/
def blocks (add : ℕ → Mix → Mix) (k : ℕ) (s : Mix) (length : ℕ) : Mix × ℕ × ℕ :=
  if 12 < length then blocks add (k + 12) (mix (add k s)) (length - 12) else (s, k, length)
termination_by length

/-- One of the three ways to read a key. -/
def path (add : ℕ → Mix → Mix) (tail : ℕ → Mix → ℕ → Option Mix) (key length : ℕ) : BitVec 32 :=
  let x := BitVec.ofNat 32 (0xdeadbeef + length + 13)
  let (s, k, rest) := blocks add key ⟨x, x, x⟩ length
  match tail k s rest with
  | some s => final s
  | none => s.c

/-- **`hash_jenkins`**, of the `length` bytes at the address `key`. -/
def hashJenkins (key length : ℕ) : BitVec 32 :=
  if key % 4 = 0 then path (add32 mem) (tail32 mem) key length
  else if key % 2 = 0 then path (add16 mem) (tail16 mem) key length
  else path (add8 mem) (tail8 mem) key length

/-! ### Words and bytes -/

theorem byte_eq (p s : ℕ) : byte mem p s = BitVec.ofNat 32 ((mem p).toNat * 2 ^ s) := by
  apply BitVec.eq_of_toNat_eq
  rw [byte, BitVec.toNat_shiftLeft, BitVec.toNat_ofNat, BitVec.toNat_ofNat, Nat.shiftLeft_eq,
    Nat.mod_mul_mod]

/-- The number in the `n` bytes at `p`. -/
def low (p : ℕ) : ℕ → BitVec 32
  | 0 => 0#32
  | n + 1 => byte mem (p + n) (8 * n) + low p n

theorem word16_eq (p : ℕ) : word16 mem p = low mem p 2 := by
  simp only [word16, low, byte_eq, ← BitVec.ofNat_add, Nat.add_zero]
  congr 1
  omega

theorem word32_eq (p : ℕ) : word32 mem p = low mem p 4 := by
  simp only [word32, low, byte_eq, ← BitVec.ofNat_add, Nat.add_zero]
  congr 1
  omega

theorem pair16_eq (p : ℕ) : pair16 mem p = word32 mem p := by
  have hhigh : word16 mem (p + 2) <<< 16 =
      BitVec.ofNat 32 ((mem (p + 2)).toNat * 2 ^ 16 + (mem (p + 3)).toNat * 2 ^ 24) := by
    apply BitVec.eq_of_toNat_eq
    rw [word16, BitVec.toNat_shiftLeft, BitVec.toNat_ofNat, BitVec.toNat_ofNat, Nat.shiftLeft_eq,
      Nat.mod_mul_mod, Nat.add_mul, Nat.mul_assoc, ← Nat.pow_add]
  rw [pair16, hhigh, word16, ← BitVec.ofNat_add, word32, Nat.add_assoc, Nat.add_assoc,
    Nat.add_assoc]

theorem ofNat_and_mask (n w : ℕ) (hw : w ≤ 32) :
    BitVec.ofNat 32 n &&& BitVec.ofNat 32 (2 ^ w - 1) = BitVec.ofNat 32 (n % 2 ^ w) := by
  have hpow : 2 ^ w ≤ 2 ^ 32 := Nat.pow_le_pow_right (by decide) hw
  have hpos : 0 < 2 ^ w := Nat.two_pow_pos w
  have hmod : n % 2 ^ 32 % 2 ^ w = n % 2 ^ w := Nat.mod_mod_of_dvd n (Nat.pow_dvd_pow 2 hw)
  have hlt : n % 2 ^ w < 2 ^ 32 := (Nat.mod_lt n hpos).trans_le hpow
  apply BitVec.eq_of_toNat_eq
  rw [BitVec.toNat_and, BitVec.toNat_ofNat, BitVec.toNat_ofNat, BitVec.toNat_ofNat,
    Nat.mod_eq_of_lt (show 2 ^ w - 1 < 2 ^ 32 by omega), Nat.and_two_pow_sub_one_eq_mod, hmod,
    Nat.mod_eq_of_lt hlt]

/-- **A mask keeps the low bytes**, and what is behind the key is masked off. -/
theorem word32_and (p n : ℕ) (hn : n < 4) :
    word32 mem p &&& BitVec.ofNat 32 (2 ^ (8 * n) - 1) = low mem p n := by
  have h₀ := (mem p).toNat_lt
  have h₁ := (mem (p + 1)).toNat_lt
  have h₂ := (mem (p + 2)).toNat_lt
  rw [word32, ofNat_and_mask _ _ (by omega)]
  interval_cases n
  all_goals
    simp only [low, byte_eq, ← BitVec.ofNat_add, Nat.add_zero]
    congr 1
    omega

/-! ### The ways to read agree -/

theorem add_low (x : BitVec 32) (p : ℕ) : x + low mem p 4 =
    x + byte mem p 0 + byte mem (p + 1) 8 + byte mem (p + 2) 16 + byte mem (p + 3) 24 := by
  have hsum : ∀ y z u v : BitVec 32, x + (v + (u + (z + (y + 0#32)))) = x + y + z + u + v := by
    intro y z u v
    rw [BitVec.add_zero]
    ac_rfl
  exact hsum _ _ _ _

theorem add32_eq (k : ℕ) (s : Mix) : add32 mem k s = add8 mem k s := by
  simp only [add32, add8, word32_eq, add_low]

theorem add16_eq (k : ℕ) (s : Mix) : add16 mem k s = add8 mem k s := by
  rw [← add32_eq]
  simp only [add16, add32, pair16_eq]

theorem tail32_eq (k : ℕ) (s : Mix) {n : ℕ} (hn : n ≤ 12) : tail32 mem k s n = tail8 mem k s n := by
  have h₃ : ∀ p, word32 mem p &&& 0xffffff#32 = low mem p 3 := fun p =>
    word32_and mem p 3 (by decide)
  have h₂ : ∀ p, word32 mem p &&& 0xffff#32 = low mem p 2 := fun p => word32_and mem p 2 (by decide)
  have h₁ : ∀ p, word32 mem p &&& 0xff#32 = low mem p 1 := fun p => word32_and mem p 1 (by decide)
  interval_cases n
  all_goals
    simp only [tail32, add32, h₁, h₂, h₃]
    simp [tail8, word32_eq, low, Nat.add_assoc, BitVec.add_assoc]

theorem tail16_eq (k : ℕ) (s : Mix) {n : ℕ} (hn : n ≤ 12) : tail16 mem k s n = tail8 mem k s n := by
  interval_cases n
  all_goals
    simp only [tail16, add16, pair16_eq]
    simp [tail8, word32_eq, word16_eq, low, Nat.add_assoc, BitVec.add_assoc]

/-! ### The hash of a key -/

theorem blocks_of_lt {n : ℕ} (h : 12 < n) (add : ℕ → Mix → Mix) (k : ℕ) (s : Mix) :
    blocks add k s n = blocks add (k + 12) (mix (add k s)) (n - 12) := by
  rw [blocks, if_pos h]

theorem blocks_of_le {n : ℕ} (h : ¬ 12 < n) (add : ℕ → Mix → Mix) (k : ℕ) (s : Mix) :
    blocks add k s n = (s, k, n) := by
  rw [blocks, if_neg h]

theorem blocks_rest_le (add : ℕ → Mix → Mix) (k : ℕ) (s : Mix) (n : ℕ) :
    (blocks add k s n).2.2 ≤ 12 := by
  induction n using Nat.strong_induction_on generalizing k s with
  | _ n ih =>
    by_cases hlong : 12 < n
    · rw [blocks_of_lt hlong]
      exact ih (n - 12) (by omega) _ _
    · rw [blocks_of_le hlong]
      exact Nat.not_lt.1 hlong

/-- **Every way to read a key is as good as byte by byte.** -/
theorem path_eq {add : ℕ → Mix → Mix} {tail : ℕ → Mix → ℕ → Option Mix}
    (hadd : ∀ k s, add k s = add8 mem k s) (htail : ∀ k s n, n ≤ 12 → tail k s n = tail8 mem k s n)
    (key length : ℕ) : path add tail key length = path (add8 mem) (tail8 mem) key length := by
  obtain rfl : add = add8 mem := funext fun k => funext (hadd k)
  simp only [path]
  rw [htail _ _ _ (blocks_rest_le _ _ _ _)]

theorem hashJenkins_eq (key length : ℕ) :
    hashJenkins mem key length = path (add8 mem) (tail8 mem) key length := by
  rw [hashJenkins]
  split
  · exact path_eq mem (add32_eq mem) (fun k s _ => tail32_eq mem k s) key length
  · split
    · exact path_eq mem (add16_eq mem) (fun k s _ => tail16_eq mem k s) key length
    · rfl

section Congr

variable {mem} {mem' : ℕ → Byte} {k k' n : ℕ}

theorem add8_congr (h : ∀ i < 12, mem (k + i) = mem' (k' + i)) (s : Mix) :
    add8 mem k s = add8 mem' k' s := by
  have hbyte : ∀ i < 12, ∀ x, byte mem (k + i) x = byte mem' (k' + i) x := by
    intro i hi x
    rw [byte, byte, h i hi]
  have hfirst : ∀ x, byte mem k x = byte mem' k' x := hbyte 0 (by decide)
  simp only [add8, hfirst, hbyte 1, hbyte 2, hbyte 3, hbyte 4, hbyte 5, hbyte 6, hbyte 7, hbyte 8,
    hbyte 9,
    hbyte 10, hbyte 11, Nat.reduceLT]

theorem tail8_congr (h : ∀ i < n, mem (k + i) = mem' (k' + i)) (s : Mix) :
    tail8 mem k s n = tail8 mem' k' s n := by
  have hbyte : ∀ i x, (if i < n then byte mem (k + i) x else 0) =
      if i < n then byte mem' (k' + i) x else 0 := by
    intro i x
    split
    · next hi => rw [byte, byte, h i hi]
    · rfl
  simp only [tail8, hbyte]

/-- The loop goes through keys with the same bytes alike. -/
theorem blocks_congr (h : ∀ i < n, mem (k + i) = mem' (k' + i)) (s : Mix) :
    ∃ s' j r, j + r = n ∧ blocks (add8 mem) k s n = (s', k + j, r) ∧
      blocks (add8 mem') k' s n = (s', k' + j, r) := by
  induction n using Nat.strong_induction_on generalizing k k' s with
  | _ n ih =>
    by_cases hlong : 12 < n
    · -- the first twelve bytes are mixed in alike, and the others are those of a shorter key
      have hrest : ∀ i < n - 12, mem (k + 12 + i) = mem' (k' + 12 + i) := by
        intro i hi
        rw [Nat.add_assoc, Nat.add_assoc]
        exact h (12 + i) (by omega)
      obtain ⟨s', j, r, hjr, h₁, h₂⟩ := ih (n - 12) (by omega) hrest (mix (add8 mem k s))
      refine ⟨s', 12 + j, r, by omega, ?_, ?_⟩
      · rw [blocks_of_lt hlong, h₁, Nat.add_assoc]
      · rw [blocks_of_lt hlong, ← add8_congr (fun i hi => h i (by omega)), h₂, Nat.add_assoc]
    · exact ⟨s, 0, n, Nat.zero_add n, blocks_of_le hlong _ _ _, blocks_of_le hlong _ _ _⟩

end Congr

variable {mem}

/-- **The hash of a key depends on its bytes only**: neither on its address nor on the bytes around
it. -/
theorem hashJenkins_congr {mem' : ℕ → Byte} {key key' length : ℕ}
    (h : ∀ i < length, mem (key + i) = mem' (key' + i)) :
    hashJenkins mem key length = hashJenkins mem' key' length := by
  rw [hashJenkins_eq, hashJenkins_eq, path, path]
  obtain ⟨s, j, r, hjr, h₁, h₂⟩ := blocks_congr h ⟨BitVec.ofNat 32 (0xdeadbeef + length + 13),
    BitVec.ofNat 32 (0xdeadbeef + length + 13), BitVec.ofNat 32 (0xdeadbeef + length + 13)⟩
  have htail : tail8 mem (key + j) s r = tail8 mem' (key' + j) s r := by
    refine tail8_congr (fun i hi => ?_) s
    rw [Nat.add_assoc, Nat.add_assoc]
    exact h (j + i) (by omega)
  simp only [h₁, h₂, htail]

/-- An aligned key, and one that is not, with other bytes around it. -/
theorem hashJenkins_congr_user : hashJenkins (fun i => (str "user:1 x").getD i 0) 0 6 =
    hashJenkins (fun i => (str "?user:1").getD i 0) 1 6 :=
  hashJenkins_congr (by decide)

end Jenkins

end CacheProxy
