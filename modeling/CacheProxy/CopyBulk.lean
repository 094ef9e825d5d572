/-
**Moving one bulk from a message to another.**

`redis_copy_bulk` takes the bulk at the start of a chain: buffers that belong to it as a whole
change hands, and of the last one the bytes are copied.  The length is read from the bulk's first
line, which has to lie in one buffer, and is summed in 32 bits.

Main definitions:

* `copyBulkLen` — the length the source computes from the first line;
* `eatChain`, `copyChain`, `redisCopyBulk` — the loop over the buffers and the function;
* `Unsplit` — no buffer starts inside the first line of one of the pieces of a chain;
* `Opens` — a machine has a token open there.

Main results:

* `content_eatChain`, `content_copyChain` — what is left, and what is moved;
* `redisCopyBulk_spec` — **a bulk of less than `2 ^ 32` bytes is moved as a whole**, and of a longer
  one only the remainder modulo `2 ^ 32`;
* `redisCopyBulk_moves` — **exactly one bulk changes hands**, however the chain is cut.
-/

import CacheProxy.RedisEncoding
import Mathlib.Data.List.TakeWhile

namespace CacheProxy

open Decimal

/-! ### The function -/

/-- The number of bytes of the bulk at the start of `body`: `$-1 CR LF`, or the number behind the
`$` and the bytes around it, in 32 bits. -/
def copyBulkLen (body : List Byte) : ℕ :=
  match body.drop 1 with
  | 45 :: 49 :: _ => 5
  | ds =>
      wrap32 (valueModFrom (2 ^ 32) 0 (ds.takeWhile isDigit) + 4 +
        (1 + (ds.takeWhile isDigit).length))

/-- What the loop leaves of the source's chain. -/
def eatChain : ℕ → List Mbuf → List Mbuf
  | _, [] => []
  | len, b :: bs =>
      if mbufLength b ≤ len then eatChain (len - mbufLength b) bs else b.advance len :: bs

/-- What the loop does to the destination: whole buffers are taken over, and of the last one `len`
bytes are appended. -/
def copyChain (size id : ℕ) (dst : MsgBuf) : ℕ → List Mbuf → MsgBuf
  | _, [] => dst
  | len, b :: bs =>
      if mbufLength b ≤ len then
        copyChain size id { dst with mhdr := dst.mhdr ++ [b] } (len - mbufLength b) bs
      else msgAppend size id dst (b.body.take len)

/-- **`redis_copy_bulk`**; without a destination the bulk is eaten.  `none` is `NC_ERROR`. -/
def redisCopyBulk (size id : ℕ) (dst : Option MsgBuf) (src : MsgBuf) :
    Option (Option MsgBuf × MsgBuf) :=
  match src.mhdr.dropWhile (fun b => b.body.isEmpty) with
  | [] => none
  | b :: bs =>
      let bytes := copyBulkLen b.body
      some
        (dst.map fun d =>
          let d' := copyChain size id d bytes (b :: bs)
          { d' with mlen := wrap32 (d'.mlen + bytes) },
        { mhdr := eatChain bytes (b :: bs), mlen := sub32 src.mlen bytes })

/-! ### The loop -/

theorem content_eatChain (n : ℕ) (mhdr : List Mbuf) :
    content (eatChain n mhdr) = (content mhdr).drop n := by
  induction mhdr generalizing n with
  | nil => simp [eatChain]
  | cons b bs ih =>
      rw [eatChain, content_cons, List.drop_append]
      split
      · next hle =>
          rw [ih, List.drop_of_length_le hle, List.nil_append]
          rfl
      · next hgt =>
          have hzero : n - b.body.length = 0 := by
            simp only [mbufLength] at hgt
            omega
          rw [hzero, List.drop_zero, content_cons, Mbuf.advance_body]

theorem content_copyChain (size id : ℕ) (dst : MsgBuf) (n : ℕ) (mhdr : List Mbuf) :
    (copyChain size id dst n mhdr).bytes = dst.bytes ++ (content mhdr).take n := by
  induction mhdr generalizing n dst with
  | nil => simp [copyChain]
  | cons b bs ih =>
      rw [copyChain, content_cons, List.take_append]
      split
      · next hle =>
          rw [ih, List.take_of_length_le hle]
          simp [MsgBuf.bytes, mbufLength]
      · next hgt =>
          have hzero : n - b.body.length = 0 := by
            simp only [mbufLength] at hgt
            omega
          rw [hzero, List.take_zero, List.append_nil, msgAppend_bytes]

theorem content_dropWhile_isEmpty (mhdr : List Mbuf) :
    content (mhdr.dropWhile fun b => b.body.isEmpty) = content mhdr := by
  induction mhdr with
  | nil => rfl
  | cons b bs ih =>
      rw [List.dropWhile_cons]
      split
      · next hemp => rw [ih, content_cons, List.isEmpty_iff.1 hemp, List.nil_append]
      · rfl

/-! ### Where the buffers start -/

/-- The buffers that are left start where they did. -/
theorem Starts.of_eatChain {k n : ℕ} {mhdr : List Mbuf} (h : Starts (eatChain k mhdr) n) :
    n = 0 ∨ Starts mhdr (n + k) := by
  induction mhdr generalizing k n with
  | nil => exact absurd h not_starts_nil
  | cons b bs ih =>
      rw [eatChain] at h
      split at h
      · next hle =>
          rcases ih h with rfl | hs
          · exact .inl rfl
          · refine .inr (starts_cons.2 (.inr ⟨_, hs, ?_⟩))
            simp only [mbufLength] at hle ⊢
            omega
      · next hgt =>
          rcases starts_cons.1 h with rfl | ⟨m, hm, rfl⟩
          · exact .inl rfl
          · refine .inr (starts_cons.2 (.inr ⟨m, hm, ?_⟩))
            simp only [mbufLength] at hgt
            simp only [Mbuf.advance_body, List.length_drop]
            omega

/-- The buffers that are left when the empty ones at the front are gone start where they did. -/
theorem Starts.of_dropWhile {n : ℕ} {mhdr : List Mbuf}
    (h : Starts (mhdr.dropWhile fun b => b.body.isEmpty) n) : Starts mhdr n := by
  induction mhdr with
  | nil => exact h
  | cons b bs ih =>
      rw [List.dropWhile_cons] at h
      split at h
      · next hemp =>
          refine starts_cons.2 (.inr ⟨n, ih h, ?_⟩)
          simp [List.isEmpty_iff.1 hemp]
      · exact h

/-- The first line of a piece: the bytes up to its carriage return, and the carriage return. -/
def headLen (piece : List Byte) : ℕ := (piece.takeWhile fun c => c != CR).length + 1

/-- **No buffer starts inside the first line of a piece**, for pieces from offset `off` on. -/
def Unsplit (mhdr : List Mbuf) : ℕ → List (List Byte) → Prop
  | _, [] => True
  | off, p :: ps =>
      (∀ n, Starts mhdr n → n ≤ off ∨ off + headLen p ≤ n) ∧ Unsplit mhdr (off + p.length) ps

theorem Unsplit.eatChain {mhdr : List Mbuf} {k off : ℕ} {ps : List (List Byte)}
    (h : Unsplit mhdr (off + k) ps) : Unsplit (eatChain k mhdr) off ps := by
  induction ps generalizing off with
  | nil => trivial
  | cons p ps ih =>
      refine ⟨fun n hn => ?_, ih (by rw [Nat.add_right_comm]; exact h.2)⟩
      rcases hn.of_eatChain with rfl | hs
      · exact .inl (Nat.zero_le _)
      · have := h.1 _ hs
        omega

theorem Unsplit.dropWhile {mhdr : List Mbuf} {off : ℕ} {ps : List (List Byte)}
    (h : Unsplit mhdr off ps) : Unsplit (mhdr.dropWhile fun b => b.body.isEmpty) off ps := by
  induction ps generalizing off with
  | nil => trivial
  | cons p ps ih => exact ⟨fun n hn => h.1 n hn.of_dropWhile, ih h.2⟩

/-- The first line of the first piece lies in the first buffer. -/
theorem Unsplit.head_prefix {b : Mbuf} {bs : List Mbuf} {p : List Byte} {ps : List (List Byte)}
    (h : Unsplit (b :: bs) 0 (p :: ps)) (hb : b.body ≠ []) (hlen : headLen p ≤ p.length)
    (hcont : p <+: content (b :: bs)) : p.take (headLen p) <+: b.body := by
  rw [content_cons] at hcont
  have hfit : headLen p ≤ b.body.length := by
    cases bs with
    | nil =>
        have := hcont.length_le
        rw [content_nil, List.append_nil] at this
        omega
    | cons c cs =>
        have hs : Starts (b :: c :: cs) b.body.length :=
          starts_cons.2 (.inr ⟨0, starts_cons.2 (.inl rfl), rfl⟩)
        have hpos : 0 < b.body.length := List.length_pos_iff.2 hb
        have := h.1 _ hs
        omega
  refine List.prefix_of_prefix_length_le ((List.take_prefix _ _).trans hcont)
    (List.prefix_append _ _) ?_
  rw [List.length_take]
  omega

/-- **The machine keeps a token open in the first line of each piece.** -/
def Opens {α ω : Type} (M : ByteMachine α ω) (ok : α → Prop) : α → List (List Byte) → Prop
  | _, [] => True
  | a, p :: ps =>
      (∀ i a', 0 < i → i < headLen p → M.Leads ok a (p.take i) a' → M.token a' ≠ []) ∧
      (ps = [] ∨ ∃ a₁, M.Leads ok a p a₁ ∧ Opens M ok a₁ ps)

/-- Buffers that start outside of tokens do not start in the first line of a piece; `h` bytes of
the message, the first of `v`, are not in the chain any more. -/
theorem Opens.unsplit {α ω : Type} {M : ByteMachine α ω} {ok : α → Prop} {a : α} {mhdr : List Mbuf}
    {f v : List Byte} {h off : ℕ} {ps : List (List Byte)} (hps : Opens M ok a ps)
    (hv : M.Leads ok M.init v a) (hf : f = v ++ ps.flatten) (hoff : off + h = v.length)
    (hlen : ∀ p ∈ ps, headLen p ≤ p.length)
    (hstarts : ∀ n, Starts mhdr n → n = 0 ∨
      ∃ a', M.Leads ok M.init (f.take (n + h)) a' ∧ M.token a' = []) :
    Unsplit mhdr off ps := by
  induction ps generalizing a v off with
  | nil => trivial
  | cons p ps ih =>
      obtain ⟨hopen, hnext⟩ := hps
      refine ⟨fun n hn => ?_, ?_⟩
      · by_contra hin
        obtain ⟨a', hl, htok⟩ := (hstarts n hn).resolve_left (by omega)
        have hle := hlen p (by simp)
        have htake : f.take (n + h) = v ++ p.take (n - off) := by
          rw [hf, List.flatten_cons, List.take_append, List.take_of_length_le (by omega),
            List.take_append, show n + h - v.length = n - off by omega,
            show n - off - p.length = 0 by omega, List.take_zero, List.append_nil]
        rw [htake] at hl
        obtain ⟨a₁, h₁, h₂⟩ := ByteMachine.leads_append.1 hl
        cases h₁.unique hv
        exact hopen (n - off) a' (by omega) (by omega) h₂ htok
      · rcases hnext with rfl | ⟨a₁, hl, hps⟩
        · trivial
        · refine ih hps (hv.trans hl) (by rw [hf]; simp) ?_ fun q hq => hlen q (by simp [hq])
          rw [List.length_append, ← hoff]
          omega

/-! ### Bulks -/

/-- The reply for a key that does not exist. -/
def nullBulk : List Byte := str "$-1" ++ [CR, LF]

/-- **A bulk**: of a value whose length fits in 32 bits, or the null bulk. -/
def IsBulk (p : List Byte) : Prop := p = nullBulk ∨ ∃ v : List Byte, v.length < 2 ^ 32 ∧ p = bulk v

theorem bulk_eq (v : List Byte) :
    bulk v = 36 :: (numeral v.length ++ CR :: (LF :: (v ++ [CR, LF]))) := by
  simp [bulk, bulkBody]

theorem length_bulk (v : List Byte) : (bulk v).length = v.length +
    (numeral v.length).length + 5 := by
  rw [bulk_eq]
  simp only [List.length_cons, List.length_append, List.length_nil]
  omega

theorem take_bulk {v : List Byte} {i : ℕ} (hpos : 0 < i) (hi : i ≤ (numeral v.length).length + 1) :
    (bulk v).take i = 36 :: (numeral v.length).take (i - 1) := by
  obtain ⟨j, rfl⟩ : ∃ j, i = j + 1 := ⟨i - 1, by omega⟩
  rw [bulk_eq, List.take_succ_cons, List.take_append_of_le_length (by omega)]
  rfl

theorem numeral_ne_cr {n : ℕ} {c : Byte} (h : c ∈ numeral n) : c ≠ CR := by
  rintro rfl
  exact absurd (isDigit_of_mem_numeral h) (by decide)

theorem headLen_bulk (v : List Byte) : headLen (bulk v) = (numeral v.length).length + 2 := by
  have htake : (bulk v).takeWhile (fun c => c != CR) = 36 :: numeral v.length := by
    rw [bulk_eq, List.takeWhile_cons_of_pos (by decide),
      List.takeWhile_append_of_pos (fun c hc => by simpa using numeral_ne_cr hc)]
    simp
  rw [headLen, htake, List.length_cons]

theorem IsBulk.headLen_le {p : List Byte} (h : IsBulk p) : headLen p ≤ p.length := by
  rcases h with rfl | ⟨v, -, rfl⟩
  · decide
  · rw [headLen_bulk, length_bulk]
    omega

theorem IsBulk.ne_nil {p : List Byte} (h : IsBulk p) : p ≠ [] := by
  rintro rfl
  exact absurd h.headLen_le (by decide)

/-- **The length is read off the first line**, modulo `2 ^ 32`. -/
theorem IsBulk.copyBulkLen_eq {p body : List Byte} (h : IsBulk p)
    (hpre : p.take (headLen p) <+: body) : copyBulkLen body = wrap32 p.length := by
  obtain ⟨rest, rfl⟩ := hpre
  rcases h with rfl | ⟨v, hv, rfl⟩
  · rfl
  · have htake : (bulk v).take (headLen (bulk v)) = 36 :: (numeral v.length ++ [CR]) := by
      rw [headLen_bulk, bulk_eq, List.take_succ_cons, List.take_append,
        List.take_of_length_le (Nat.le_succ _)]
      simp
    have hdigits : (numeral v.length ++ CR :: rest).takeWhile isDigit = numeral v.length := by
      rw [List.takeWhile_append_of_pos (fun c hc => isDigit_of_mem_numeral hc)]
      simp [show isDigit CR = false by decide]
    obtain ⟨d, ds, hd⟩ := List.exists_cons_of_ne_nil (numeral_ne_nil v.length)
    have hdig : isDigit d = true := isDigit_of_mem_numeral (by rw [hd]; simp)
    -- the first digit is not a minus sign
    have hlen : copyBulkLen (36 :: (numeral v.length ++ CR :: rest)) =
        wrap32 (valueModFrom (2 ^ 32) 0 (numeral v.length) + 4 +
          (1 + (numeral v.length).length)) := by
      unfold copyBulkLen
      split
      · next heq =>
          rw [List.drop_one, List.tail_cons, hd, List.cons_append] at heq
          rw [(List.cons.inj heq).1] at hdig
          exact absurd hdig (by decide)
      · rw [List.drop_one, List.tail_cons, hdigits]
    rw [htake, List.cons_append, List.append_assoc]
    refine hlen.trans ?_
    rw [valueMod_eq, value_numeral, Nat.mod_eq_of_lt hv, length_bulk]
    congr 1
    omega

/-- The first buffer with bytes, and the length that is read there. -/
theorem exists_first_buffer {mhdr : List Mbuf} {p rest : List Byte} {ps : List (List Byte)}
    (hp : IsBulk p) (hcont : content mhdr = p ++ rest) (hun : Unsplit mhdr 0 (p :: ps)) :
    ∃ b bs, mhdr.dropWhile (fun b => b.body.isEmpty) = b :: bs ∧
      copyBulkLen b.body = wrap32 p.length := by
  have hcont' := (content_dropWhile_isEmpty mhdr).trans hcont
  have hun' := hun.dropWhile
  cases hd : mhdr.dropWhile (fun b => b.body.isEmpty) with
  | nil =>
      rw [hd, content_nil] at hcont'
      exact absurd (List.append_eq_nil_iff.1 hcont'.symm).1 hp.ne_nil
  | cons b bs =>
      rw [hd] at hcont' hun'
      have hb : b.body ≠ [] := by
        have hne := List.head_dropWhile_not (fun b : Mbuf => b.body.isEmpty)
          (show mhdr.dropWhile (fun b => b.body.isEmpty) ≠ [] by rw [hd]; simp)
        simp only [hd, List.head_cons] at hne
        simpa using hne
      refine ⟨b, bs, rfl, hp.copyBulkLen_eq (hun'.head_prefix hb hp.headLen_le ?_)⟩
      rw [hcont']
      exact List.prefix_append _ _

section

variable {size id : ℕ} {src : MsgBuf} {p rest : List Byte} {ps : List (List Byte)} (hp : IsBulk p)
  (hcont : src.bytes = p ++ rest) (hun : Unsplit src.mhdr 0 (p :: ps))

include hp hcont hun

/-- The function on a chain that begins with a bulk. -/
theorem redisCopyBulk_eq (dst : Option MsgBuf) :
    redisCopyBulk size id dst src = some
      (dst.map fun d =>
        { copyChain size id d (wrap32 p.length) (src.mhdr.dropWhile fun b => b.body.isEmpty) with
          mlen := wrap32 ((copyChain size id d (wrap32 p.length)
            (src.mhdr.dropWhile fun b => b.body.isEmpty)).mlen + wrap32 p.length) },
      { mhdr := eatChain (wrap32 p.length) (src.mhdr.dropWhile fun b => b.body.isEmpty)
        mlen := sub32 src.mlen (wrap32 p.length) }) := by
  obtain ⟨b, bs, hd, hlen⟩ := exists_first_buffer hp hcont hun
  simp only [redisCopyBulk, hd, hlen]

variable (hshort : p.length < 2 ^ 32)

include hshort

omit hp in
/-- What is left behind a bulk. -/
theorem redisCopyBulk_rest :
    content (eatChain (wrap32 p.length) (src.mhdr.dropWhile fun b => b.body.isEmpty)) = rest ∧
      Unsplit (eatChain (wrap32 p.length) (src.mhdr.dropWhile fun b => b.body.isEmpty)) 0 ps := by
  rw [wrap32_of_lt hshort]
  constructor
  · rw [content_eatChain, content_dropWhile_isEmpty]
    change src.bytes.drop p.length = rest
    rw [hcont, List.drop_left]
  · exact Unsplit.eatChain hun.dropWhile.2

/-- **A bulk is eaten as a whole.** -/
theorem redisCopyBulk_eat :
    ∃ src', redisCopyBulk size id none src = some (none, src') ∧ src'.bytes = rest ∧
      Unsplit src'.mhdr 0 ps ∧ src'.mlen = sub32 src.mlen p.length := by
  obtain ⟨hrest, hun'⟩ := redisCopyBulk_rest hcont hun hshort
  refine ⟨_, redisCopyBulk_eq hp hcont hun none, hrest, hun', ?_⟩
  rw [wrap32_of_lt hshort]

omit hshort in
/-- **A bulk is moved** as far as its length modulo `2 ^ 32` says: as a whole if it has less than
`2 ^ 32` bytes. -/
theorem redisCopyBulk_spec (d : MsgBuf) :
    ∃ d' src', redisCopyBulk size id (some d) src = some (some d', src') ∧
      d'.bytes = d.bytes ++ (p ++ rest).take (p.length % 2 ^ 32) ∧
      (p.length < 2 ^ 32 → src'.bytes = rest ∧ Unsplit src'.mhdr 0 ps ∧
        src'.mlen = sub32 src.mlen p.length) := by
  refine ⟨_, _, redisCopyBulk_eq hp hcont hun (some d), ?_, fun hshort => ?_⟩
  · change (copyChain _ _ _ _ _).bytes = _
    rw [content_copyChain, content_dropWhile_isEmpty, ← hcont]
    rfl
  · obtain ⟨hrest, hun'⟩ := redisCopyBulk_rest hcont hun hshort
    refine ⟨hrest, hun', ?_⟩
    rw [wrap32_of_lt hshort]

end

/-! ### One bulk, from any chain to any message -/

theorem sub32_add {a b : ℕ} (h : b ≤ a) (ha : a < 2 ^ 32) : sub32 a b + b = a := by
  unfold sub32 wrap32
  omega

/-- The length, when the first line of the bulk lies in the first buffer with bytes. -/
theorem exists_first_line {mhdr : List Mbuf} {p rest : List Byte} (hp : IsBulk p)
    (hcont : content mhdr = p ++ rest)
    (hline : ∀ b, (mhdr.find? fun b => !b.body.isEmpty) = some b → p.take (headLen p) <+: b.body) :
    ∃ b bs, mhdr.dropWhile (fun b => b.body.isEmpty) = b :: bs ∧
      copyBulkLen b.body = wrap32 p.length := by
  cases hd : mhdr.dropWhile (fun b => b.body.isEmpty) with
  | nil =>
      have hnil := (content_dropWhile_isEmpty mhdr).trans hcont
      rw [hd, content_nil] at hnil
      exact absurd (List.append_eq_nil_iff.1 hnil.symm).1 hp.ne_nil
  | cons b bs =>
      have hfirst : (mhdr.find? fun b => !b.body.isEmpty) = some b := by
        rw [List.find?_not_eq_head?_dropWhile, hd, List.head?_cons]
      exact ⟨b, bs, rfl, hp.copyBulkLen_eq (hline b hfirst)⟩

/-- **`redis_copy_bulk` moves exactly one bulk.**  The chain of the source begins with a bulk of
less than `2 ^ 32` bytes, cut into buffers in any way, empty ones among them, as long as the first
line up to its carriage return lies in the first buffer with bytes; the destination is any message,
or none. -/
theorem redisCopyBulk_moves (size id : ℕ) (src : MsgBuf) {p rest : List Byte}
    (hp : p = nullBulk ∨ ∃ v, p = bulk v) (hshort : p.length < 2 ^ 32)
    (hcont : src.bytes = p ++ rest)
    (hline : ∀ b, (src.mhdr.find? fun b => !b.body.isEmpty) = some b →
      p.take (headLen p) <+: b.body)
    (dst : Option MsgBuf) :
    ∃ dst' src', redisCopyBulk size id dst src = some (dst', src') ∧
      src'.bytes = rest ∧
      src'.mlen = sub32 src.mlen p.length ∧
      (p.length ≤ src.mlen → src.mlen < 2 ^ 32 → src'.mlen + p.length = src.mlen) ∧
      dst'.map MsgBuf.bytes = dst.map fun d => d.bytes ++ p := by
  have hbulk : IsBulk p := by
    rcases hp with rfl | ⟨v, rfl⟩
    · exact .inl rfl
    · refine .inr ⟨v, ?_, rfl⟩
      rw [length_bulk] at hshort
      omega
  obtain ⟨b, bs, hd, hlen⟩ := exists_first_line hbulk hcont hline
  rw [wrap32_of_lt hshort] at hlen
  have hchain : content (b :: bs) = p ++ rest := by
    rw [← hd, content_dropWhile_isEmpty]
    exact hcont
  refine ⟨_, _, by rw [redisCopyBulk, hd], ?_, ?_, ?_, ?_⟩
  · change content (eatChain _ (b :: bs)) = rest
    rw [hlen, content_eatChain, hchain, List.drop_left]
  · dsimp only
    rw [hlen]
  · intro hle hlt
    dsimp only
    rw [hlen]
    exact sub32_add hle hlt
  · rw [Option.map_map]
    congr 1
    funext d
    change (copyChain _ _ _ _ (b :: bs)).bytes = _
    rw [content_copyChain, hlen, hchain, List.take_left]

/-- An empty buffer, then `$3 CR`, and in the last buffer the rest of the bulk with a byte behind
it. -/
def threeBuffers : MsgBuf :=
  { mhdr := [{ id := 0 }, { id := 1, body := str "$3" ++ [CR] },
    { id := 2, body := LF :: str "abc" ++ [CR, LF, 43] }]
    mlen := 10 }

theorem redisCopyBulk_moves_threeBuffers :
    ∃ dst' src', redisCopyBulk 16 7 (some { mhdr := [{ id := 9, body := str "x" }], mlen := 1 })
      threeBuffers =
        some (dst', src') ∧
      src'.bytes = [43] ∧ src'.mlen + 9 = 10 ∧
        dst'.map MsgBuf.bytes = some (str "x" ++ bulk (str "abc")) := by
  obtain ⟨dst', src', h, hsrc, -, hmlen, hdst⟩ := redisCopyBulk_moves 16 7 threeBuffers
    (.inr ⟨str "abc", rfl⟩) (by decide) (show _ = _ ++ [43] by decide)
    (fun b hb => by cases hb; decide)
    (some { mhdr := [{ id := 9, body := str "x" }], mlen := 1 })
  exact ⟨dst', src', h, hsrc, hmlen (by decide) (by decide), hdst⟩

end CacheProxy
