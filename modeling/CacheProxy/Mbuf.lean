/-
**Mbufs and the byte content of a message.**

The bytes of a message are a chain of *mbufs*, chunks of one fixed data size.  A chain is written
at its end (`msg_append`), grows at its head (`msg_prepend_format`), is cut (`mbuf_split`) and is
read from its front; positions inside it are pointers into single mbufs.

An mbuf is modelled by the bytes before its marker `pos` and the bytes from there to `last`, so
the marker is inside the buffer by construction.  A pointer is the identity of an mbuf and an
offset from its start.

Main definitions:

* `Mbuf`, `mbufSplit`, `mbufCopy`, `mbufRewind` — a buffer and its operations;
* `content` — the bytes of a chain that are not yet sent or consumed;
* `KeyPos`, `keyBytes` — a pair of pointers, and the bytes between them;
* `MsgBuf`, `msgEnsureMbuf`, `msgAppend`, `msgPrependFormat` — a chain with its recorded length.
-/

import CacheProxy.Decimal

namespace CacheProxy

/-! ### Words -/

/-- The values of a `uint32_t`. -/
def wrap32 (n : ℕ) : ℕ := n % 2 ^ 32

theorem wrap32_of_lt {n : ℕ} (h : n < 2 ^ 32) : wrap32 n = n := Nat.mod_eq_of_lt h

/-- `CR` and `LF`. -/
def CR : Byte := 13

@[inherit_doc CR]
def LF : Byte := 10

/-- The bytes of an ASCII text. -/
def str (s : String) : List Byte := s.toList.map fun c => UInt8.ofNat c.toNat

/-! ### Slices -/

/-- The bytes from offset `i` up to offset `j`. -/
def slice (data : List Byte) (i j : ℕ) : List Byte := (data.take j).drop i

@[simp] theorem slice_self (data : List Byte) (i : ℕ) : slice data i i = [] := by
  rw [slice, List.drop_eq_nil_iff, List.length_take]
  exact Nat.min_le_left _ _

theorem slice_length {data : List Byte} {i j : ℕ} (hj : j ≤ data.length) :
    (slice data i j).length = j - i := by
  rw [slice, List.length_drop, List.length_take, Nat.min_eq_left hj]

theorem slice_append_slice {data : List Byte} {i j k : ℕ} (hij : i ≤ j) (hjk : j ≤ k)
    (hk : k ≤ data.length) : slice data i j ++ slice data j k = slice data i k := by
  have hcut : data.take k = data.take j ++ (data.take k).drop j := by
    conv_lhs => rw [← List.take_append_drop j (data.take k), List.take_take, Nat.min_eq_left hjk]
  have hlen : i ≤ (data.take j).length := by
    rw [List.length_take]
    omega
  simp only [slice]
  conv_rhs => rw [hcut, List.drop_append_of_le_length hlen]

theorem slice_drop {data : List Byte} {i j : ℕ} (hij : i ≤ j) :
    slice data i j ++ data.drop j = data.drop i := by
  rcases Nat.le_total j data.length with hj | hj
  · conv_rhs => rw [← List.take_append_drop j data]
    rw [List.drop_append_of_le_length (by rw [List.length_take]; omega)]
    rfl
  · rw [slice, List.take_of_length_le hj, List.drop_of_length_le hj, List.append_nil]

theorem drop_eq_cons {data : List Byte} {p : ℕ} {ch : Byte} (h : data[p]? = some ch) :
    data.drop p = ch :: data.drop (p + 1) := by
  obtain ⟨hp, rfl⟩ := List.getElem?_eq_some_iff.1 h
  exact List.drop_eq_getElem_cons hp

theorem slice_succ {data : List Byte} {i p : ℕ} {ch : Byte} (hi : i ≤ p)
    (h : data[p]? = some ch) : slice data i (p + 1) = slice data i p ++ [ch] := by
  obtain ⟨hp, rfl⟩ := List.getElem?_eq_some_iff.1 h
  rw [← slice_append_slice hi (Nat.le_succ p) hp]
  congr 1
  rw [slice, List.take_succ_eq_append_getElem hp, List.drop_left' (by simp; omega)]

theorem slice_append_left {data bs : List Byte} {i j : ℕ} (hj : j ≤ data.length) :
    slice (data ++ bs) i j = slice data i j := by
  rw [slice, List.take_append_of_le_length hj]
  rfl

theorem slice_take {data : List Byte} {i j n : ℕ} (hj : j ≤ n) :
    slice (data.take n) i j = slice data i j := by
  rw [slice, List.take_take, Nat.min_eq_left hj]
  rfl

/-! ### Mbufs -/

/-- **A buffer** (`struct mbuf`): `gone` are the bytes from `start` to `pos`, `body` those from
`pos` to `last`.  The identity stands for the buffer's address. -/
structure Mbuf where
  id : ℕ
  gone : List Byte := []
  body : List Byte := []
  deriving DecidableEq, Repr

/-- The bytes from `start` to `last`. -/
def Mbuf.data (b : Mbuf) : List Byte := b.gone ++ b.body

/-- `mbuf_get`: an empty buffer. -/
def mbufGet (id : ℕ) : Mbuf := { id := id }

/-- `mbuf_length`: the number of bytes not yet sent or consumed. -/
def mbufLength (b : Mbuf) : ℕ := b.body.length

/-- `mbuf_size`: the room left behind `last`, for buffers of data size `size`. -/
def mbufSize (size : ℕ) (b : Mbuf) : ℕ := size - b.data.length

/-- `mbuf_full`. -/
def mbufFull (size : ℕ) (b : Mbuf) : Bool := b.data.length == size

/-- `mbuf_rewind`: `pos` and `last` go back to `start`. -/
def mbufRewind (b : Mbuf) : Mbuf := { b with gone := [], body := [] }

/-- `mbuf_copy`: the bytes are added behind `last`. -/
def mbufCopy (b : Mbuf) (bs : List Byte) : Mbuf := { b with body := b.body ++ bs }

/-- `mbuf->pos += n`. -/
def Mbuf.advance (b : Mbuf) (n : ℕ) : Mbuf :=
  { b with gone := b.gone ++ b.body.take n, body := b.body.drop n }

/-- `mbuf->last = pos` for an offset `pos` that is not before the marker. -/
def Mbuf.truncate (b : Mbuf) (pos : ℕ) : Mbuf :=
  { b with body := b.body.take (pos - b.gone.length) }

/-- `mbuf_split` at offset `pos` of the buffer: what is behind goes to a new buffer `id`. -/
def mbufSplit (b : Mbuf) (pos id : ℕ) : Mbuf × Mbuf :=
  (b.truncate pos, mbufCopy (mbufGet id) (b.data.drop pos))

@[simp] theorem mbufCopy_id (b : Mbuf) (bs : List Byte) : (mbufCopy b bs).id = b.id := rfl

@[simp] theorem mbufCopy_gone (b : Mbuf) (bs : List Byte) : (mbufCopy b bs).gone = b.gone := rfl

@[simp] theorem mbufCopy_body (b : Mbuf) (bs : List Byte) :
    (mbufCopy b bs).body = b.body ++ bs := rfl

@[simp] theorem mbufCopy_data (b : Mbuf) (bs : List Byte) :
    (mbufCopy b bs).data = b.data ++ bs := by
  simp [Mbuf.data]

@[simp] theorem mbufGet_body (id : ℕ) : (mbufGet id).body = [] := rfl

@[simp] theorem mbufGet_data (id : ℕ) : (mbufGet id).data = [] := rfl

@[simp] theorem mbufGet_id (id : ℕ) : (mbufGet id).id = id := rfl

@[simp] theorem Mbuf.truncate_id (b : Mbuf) (pos : ℕ) : (b.truncate pos).id = b.id := rfl

@[simp] theorem Mbuf.advance_id (b : Mbuf) (n : ℕ) : (b.advance n).id = b.id := rfl

@[simp] theorem Mbuf.advance_body (b : Mbuf) (n : ℕ) : (b.advance n).body = b.body.drop n := rfl

theorem Mbuf.data_length (b : Mbuf) : b.data.length = b.gone.length + b.body.length := by
  simp [Mbuf.data]

@[simp] theorem Mbuf.truncate_data_length (b : Mbuf) : b.truncate b.data.length = b := by
  simp [Mbuf.truncate, Mbuf.data_length]

theorem Mbuf.truncate_data {b : Mbuf} {pos : ℕ} (h : b.gone.length ≤ pos) :
    (b.truncate pos).data = b.data.take pos := by
  simp [Mbuf.data, Mbuf.truncate, List.take_append, List.take_of_length_le h]

theorem Mbuf.truncate_body_append {b : Mbuf} {pos : ℕ} (h : b.gone.length ≤ pos) :
    (b.truncate pos).body ++ b.data.drop pos = b.body := by
  have hdrop : b.data.drop pos = b.body.drop (pos - b.gone.length) := by
    simp [Mbuf.data, List.drop_append, List.drop_of_length_le h]
  rw [hdrop]
  exact List.take_append_drop _ _

/-! ### Chains -/

/-- **The bytes of a chain** that are not yet sent or consumed. -/
def content (mhdr : List Mbuf) : List Byte := mhdr.flatMap Mbuf.body

@[simp] theorem content_nil : content [] = [] := rfl

@[simp] theorem content_cons (b : Mbuf) (bs : List Mbuf) :
    content (b :: bs) = b.body ++ content bs := by
  simp [content]

@[simp] theorem content_append (xs ys : List Mbuf) :
    content (xs ++ ys) = content xs ++ content ys := by
  simp [content]

/-- **A buffer of the chain starts at offset `n`** of its bytes. -/
def Starts (mhdr : List Mbuf) (n : ℕ) : Prop :=
  ∃ xs b ys, mhdr = xs ++ b :: ys ∧ (content xs).length = n

theorem starts_cons {b : Mbuf} {bs : List Mbuf} {n : ℕ} :
    Starts (b :: bs) n ↔ n = 0 ∨ ∃ m, Starts bs m ∧ n = b.body.length + m := by
  constructor
  · rintro ⟨xs, c, ys, heq, rfl⟩
    cases xs with
    | nil => exact .inl rfl
    | cons x xs =>
        cases heq
        exact .inr ⟨_, ⟨xs, c, ys, rfl, rfl⟩, by simp⟩
  · rintro (rfl | ⟨m, ⟨xs, c, ys, rfl, rfl⟩, rfl⟩)
    · exact ⟨[], b, bs, rfl, rfl⟩
    · exact ⟨b :: xs, c, ys, rfl, by simp⟩

theorem not_starts_nil {n : ℕ} : ¬ Starts [] n := by
  rintro ⟨xs, b, ys, heq, -⟩
  simp at heq

/-- **A pair of pointers into one mbuf** (`struct keypos`), as offsets from its start. -/
structure KeyPos where
  mbuf : ℕ
  start : ℕ
  stop : ℕ
  deriving DecidableEq, Repr

/-- The bytes between the two pointers; `none` if the mbuf is not in the chain or holds less. -/
def keyBytes (mhdr : List Mbuf) (k : KeyPos) : Option (List Byte) :=
  match mhdr.find? (fun b => b.id == k.mbuf) with
  | none => none
  | some b =>
      if k.start ≤ k.stop ∧ k.stop ≤ b.data.length then
        some (slice b.data k.start k.stop)
      else none

/-- A key that has bytes is in a buffer of the chain. -/
theorem keyBytes_mem {xs : List Mbuf} {k : KeyPos} {bs : List Byte}
    (h : keyBytes xs k = some bs) : ∃ x ∈ xs, x.id = k.mbuf := by
  unfold keyBytes at h
  cases hf : xs.find? (fun b => b.id == k.mbuf) with
  | none => simp [hf] at h
  | some b => exact ⟨b, List.mem_of_find?_eq_some hf, by simpa using List.find?_some hf⟩

/-- A key stays where it is when buffers are added behind it. -/
theorem keyBytes_append {xs : List Mbuf} {k : KeyPos} {bs : List Byte}
    (h : keyBytes xs k = some bs) (ys : List Mbuf) : keyBytes (xs ++ ys) k = some bs := by
  unfold keyBytes at h ⊢
  rw [List.find?_append]
  cases hf : xs.find? (fun b => b.id == k.mbuf) with
  | none => simp [hf] at h
  | some => simpa [hf] using h

/-- A key stays where it is when the last buffer changes behind it. -/
theorem keyBytes_replace {pre : List Mbuf} {b b' : Mbuf} {k : KeyPos} {bs : List Byte}
    (h : keyBytes (pre ++ [b]) k = some bs) (hid : b'.id = b.id)
    (hsame : k.mbuf = b.id →
      k.stop ≤ b'.data.length ∧ slice b'.data k.start k.stop = slice b.data k.start k.stop) :
    keyBytes (pre ++ [b']) k = some bs := by
  unfold keyBytes at h ⊢
  rw [List.find?_append] at h ⊢
  cases hf : pre.find? (fun b => b.id == k.mbuf) with
  | some => simpa [hf] using h
  | none =>
      by_cases hk : k.mbuf = b.id
      · obtain ⟨hle, hslice⟩ := hsame hk
        have hb : (b.id == k.mbuf) = true := by simp [hk]
        have hb' : (b'.id == k.mbuf) = true := by simp [hid, hk]
        simp only [hf, List.find?_singleton, hb, hb', if_true, Option.none_or, hslice] at h ⊢
        split at h
        · next hin => simpa [hin.1, hle] using h
        · cases h
      · have hk' : (b.id == k.mbuf) = false := by simpa using fun hx => hk hx.symm
        simp [hf, hk'] at h

/-- The bytes of a key in the last buffer. -/
theorem keyBytes_last {pre : List Mbuf} {b : Mbuf} {start stop : ℕ}
    (hpre : ∀ x ∈ pre, x.id ≠ b.id) (hle : start ≤ stop) (hstop : stop ≤ b.data.length) :
    keyBytes (pre ++ [b]) ⟨b.id, start, stop⟩ = some (slice b.data start stop) := by
  have hf : pre.find? (fun x => x.id == b.id) = none := by
    rw [List.find?_eq_none]
    intro x hx
    simpa using hpre x hx
  simp [keyBytes, List.find?_append, hf, hle, hstop]

section Keys

variable {pre : List Mbuf} {b b' nb : Mbuf} {ks : List KeyPos} {vs : List (List Byte)}

theorem keys_forall (h : ks.map (keyBytes (pre ++ [b])) = vs.map some) :
    ∀ k ∈ ks, ∃ bs, keyBytes (pre ++ [b]) k = some bs := by
  intro k hk
  have hmem : keyBytes (pre ++ [b]) k ∈ vs.map some := h ▸ List.mem_map_of_mem hk
  obtain ⟨bs, -, hbs⟩ := List.mem_map.1 hmem
  exact ⟨bs, hbs.symm⟩

/-- The keys stay where they are when the last buffer changes behind them. -/
theorem keys_replace (h : ks.map (keyBytes (pre ++ [b])) = vs.map some) (hid : b'.id = b.id)
    (hsame : ∀ k ∈ ks, k.mbuf = b.id →
      k.stop ≤ b'.data.length ∧ slice b'.data k.start k.stop = slice b.data k.start k.stop) :
    ks.map (keyBytes (pre ++ [b'])) = vs.map some := by
  rw [← h]
  refine List.map_congr_left fun k hk => ?_
  obtain ⟨bs, hbs⟩ := keys_forall h k hk
  rw [hbs, keyBytes_replace hbs hid (hsame k hk)]

theorem keys_append (h : ks.map (keyBytes (pre ++ [b])) = vs.map some) (ys : List Mbuf) :
    ks.map (keyBytes (pre ++ [b] ++ ys)) = vs.map some := by
  rw [← h]
  refine List.map_congr_left fun k hk => ?_
  obtain ⟨bs, hbs⟩ := keys_forall h k hk
  rw [hbs, keyBytes_append hbs]

/-- A buffer of a new identity holds no key. -/
theorem keys_ne (h : ks.map (keyBytes (pre ++ [b])) = vs.map some)
    (hne : ∀ x ∈ pre ++ [b], x.id ≠ nb.id) : ∀ k ∈ ks, k.mbuf ≠ nb.id := by
  intro k hk hid
  obtain ⟨bs, hbs⟩ := keys_forall h k hk
  obtain ⟨x, hx, hxid⟩ := keyBytes_mem hbs
  exact hne x hx (hxid.trans hid)

end Keys

/-! ### Messages as chains with a length -/

/-- **The byte content of a message**: its chain and the length recorded for it (`mhdr`, `mlen` of
`struct msg`). -/
structure MsgBuf where
  mhdr : List Mbuf := []
  mlen : ℕ := 0
  deriving DecidableEq, Repr

/-- The bytes of the message. -/
def MsgBuf.bytes (m : MsgBuf) : List Byte := content m.mhdr

/-- `msg_empty`. -/
def msgEmpty (m : MsgBuf) : Bool := m.mlen == 0

/-- `msg_ensure_mbuf`: the chain with a last buffer that has room for `len` bytes. -/
def msgEnsureMbuf (size id : ℕ) (mhdr : List Mbuf) (len : ℕ) : List Mbuf :=
  match mhdr.getLast? with
  | none => mhdr ++ [mbufGet id]
  | some b => if mbufSize size b < len then mhdr ++ [mbufGet id] else mhdr

/-- The bytes are copied behind the last buffer's `last`. -/
def copyLast (mhdr : List Mbuf) (bs : List Byte) : List Mbuf :=
  match mhdr.getLast? with
  | none => mhdr
  | some b => mhdr.dropLast ++ [mbufCopy b bs]

/-- `msg_append`. -/
def msgAppend (size id : ℕ) (m : MsgBuf) (bs : List Byte) : MsgBuf :=
  { mhdr := copyLast (msgEnsureMbuf size id m.mhdr bs.length) bs
    mlen := wrap32 (m.mlen + bs.length) }

/-- `msg_prepend_format`, given the text that the format prints; the text has to be shorter than
an mbuf. -/
def msgPrependFormat (size id : ℕ) (m : MsgBuf) (text : List Byte) : Option MsgBuf :=
  if text.length = 0 ∨ size ≤ text.length then none
  else some
    { mhdr := mbufCopy (mbufGet id) text :: m.mhdr
      mlen := wrap32 (m.mlen + text.length) }

theorem content_copyLast {mhdr : List Mbuf} (h : mhdr ≠ []) (bs : List Byte) :
    content (copyLast mhdr bs) = content mhdr ++ bs := by
  obtain ⟨pre, b, rfl⟩ : ∃ pre b, mhdr = pre ++ [b] :=
    ⟨mhdr.dropLast, mhdr.getLast h, (List.dropLast_append_getLast h).symm⟩
  simp [copyLast]

theorem msgEnsureMbuf_ne_nil (size id : ℕ) (mhdr : List Mbuf) (len : ℕ) :
    msgEnsureMbuf size id mhdr len ≠ [] := by
  unfold msgEnsureMbuf
  split
  · simp
  · next b hb =>
      split
      · simp
      · rintro rfl
        simp at hb

@[simp] theorem content_msgEnsureMbuf (size id : ℕ) (mhdr : List Mbuf) (len : ℕ) :
    content (msgEnsureMbuf size id mhdr len) = content mhdr := by
  unfold msgEnsureMbuf
  split
  · simp
  · split <;> simp

/-- Appending to a message adds the bytes at its end, wherever they are stored. -/
@[simp] theorem msgAppend_bytes (size id : ℕ) (m : MsgBuf) (bs : List Byte) :
    (msgAppend size id m bs).bytes = m.bytes ++ bs := by
  simp [msgAppend, MsgBuf.bytes, content_copyLast (msgEnsureMbuf_ne_nil _ _ _ _)]

theorem msgPrependFormat_eq_some {size id : ℕ} {m m' : MsgBuf} {text : List Byte}
    (h : msgPrependFormat size id m text = some m') :
    m'.bytes = text ++ m.bytes ∧ m'.mlen = wrap32 (m.mlen + text.length) := by
  unfold msgPrependFormat at h
  split at h
  · cases h
  · cases h
    simp [MsgBuf.bytes]

end CacheProxy
