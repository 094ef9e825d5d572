/-
**The length of a message.**

`mlen` is kept beside the chain of a message by every function that changes the chain, each in its
own way.  It is right as long as a bulk that `redis_copy_bulk` moves ends where a buffer ends:
otherwise the last bytes are appended by `msg_append`, which counts them, and then the whole bulk is
counted again.

Main definitions:

* `Accounted` — `mlen` is the number of bytes in the buffers, in 32 bits;
* `msgPrepend`, `memcacheAppendKey`, `memcacheCopyBulk`, `memcachePreCoalesce` — functions of the
  source;
* `splitLen`, `EndsAtBuffer` — the bytes of a bulk that are appended, and when there are none;
* `MsgOp`, `MsgOp.apply`, `MsgOp.Fine` — an operation on messages, and when it is harmless.

Main results:

* `Accounted.redisCopyBulk_iff` — the destination is right afterwards exactly if no byte is
  appended;
* `recvRun_counted` — messages as they are received, for any parser;
* `redisFragmentArgx_accounted` — the fragments of a request;
* `message_lengths` — **in every sequence of harmless operations the lengths of all messages are
  right**;
* `fragment_counted_twice` — a fragment of `MSET` whose length is wrong.
-/

import CacheProxy.RedisPartition
import CacheProxy.RedisPool

namespace CacheProxy

open Decimal

/-! ### Lengths that are right -/

theorem wrap32_lt (n : ℕ) : wrap32 n < 2 ^ 32 := Nat.mod_lt _ (by norm_num)

/-- The sum of `mbuf_length` over the buffers. -/
def chainLength (mhdr : List Mbuf) : ℕ := (mhdr.map mbufLength).sum

theorem length_content (mhdr : List Mbuf) : (content mhdr).length = chainLength mhdr := by
  induction mhdr with
  | nil => rfl
  | cons b bs ih =>
    rw [content_cons, List.length_append, ih]
    rfl

/-- **The length of a message is right**: it is the sum over its buffers, in 32 bits. -/
def Accounted (m : MsgBuf) : Prop := m.mlen = wrap32 (chainLength m.mhdr)

theorem accounted_iff (m : MsgBuf) : Accounted m ↔ m.mlen = wrap32 m.bytes.length := by
  rw [Accounted, ← length_content]
  rfl

/-- Bytes come, and are counted. -/
theorem Accounted.grow {m m' : MsgBuf} {n : ℕ} (h : Accounted m)
    (hmlen : m'.mlen = wrap32 (m.mlen + n))
    (hbytes : m'.bytes.length = m.bytes.length + n) : Accounted m' := by
  rw [accounted_iff] at h ⊢
  rw [hmlen, h, hbytes]
  simp only [wrap32]
  omega

/-- Bytes go, and are counted. -/
theorem Accounted.shrink {m m' : MsgBuf} {n : ℕ} (h : Accounted m)
    (hmlen : m'.mlen = sub32 m.mlen n)
    (hbytes : m'.bytes.length + n = m.bytes.length) : Accounted m' := by
  rw [accounted_iff] at h ⊢
  rw [hmlen, h, ← hbytes]
  simp only [sub32, wrap32]
  omega

theorem accounted_empty : Accounted {} := rfl

/-! ### Appending and prepending -/

/-- `msg_prepend`. -/
def msgPrepend (id : ℕ) (m : MsgBuf) (bs : List Byte) : MsgBuf :=
  { mhdr := mbufCopy (mbufGet id) bs :: m.mhdr, mlen := wrap32 (m.mlen + bs.length) }

/-- `memcache_append_key`. -/
def memcacheAppendKey (size id : ℕ) (m : MsgBuf) (key : List Byte) : MsgBuf :=
  { mhdr := copyLast (copyLast (msgEnsureMbuf size id m.mhdr (key.length + 2)) key) [32]
    mlen := wrap32 (wrap32 (m.mlen + key.length) + 1) }

theorem copyLast_ne_nil {mhdr : List Mbuf} (h : mhdr ≠ []) (bs : List Byte) :
    copyLast mhdr bs ≠ [] := by
  rw [copyLast, List.getLast?_eq_some_getLast h]
  simp

section Appending

variable {m : MsgBuf} (h : Accounted m) (size id : ℕ)

include h

theorem Accounted.msgAppend (bs : List Byte) : Accounted (msgAppend size id m bs) :=
  h.grow rfl (by rw [msgAppend_bytes, List.length_append])

theorem Accounted.msgPrepend (bs : List Byte) : Accounted (msgPrepend id m bs) := by
  refine h.grow rfl ?_
  simp only [MsgBuf.bytes, CacheProxy.msgPrepend, content_cons, mbufCopy_body, mbufGet_body,
    List.nil_append,
    List.length_append]
  omega

theorem Accounted.msgPrependFormat {text : List Byte} {m' : MsgBuf}
    (heq : msgPrependFormat size id m text = some m') : Accounted m' := by
  obtain ⟨hbytes, hmlen⟩ := msgPrependFormat_eq_some heq
  refine h.grow hmlen ?_
  rw [hbytes, List.length_append]
  omega

theorem Accounted.memcacheAppendKey (key : List Byte) :
    Accounted (memcacheAppendKey size id m key) := by
  have hne := msgEnsureMbuf_ne_nil size id m.mhdr (key.length + 2)
  have hkey : Accounted { mhdr := copyLast (msgEnsureMbuf size id m.mhdr (key.length + 2)) key
                          mlen := wrap32 (m.mlen + key.length) } := by
    refine h.grow rfl ?_
    simp only [MsgBuf.bytes, content_copyLast hne, content_msgEnsureMbuf, List.length_append]
  refine hkey.grow rfl ?_
  simp only [MsgBuf.bytes, CacheProxy.memcacheAppendKey, content_copyLast (copyLast_ne_nil hne key),
    List.length_append,
    List.length_singleton]

theorem Accounted.redisAppendKey {f : Fragment} (hf : f.buf = m) (key : List Byte) :
    Accounted (redisAppendKey size id f key).buf := by
  subst hf
  exact ((h.msgAppend size id _).msgAppend size (id + 1) _).msgAppend size (id + 2) _

end Appending

/-! ### Moving bulks -/

/-- The bytes of the `n` at the front of a chain that are not moved with their buffer. -/
def splitLen : ℕ → List Mbuf → ℕ
  | _, [] => 0
  | n, b :: bs => if mbufLength b ≤ n then splitLen (n - mbufLength b) bs else n

/-- The first word of a text is skipped, with the blank behind it; the loop does not stop at the end
of the buffer. -/
def skipWord (bs : List Byte) : Option (List Byte) :=
  if (32 : Byte) ∈ bs then some ((bs.dropWhile fun c => c != 32).drop 1) else none

/-- The number of bytes of the value at the front of a response, in 32 bits. -/
def memcacheBulkLen (body : List Byte) : Option ℕ :=
  (((skipWord body).bind skipWord).bind skipWord).map fun rest =>
    let tail := (rest.dropWhile isDigit).dropWhile fun c => c != CR
    wrap32 (valueModFrom (2 ^ 32) 0 (rest.takeWhile isDigit) + 4 + (body.length - tail.length))

/-- The loop of `memcache_copy_bulk`, as far as the destination is concerned: the last bytes go into
a buffer of their own. -/
def stealChain (id : ℕ) : ℕ → List Mbuf → List Mbuf
  | _, [] => []
  | n, b :: bs =>
      if mbufLength b ≤ n then b :: stealChain id (n - mbufLength b) bs
      else [mbufCopy (mbufGet id) (b.body.take n)]

/-- **`memcache_copy_bulk`**; there is no result if a byte behind the buffer is read. -/
def memcacheCopyBulk (id : ℕ) (dst src : MsgBuf) : Option (MsgBuf × MsgBuf) :=
  match src.mhdr.dropWhile (fun b => b.body.isEmpty) with
  | [] => some (dst, { src with mhdr := [] })
  | b :: bs =>
      (memcacheBulkLen b.body).map fun bytes =>
        ({ mhdr := dst.mhdr ++ stealChain id bytes (b :: bs), mlen := wrap32 (dst.mlen + bytes) },
          { mhdr := eatChain bytes (b :: bs), mlen := sub32 src.mlen bytes })

section Moving

variable {dst src : MsgBuf} {size id : ℕ}

theorem copyBulkLen_lt (body : List Byte) : copyBulkLen body < 2 ^ 32 := by
  unfold copyBulkLen
  split
  · omega
  · exact wrap32_lt _

theorem content_stealChain (id n : ℕ) (mhdr : List Mbuf) :
    content (stealChain id n mhdr) = (content mhdr).take n := by
  induction mhdr generalizing n with
  | nil => simp [stealChain]
  | cons b bs ih =>
    rw [stealChain, content_cons, List.take_append]
    split
    · next hle =>
      rw [content_cons, ih, List.take_of_length_le (show b.body.length ≤ n from hle)]
      rfl
    · next hgt =>
      have hzero : n - b.body.length = 0 := by
        simp only [mbufLength] at hgt
        omega
      simp [hzero]

/-- What is appended is counted by `msg_append`. -/
theorem mlen_copyChain (size id : ℕ) (mhdr : List Mbuf) :
    ∀ (dst : MsgBuf) (n : ℕ), dst.mlen < 2 ^ 32 →
    (copyChain size id dst n mhdr).mlen = wrap32 (dst.mlen + splitLen n mhdr) := by
  induction mhdr with
  | nil =>
    intro dst n hlt
    exact (wrap32_of_lt hlt).symm
  | cons b bs ih =>
    intro dst n hlt
    rw [copyChain, splitLen]
    split
    · exact ih _ _ hlt
    · next hgt =>
      have hlen : (b.body.take n).length = n := by
        rw [List.length_take]
        simp only [mbufLength] at hgt
        omega
      rw [CacheProxy.msgAppend, hlen]

theorem Accounted.mlen_lt (h : Accounted dst) : dst.mlen < 2 ^ 32 := by
  rw [h]
  exact wrap32_lt _

/-- The `n` bytes at the front of the chain end where a buffer ends. -/
def EndsAtBuffer (n : ℕ) (mhdr : List Mbuf) : Prop := ∃ k, chainLength (mhdr.take k) = n

theorem chainLength_cons (b : Mbuf) (bs : List Mbuf) :
    chainLength (b :: bs) = mbufLength b + chainLength bs := by
  simp [chainLength]

theorem chainLength_append (xs ys : List Mbuf) :
    chainLength (xs ++ ys) = chainLength xs + chainLength ys := by
  simp [chainLength]

theorem EndsAtBuffer.le {n : ℕ} {mhdr : List Mbuf} (h : EndsAtBuffer n mhdr) :
    n ≤ chainLength mhdr := by
  obtain ⟨k, rfl⟩ := h
  have hcut := congrArg chainLength (List.take_append_drop k mhdr)
  rw [chainLength_append] at hcut
  omega

theorem splitLen_le (n : ℕ) (mhdr : List Mbuf) : splitLen n mhdr ≤ n := by
  induction mhdr generalizing n with
  | nil => exact Nat.zero_le n
  | cons b bs ih =>
    rw [splitLen]
    split
    · exact (ih _).trans (Nat.sub_le _ _)
    · exact Nat.le_refl n

/-- Nothing is appended exactly if the bytes end with a buffer. -/
theorem splitLen_eq_zero_iff {n : ℕ} {mhdr : List Mbuf} (hle : n ≤ chainLength mhdr) :
    splitLen n mhdr = 0 ↔ EndsAtBuffer n mhdr := by
  induction mhdr generalizing n with
  | nil =>
    have hn : n = 0 := Nat.le_zero.1 hle
    exact ⟨fun _ => ⟨0, hn.symm⟩, fun _ => rfl⟩
  | cons b bs ih =>
    rw [chainLength_cons] at hle
    rw [splitLen]
    split
    · next hfits =>
      rw [ih (show n - mbufLength b ≤ chainLength bs by omega)]
      constructor
      · rintro ⟨k, hk⟩
        refine ⟨k + 1, ?_⟩
        rw [List.take_succ_cons, chainLength_cons]
        omega
      · rintro ⟨k, hk⟩
        cases k with
        | zero =>
          simp only [List.take_zero, chainLength, List.map_nil, List.sum_nil] at hk
          exact ⟨0, by simp [chainLength]; omega⟩
        | succ k =>
          rw [List.take_succ_cons, chainLength_cons] at hk
          exact ⟨k, by omega⟩
    · next hgt =>
      constructor
      · intro hn
        exact ⟨0, hn.symm⟩
      · rintro ⟨k, hk⟩
        cases k with
        | zero => exact hk.symm
        | succ =>
          rw [List.take_succ_cons, chainLength_cons] at hk
          omega

theorem splitLen_of_chainLength_le {n : ℕ} {mhdr : List Mbuf} (hle : chainLength mhdr ≤ n) :
    splitLen n mhdr = 0 := by
  induction mhdr generalizing n with
  | nil => rfl
  | cons b bs ih =>
    rw [chainLength_cons] at hle
    rw [splitLen, if_pos (show mbufLength b ≤ n by omega)]
    exact ih (by omega)

/-- The chain without the empty buffers at its front. -/
abbrev front (mhdr : List Mbuf) : List Mbuf := mhdr.dropWhile fun b => b.body.isEmpty

/-- The bulk at the front of the chain ends where a buffer ends. -/
def BulkEnds (mhdr : List Mbuf) : Prop :=
  ∀ b bs, front mhdr = b :: bs → EndsAtBuffer (copyBulkLen b.body) (b :: bs)

/-- The chain holds the value at its front. -/
def HoldsValue (mhdr : List Mbuf) : Prop :=
  ∀ b bs n, front mhdr = b :: bs → memcacheBulkLen b.body = some n → n ≤ chainLength (b :: bs)

theorem content_front (mhdr : List Mbuf) :
    content (front mhdr) = content mhdr := content_dropWhile_isEmpty mhdr

section Counting

variable {dst' src' : MsgBuf} {b : Mbuf} {bs : List Mbuf}

/-- What the destination counts beyond what it gets. -/
theorem Accounted.redisCopyBulk_dst_iff (h : Accounted dst) (hfront : front src.mhdr = b :: bs)
    (heq : redisCopyBulk size id (some dst) src = some (some dst', src')) :
    Accounted dst' ↔
      wrap32 (splitLen (copyBulkLen b.body) (b :: bs) + copyBulkLen b.body) =
        wrap32 (min (copyBulkLen b.body) (chainLength (b :: bs))) := by
  simp only [redisCopyBulk, hfront, Option.map_some, Option.some.injEq, Prod.mk.injEq] at heq
  obtain ⟨rfl, -⟩ := heq
  have hbytes := congrArg List.length (content_copyChain size id dst (copyBulkLen b.body) (b :: bs))
  rw [List.length_append, List.length_take, length_content] at hbytes
  have hmlen := mlen_copyChain size id (b :: bs) dst (copyBulkLen b.body) h.mlen_lt
  rw [accounted_iff] at h ⊢
  change wrap32 ((copyChain size id dst (copyBulkLen b.body) (b :: bs)).mlen + copyBulkLen b.body) =
    wrap32 (copyChain size id dst (copyBulkLen b.body) (b :: bs)).bytes.length ↔ _
  rw [hmlen, h, hbytes]
  simp only [wrap32]
  omega

/-- **The destination is right exactly if the bulk ends where a buffer ends**; otherwise the bytes
that are appended are counted twice. -/
theorem Accounted.redisCopyBulk_iff (h : Accounted dst) (hfront : front src.mhdr = b :: bs)
    (hlt : chainLength (b :: bs) < 2 ^ 32)
    (heq : redisCopyBulk size id (some dst) src = some (some dst', src')) :
    Accounted dst' ↔ EndsAtBuffer (copyBulkLen b.body) (b :: bs) := by
  rw [h.redisCopyBulk_dst_iff hfront heq]
  have hsmall := copyBulkLen_lt b.body
  by_cases hle : copyBulkLen b.body ≤ chainLength (b :: bs)
  · rw [← splitLen_eq_zero_iff hle, Nat.min_eq_left hle]
    have hsplit := splitLen_le (copyBulkLen b.body) (b :: bs)
    simp only [wrap32]
    omega
  · have hout : ¬ EndsAtBuffer (copyBulkLen b.body) (b :: bs) := fun hends => hle hends.le
    rw [iff_false_right hout, splitLen_of_chainLength_le (by omega), Nat.min_eq_right (by omega)]
    simp only [wrap32]
    omega

theorem Accounted.redisCopyBulk_dst (h : Accounted dst) (hends : BulkEnds src.mhdr)
    (heq : redisCopyBulk size id (some dst) src = some (some dst', src')) : Accounted dst' := by
  cases hfront : front src.mhdr with
  | nil =>
    simp only [redisCopyBulk, hfront] at heq
    cases heq
  | cons b bs =>
    have hend := hends b bs hfront
    rw [h.redisCopyBulk_dst_iff hfront heq, (splitLen_eq_zero_iff hend.le).2 hend,
      Nat.min_eq_left hend.le,
      Nat.zero_add]

/-- The source is right if it holds the bulk. -/
theorem Accounted.redisCopyBulk_src {d d' : Option MsgBuf} (h : Accounted src)
    (hends : BulkEnds src.mhdr)
    (heq : redisCopyBulk size id d src = some (d', src')) : Accounted src' := by
  unfold redisCopyBulk at heq
  split at heq
  · cases heq
  · next b bs hfront =>
    cases heq
    have hle := (hends b bs hfront).le
    refine h.shrink (n := copyBulkLen b.body) rfl ?_
    change (content (eatChain (copyBulkLen b.body) (b :: bs))).length + _ = _
    rw [content_eatChain, List.length_drop, length_content, Nat.sub_add_cancel hle,
      ← length_content, ← hfront,
      content_front]
    rfl

/-- `memcache_copy_bulk` counts right if the source holds the value. -/
theorem Accounted.memcacheCopyBulk (hd : Accounted dst) (hs : Accounted src)
    (hholds : HoldsValue src.mhdr)
    (heq : memcacheCopyBulk id dst src = some (dst', src')) : Accounted dst' ∧ Accounted src' := by
  unfold CacheProxy.memcacheCopyBulk at heq
  split at heq
  · next hnil =>
    cases heq
    refine ⟨hd, ?_⟩
    have hempty : src.bytes = [] := by
      rw [MsgBuf.bytes, ← content_front, front, hnil]
      rfl
    rw [accounted_iff, hempty] at hs
    exact hs
  · next b bs hfront =>
    obtain ⟨bytes, hlen, heq⟩ := Option.map_eq_some_iff.1 heq
    cases heq
    have hle := hholds b bs bytes hfront hlen
    have hcontent : content (b :: bs) = src.bytes := by
      rw [← hfront, content_front]
      rfl
    refine ⟨hd.grow (n := bytes) rfl ?_, hs.shrink (n := bytes) rfl ?_⟩
    · change (content (dst.mhdr ++ _)).length = _
      rw [content_append, content_stealChain, List.length_append, List.length_take,
        length_content (b :: bs),
        Nat.min_eq_left hle]
      rfl
    · change (content (eatChain bytes (b :: bs))).length + _ = _
      rw [content_eatChain, ← hcontent, List.length_drop, length_content (b :: bs)]
      exact Nat.sub_add_cancel hle

end Counting

end Moving

/-! ### Responses of fragments -/

/-- The loop of `memcache_pre_coalesce` over the buffers, the last one first; there is no result if
the end marker is in none of them. -/
def dropToEnd (stop : BufPos) : List Mbuf → ℕ → Option (List Mbuf × ℕ)
  | [], _ => none
  | b :: bs, mlen =>
      if b.id = stop.mbuf ∧ b.gone.length ≤ stop.off ∧ stop.off < b.data.length then
        some (b.truncate stop.off :: bs, sub32 mlen (b.data.length - stop.off))
      else dropToEnd stop bs (sub32 mlen (mbufLength b))

/-- **`memcache_pre_coalesce`** behind the counter, for a response of type `t` with the end marker
`stop`; the flag says that the request is in error. -/
def memcachePreCoalesce (t : MsgType) (stop : BufPos) (m : MsgBuf) : Option (MsgBuf × Bool) :=
  match t with
  | .rspMcValue | .rspMcEnd =>
      (dropToEnd stop m.mhdr.reverse m.mlen).map fun p =>
        ({ mhdr := p.1.reverse, mlen := p.2 }, false)
  | _ => some (m, true)

section Responses

variable {m m' : MsgBuf}

theorem length_content_reverse (mhdr : List Mbuf) :
    (content mhdr.reverse).length = (content mhdr).length := by
  rw [length_content, length_content, chainLength, chainLength, List.map_reverse, List.sum_reverse]

theorem Accounted.dropToEnd {stop : BufPos} {mhdr mhdr' : List Mbuf} {mlen mlen' : ℕ}
    (h : Accounted { mhdr := mhdr, mlen := mlen })
    (heq : dropToEnd stop mhdr mlen = some (mhdr', mlen')) :
    Accounted { mhdr := mhdr', mlen := mlen' } := by
  induction mhdr generalizing mlen with
  | nil => cases heq
  | cons b bs ih =>
    rw [CacheProxy.dropToEnd] at heq
    split at heq
    · next hin =>
      cases heq
      refine h.shrink rfl ?_
      have hcut := congrArg List.length (Mbuf.truncate_body_append hin.2.1)
      rw [List.length_append, List.length_drop] at hcut
      simp only [MsgBuf.bytes, content_cons, List.length_append]
      omega
    · refine ih (h.shrink rfl ?_) heq
      simp only [MsgBuf.bytes, content_cons, List.length_append, mbufLength]
      omega

/-- `memcache_pre_coalesce` counts right. -/
theorem Accounted.memcachePreCoalesce {t : MsgType} {stop : BufPos} {failed : Bool}
    (h : Accounted m)
    (heq : memcachePreCoalesce t stop m = some (m', failed)) : Accounted m' := by
  have hrev : Accounted { mhdr := m.mhdr.reverse, mlen := m.mlen } := by
    rw [accounted_iff] at h ⊢
    rw [h, MsgBuf.bytes, MsgBuf.bytes, length_content_reverse]
  have hdrop : ∀ p, CacheProxy.dropToEnd stop m.mhdr.reverse m.mlen = some p →
      Accounted { mhdr := p.1.reverse, mlen := p.2 } := by
    intro p hp
    have hacc := hrev.dropToEnd hp
    rw [accounted_iff] at hacc ⊢
    rw [hacc, MsgBuf.bytes, MsgBuf.bytes, length_content_reverse]
  unfold CacheProxy.memcachePreCoalesce at heq
  split at heq
  all_goals first
    | (obtain ⟨p, hp, heq⟩ := Option.map_eq_some_iff.1 heq
       cases heq
       exact hdrop p hp)
    | (cases heq
       exact h)

theorem Accounted.dropFirst (h : Accounted m) : Accounted (dropFirst m) := by
  obtain ⟨mhdr, mlen⟩ := m
  cases mhdr with
  | nil => exact h
  | cons =>
    refine h.shrink rfl ?_
    simp only [MsgBuf.bytes, CacheProxy.dropFirst, mbufRewind, content_cons, List.nil_append,
      List.length_append,
      mbufLength]
    omega

/-- **The header that was read last is at the front** of the first buffer: no multi-bulk is nested
in the response. -/
def HeaderFits (m : MsgBuf) (r : RspRegs) : Prop :=
  ∀ b bs, m.mhdr = b :: bs → ∃ s e, r.nargStart = some s ∧ r.nargEnd = some e ∧ e.mbuf = b.id ∧
    s.off = b.gone.length ∧ s.off ≤ e.off ∧ e.off + 2 ≤ b.data.length

theorem Accounted.skipNarg {r : RspRegs} (h : Accounted m) (hfits : HeaderFits m r) :
    Accounted (skipNarg m r) := by
  obtain ⟨mhdr, mlen⟩ := m
  cases mhdr with
  | nil =>
    unfold CacheProxy.skipNarg
    exact h
  | cons b bs =>
    obtain ⟨s, e, hs, he, hid, hoff, hle, hend⟩ := hfits b bs rfl
    unfold CacheProxy.skipNarg
    simp only [he, if_pos hid]
    refine h.shrink rfl ?_
    simp only [MsgBuf.bytes, Mbuf.seek, nargLength, hs, he, content_cons, List.length_append,
      List.length_drop]
    rw [Mbuf.data, List.length_append] at hend ⊢
    omega

/-- `redis_pre_coalesce` counts right if no multi-bulk is nested. -/
theorem Accounted.redisPreCoalesce {req rsp owner : Content RedisRegs} (h : Accounted rsp.toMsgBuf)
    (hfits : rsp.regs.rsp.type = .rspRedisMultibulk → HeaderFits rsp.toMsgBuf rsp.regs.rsp) :
    Accounted (redisPreCoalesce req rsp owner).1.toMsgBuf := by
  unfold CacheProxy.redisPreCoalesce
  split
  · exact h.dropFirst
  · next htype => exact h.skipNarg (hfits htype)
  · split
    · exact h.dropFirst
    · exact h
  · exact h

end Responses

/-! ### Receiving -/

section Receiving

variable {ρ : Type} {P : Parser ρ} {size : ℕ}

/-- The lengths of the messages handed on and of the one being received are right, and nothing of
the buffers being filled is consumed. -/
structure Receiver.Counted (c : Receiver ρ) : Prop where
  received : ∀ m ∈ c.received, Accounted m.toMsgBuf
  rmsg : ∀ m, c.rmsg = some m → Accounted m.toMsgBuf ∧ ∀ b ∈ m.mhdr, b.gone = []

theorem Receiver.Counted.empty : ({} : Receiver ρ).Counted :=
  ⟨fun _ hm => (nomatch hm), fun _ hm => (nomatch hm)⟩

theorem Receiver.Counted.withRmsg {c c' : Receiver ρ} (h : c.Counted) {msg : RecvMsg ρ}
    (hmsg : Accounted msg.toMsgBuf ∧ ∀ b ∈ msg.mhdr, b.gone = [])
    (hreceived : c'.received = c.received)
    (hrmsg : c'.rmsg = some msg) : c'.Counted := by
  refine ⟨fun m hm => h.received m (hreceived ▸ hm), fun m hm => ?_⟩
  rw [hrmsg] at hm
  cases hm
  exact hmsg

/-- `msg_parsed` counts right. -/
theorem msgParsed_counted {c : Receiver ρ} {msg : RecvMsg ρ} (h : c.Counted)
    (hmsg : Accounted msg.toMsgBuf)
    (hgone : ∀ b ∈ msg.mhdr, b.gone = []) : (msgParsed P c msg).Counted := by
  rcases List.eq_nil_or_concat msg.mhdr with hnil | ⟨pre, b, hm⟩
  · simp only [msgParsed, hnil, List.getLast?_nil]
    exact ⟨h.received, h.rmsg⟩
  · rw [List.concat_eq_append] at hm
    by_cases hpos : msg.pos = b.data.length
    · rw [msgParsed_of_end c msg hm hpos]
      refine ⟨?_, fun _ hm => absurd hm.symm (Option.some_ne_none _)⟩
      intro m hmem
      rcases List.mem_append.1 hmem with hmem | hmem
      · exact h.received m hmem
      · rw [List.mem_singleton.1 hmem]
        exact hmsg
    · rw [msgParsed_of_leftover c msg hm hpos]
      have hb : b.gone = [] := hgone b (by simp [hm])
      have hcut := split_length hb msg.pos
      constructor
      · intro m hmem
        rcases List.mem_append.1 hmem with hmem | hmem
        · exact h.received m hmem
        · rw [List.mem_singleton.1 hmem]
          refine hmsg.shrink (n := (b.data.drop msg.pos).length) ?_ ?_
          · simp only [sub32, wrap32, Nat.mod_mod]
          · simp only [MsgBuf.bytes, hm, content_append, content_cons, content_nil, List.append_nil,
              List.length_append]
            omega
      · rintro m ⟨rfl⟩
        refine ⟨?_, ?_⟩
        · rw [accounted_iff]
          simp [MsgBuf.bytes]
        · intro x hx
          rw [List.mem_singleton.1 hx]
          rfl

/-- `msg_repair` counts right. -/
theorem msgRepair_counted {c : Receiver ρ} {msg : RecvMsg ρ} (h : c.Counted)
    (hmsg : Accounted msg.toMsgBuf)
    (hgone : ∀ b ∈ msg.mhdr, b.gone = []) : (msgRepair c msg).Counted := by
  rcases List.eq_nil_or_concat msg.mhdr with hnil | ⟨pre, b, hm⟩
  · simp only [msgRepair, hnil, List.getLast?_nil]
    exact ⟨h.received, h.rmsg⟩
  · rw [List.concat_eq_append] at hm
    have hb : b.gone = [] := hgone b (by simp [hm])
    have hcut := split_length hb msg.pos
    rw [msgRepair_eq c msg hm]
    refine h.withRmsg ⟨?_, ?_⟩ rfl rfl
    · rw [accounted_iff] at hmsg ⊢
      change msg.mlen = _
      rw [hmsg]
      simp only [MsgBuf.bytes, hm, content_append, content_cons, content_nil, List.append_nil,
        mbufCopy_body,
        mbufGet_body, List.nil_append, List.length_append]
      rw [← hcut]
    · intro x hx
      rcases List.mem_append.1 hx with hx | hx
      · exact hgone x (by simp [hm, hx])
      · rcases List.mem_pair.1 hx with rfl | rfl
        · exact hb
        · rfl

theorem msgParse_counted {c : Receiver ρ} {msg : RecvMsg ρ} (h : c.Counted)
    (hmsg : Accounted msg.toMsgBuf)
    (hgone : ∀ b ∈ msg.mhdr, b.gone = []) : (msgParse P size c msg).1.Counted := by
  unfold msgParse
  split
  · exact ⟨h.received, fun _ hm => absurd hm.symm (Option.some_ne_none _)⟩
  · split
    · exact ⟨h.received, h.rmsg⟩
    · split
      · exact msgParsed_counted h hmsg hgone
      · exact msgRepair_counted h hmsg hgone
      · refine h.withRmsg ?_ rfl rfl
        exact ⟨hmsg, hgone⟩
      · refine h.withRmsg ?_ rfl rfl
        exact ⟨hmsg, hgone⟩

theorem parseLoop_counted (fuel : ℕ) : ∀ (c : Receiver ρ) (msg : RecvMsg ρ), c.Counted →
    Accounted msg.toMsgBuf →
    (∀ b ∈ msg.mhdr, b.gone = []) → (parseLoop P size fuel c msg).Counted := by
  induction fuel with
  | zero =>
    intro c msg h _ _
    exact ⟨h.received, h.rmsg⟩
  | succ fuel ih =>
    intro c msg h hmsg hgone
    have hparse : (msgParse P size c msg).1.Counted := msgParse_counted h hmsg hgone
    rw [parseLoop]
    split
    · next hres =>
      rw [hres] at hparse
      exact hparse
    · next c' hres =>
      rw [hres] at hparse
      split
      · exact hparse
      · next nmsg hnmsg =>
        obtain ⟨hacc, hfresh⟩ := hparse.rmsg nmsg hnmsg
        exact ih c' nmsg hparse hacc hfresh

/-- The message that the next read goes to. -/
theorem withMbuf_counted (P : Parser ρ) (size : ℕ) {c : Receiver ρ} (h : c.Counted) :
    (withMbuf size c (recvNext P c)).1.Counted ∧
      Accounted (withMbuf size c (recvNext P c)).2.toMsgBuf ∧
      ∀ b ∈ (withMbuf size c (recvNext P c)).2.mhdr, b.gone = [] := by
  have hnext : Accounted (recvNext P c).toMsgBuf ∧ ∀ b ∈ (recvNext P c).mhdr, b.gone = [] := by
    cases hr : c.rmsg with
    | none => simp [recvNext, hr, accounted_empty]
    | some m =>
      rw [recvNext, hr]
      exact h.rmsg m hr
  unfold withMbuf
  split
  · refine ⟨⟨h.received, h.rmsg⟩, ?_, ?_⟩
    · have hacc := hnext.1
      rw [accounted_iff] at hacc ⊢
      simpa [MsgBuf.bytes] using hacc
    · intro b hb
      rcases List.mem_append.1 hb with hb | hb
      · exact hnext.2 b hb
      · rw [List.mem_singleton.1 hb]
        rfl
  · exact ⟨h, hnext⟩

theorem needsMbuf_nil {msg : RecvMsg ρ} (h : msg.mhdr = []) : needsMbuf size msg = true := by
  simp [needsMbuf, h]

theorem withMbuf_ne_nil (c : Receiver ρ) (msg : RecvMsg ρ) : (withMbuf size c msg).2.mhdr ≠ [] := by
  unfold withMbuf
  split
  · simp
  · next hneeds =>
    intro hnil
    exact hneeds (needsMbuf_nil hnil)

theorem gone_copyLast {mhdr : List Mbuf} (hgone : ∀ b ∈ mhdr, b.gone = []) (bs : List Byte) :
    ∀ b ∈ copyLast mhdr bs, b.gone = [] := by
  intro x hx
  unfold copyLast at hx
  split at hx
  · exact hgone x hx
  · next b hlast =>
    rcases List.mem_append.1 hx with hx | hx
    · exact hgone x (List.dropLast_subset _ hx)
    · rw [List.mem_singleton.1 hx]
      exact hgone b (List.mem_of_getLast? hlast)

theorem msgRecvChain_counted {c : Receiver ρ} (h : c.Counted) (avail : List Byte) :
    (msgRecvChain P size c avail).1.Counted := by
  obtain ⟨hc, hacc, hgone⟩ := withMbuf_counted P size h
  unfold msgRecvChain
  dsimp only
  split
  · exact hc.withRmsg ⟨hacc, hgone⟩ rfl rfl
  · refine parseLoop_counted _ _ _ ⟨hc.received, hc.rmsg⟩ (hacc.grow rfl ?_) (gone_copyLast hgone _)
    change (content (copyLast _ _)).length = _
    rw [content_copyLast (withMbuf_ne_nil c _), List.length_append]
    rfl

theorem msgRecv_counted (fuel : ℕ) : ∀ (c : Receiver ρ) (avail : List Byte), c.Counted →
    (msgRecv P size fuel c avail).Counted := by
  induction fuel with
  | zero =>
    intro c avail h
    exact h
  | succ fuel ih =>
    intro c avail h
    have hchain : (msgRecvChain P size c avail).1.Counted := msgRecvChain_counted h avail
    rw [msgRecv]
    split
    · split
      · next hres =>
        rw [hres] at hchain
        exact ih _ _ hchain
      · next hres =>
        rw [hres] at hchain
        exact hchain
    · exact h

/-- **Received messages are counted right**, with any parser, any size of the buffers and any
chunks. -/
theorem recvRun_counted (P : Parser ρ) (size : ℕ) (chunks : List (List Byte)) :
    (recvRun P size chunks).Counted := by
  induction chunks using List.reverseRecOn with
  | nil => exact .empty
  | append_singleton xs y ih =>
    rw [recvRun_concat]
    exact msgRecv_counted _ _ _ ih

end Receiving

/-! ### The fragments of a request -/

/-- What is left of a chain when the bulk at its front is gone. -/
def eatBulk (mhdr : List Mbuf) : List Mbuf :=
  match front mhdr with
  | [] => []
  | b :: bs => eatChain (copyBulkLen b.body) (b :: bs)

/-- **Every value ends where a buffer ends**: the chain begins with `n` keys, each with a value. -/
def ValuesEnd : ℕ → List Mbuf → Prop
  | 0, _ => True
  | n + 1, mhdr => BulkEnds (eatBulk mhdr) ∧ ValuesEnd n (eatBulk (eatBulk mhdr))

theorem redisCopyBulk_src_mhdr {size id : ℕ} {dst dst' : Option MsgBuf} {src src' : MsgBuf}
    (heq : redisCopyBulk size id dst src = some (dst', src')) : src'.mhdr = eatBulk src.mhdr := by
  unfold redisCopyBulk at heq
  split at heq
  · cases heq
  · next b bs hfront =>
    cases heq
    simp only [eatBulk, front, hfront]

section Fragments

variable {size ncontinuum step : ℕ}

/-- The lengths of all fragments are right. -/
def SubsAccounted (sub : ℕ → Option Fragment) : Prop := ∀ i f, sub i = some f → Accounted f.buf

theorem SubsAccounted.update {sub : ℕ → Option Fragment} (h : SubsAccounted sub) {idx : ℕ}
    {f : Fragment}
    (hf : Accounted f.buf) : SubsAccounted (Function.update sub idx (some f)) := by
  intro i g hg
  by_cases hi : i = idx
  · subst hi
    rw [Function.update_self] at hg
    cases hg
    exact hf
  · rw [Function.update_of_ne hi] at hg
    exact h i g hg

theorem keyFragment_accounted (size : ℕ) {s : FragState} (h : SubsAccounted s.sub) (idx : ℕ)
    (key : List Byte) :
    Accounted (keyFragment size s idx key).buf := by
  have hold : Accounted ((s.sub idx).getD {}).buf := by
    cases hs : s.sub idx with
    | none => exact accounted_empty
    | some f => exact h idx f hs
  exact hold.redisAppendKey size _ rfl key

/-- One key, and its value if the request is `MSET`. -/
theorem fragmentKey_accounted {s s' : FragState} {idx : ℕ} {key : List Byte}
    (h : SubsAccounted s.sub)
    (hends : step ≠ 1 → BulkEnds (eatBulk s.src.mhdr))
    (heq : fragmentKey size ncontinuum step s idx key = .ok s') :
    SubsAccounted s'.sub ∧ (step ≠ 1 → s'.src.mhdr = eatBulk (eatBulk s.src.mhdr)) := by
  have hkey := keyFragment_accounted size h idx key
  unfold fragmentKey at heq
  split at heq
  · cases heq
  · dsimp only at heq
    split at heq
    · next hstep =>
      cases heq
      exact ⟨h.update hkey, fun hne => absurd hstep hne⟩
    · next hstep =>
      split at heq
      · cases heq
      · next x src hfirst =>
        have hsrc := redisCopyBulk_src_mhdr hfirst
        split at heq
        · next buf src' hsecond =>
          cases heq
          have hvalue := hends hstep
          rw [← hsrc] at hvalue
          refine ⟨h.update (hkey.redisCopyBulk_dst hvalue hsecond), fun _ => ?_⟩
          rw [← hsrc]
          exact redisCopyBulk_src_mhdr hsecond
        · cases heq

theorem fragmentKeys_accounted (keys : List (ℕ × List Byte)) :
    ∀ s s' : FragState, SubsAccounted s.sub →
    (step ≠ 1 → ValuesEnd keys.length s.src.mhdr) →
    fragmentKeys size ncontinuum step s keys = .ok s' →
    SubsAccounted s'.sub := by
  induction keys with
  | nil =>
    intro s s' h _ heq
    cases heq
    exact h
  | cons p rest ih =>
    obtain ⟨idx, key⟩ := p
    intro s s' h hends heq
    rw [fragmentKeys] at heq
    split at heq
    · cases heq
    · next s₁ hone =>
      obtain ⟨hsub, hsrc⟩ := fragmentKey_accounted h (fun hstep => (hends hstep).1) hone
      refine ih s₁ s' hsub ?_ heq
      intro hstep
      rw [hsrc hstep]
      exact (hends hstep).2

theorem finishFragments_accounted {t : MsgType} (is : List ℕ) :
    ∀ r r' : Fragmented, SubsAccounted r.sub →
    finishFragments size t r is = .ok r' → SubsAccounted r'.sub := by
  induction is with
  | nil =>
    intro r r' h heq
    cases heq
    exact h
  | cons i is ih =>
    intro r r' h heq
    rw [finishFragments] at heq
    split at heq
    · exact ih r r' h heq
    · next f hf =>
      split at heq
      · cases heq
      · next buf hbuf =>
        exact ih _ r' (h.update ((h i f hf).msgPrependFormat size _ hbuf)) heq

theorem keysBytes_length {mhdr : List Mbuf} {ks : List KeyPos} {keys : List (List Byte)}
    (h : keysBytes mhdr ks = some keys) : keys.length = ks.length := by
  induction ks generalizing keys with
  | nil =>
    cases h
    rfl
  | cons k ks ih =>
    simp only [keysBytes, List.mapM_cons, Option.bind_eq_bind, Option.bind_eq_some_iff] at h
    obtain ⟨key, -, rest, hrest, heq⟩ := h
    cases heq
    rw [List.length_cons, List.length_cons, ih hrest]

/-- **The fragments of a request are counted right** if it is `MGET` or `DEL`, or every value ends
where a buffer ends. -/
theorem redisFragmentArgx_accounted {next : ℕ} {idx : ℕ → List Byte → ℕ} {r : RecvMsg ReqRegs}
    {res : Fragmented}
    (hends : step ≠ 1 → ∀ mhdr, skipHeader r.mhdr = some mhdr → ValuesEnd r.regs.keys.length mhdr)
    (heq : redisFragmentArgx size ncontinuum step next idx r = .ok res) :
    SubsAccounted res.sub := by
  unfold redisFragmentArgx at heq
  split at heq
  · next mhdr keys hskip hkeys =>
    have hlen : ((keys.mapIdx idx).zip keys).length = r.regs.keys.length := by
      simp [keysBytes_length hkeys]
    split at heq
    · cases heq
    · next s hs =>
      refine finishFragments_accounted _ _ _ ?_ heq
      refine fragmentKeys_accounted _ _ s
        (fun i f hf => absurd hf.symm (Option.some_ne_none f)) ?_ hs
      intro hstep
      rw [hlen]
      exact hends hstep mhdr hskip
  · cases heq

end Fragments

/-! ### Sequences of operations -/

/-- The fragments and the responses, by number. -/
abbrev Messages := ℕ → MsgBuf

/-- **An operation** that builds or transforms a fragment or a response.  The request that is
fragmented is not among the messages. -/
inductive MsgOp : Type 1 where
  /-- `msg_get` -/
  | get (i : ℕ)
  /-- a message that was received, with `msg_parsed` and `msg_repair`, or is being received -/
  | receive {ρ : Type} (i : ℕ) (P : Parser ρ) (size : ℕ) (chunks : List (List Byte)) (k : ℕ)
  | append (i size id : ℕ) (bs : List Byte)
  | prepend (i id : ℕ) (bs : List Byte)
  | prependFormat (i size id : ℕ) (text : List Byte)
  | redisAppendKey (i size id : ℕ) (key : List Byte)
  | memcacheAppendKey (i size id : ℕ) (key : List Byte)
  /-- `redis_fragment_argx`: the fragment with the index `k` becomes message `i + k` -/
  | fragment (i size ncontinuum step next : ℕ) (idx : ℕ → List Byte → ℕ) (r : RecvMsg ReqRegs)
  /-- `redis_copy_bulk` from `j` to `i` -/
  | redisCopyBulk (i j size id : ℕ)
  /-- `redis_copy_bulk` without a destination -/
  | redisEatBulk (j size id : ℕ)
  | memcacheCopyBulk (i j id : ℕ)
  | redisPreCoalesce (i : ℕ) (req owner : Content RedisRegs) (regs : RedisRegs)
  | memcachePreCoalesce (i : ℕ) (t : MsgType) (stop : BufPos)

/-- The messages after an operation; where it fails they stay as they are. -/
def MsgOp.apply : MsgOp → Messages → Messages
  | .get i, s => Function.update s i {}
  | .receive i P size chunks k, s =>
      let c := recvRun P size chunks
      match (c.received ++ c.rmsg.toList)[k]? with
      | none => s
      | some m => Function.update s i m.toMsgBuf
  | .append i size id bs, s => Function.update s i (msgAppend size id (s i) bs)
  | .prepend i id bs, s => Function.update s i (msgPrepend id (s i) bs)
  | .prependFormat i size id text, s =>
      match msgPrependFormat size id (s i) text with
      | none => s
      | some m => Function.update s i m
  | .redisAppendKey i size id key, s =>
      Function.update s i (CacheProxy.redisAppendKey size id { buf := s i } key).buf
  | .memcacheAppendKey i size id key, s =>
      Function.update s i (CacheProxy.memcacheAppendKey size id (s i) key)
  | .fragment i size ncontinuum step next idx r, s =>
      match redisFragmentArgx size ncontinuum step next idx r with
      | .error _ => s
      | .ok res => fun j => if i ≤ j then ((res.sub (j - i)).map Fragment.buf).getD (s j) else s j
  | .redisCopyBulk i j size id, s =>
      match CacheProxy.redisCopyBulk size id (some (s i)) (s j) with
      | some (some dst, src) => Function.update (Function.update s i dst) j src
      | _ => s
  | .redisEatBulk j size id, s =>
      match CacheProxy.redisCopyBulk size id none (s j) with
      | some (_, src) => Function.update s j src
      | none => s
  | .memcacheCopyBulk i j id, s =>
      match CacheProxy.memcacheCopyBulk id (s i) (s j) with
      | some (dst, src) => Function.update (Function.update s i dst) j src
      | none => s
  | .redisPreCoalesce i req owner regs, s =>
      Function.update s i
        (CacheProxy.redisPreCoalesce req { toMsgBuf := s i, regs := regs } owner).1.toMsgBuf
  | .memcachePreCoalesce i t stop, s =>
      match CacheProxy.memcachePreCoalesce t stop (s i) with
      | none => s
      | some (m, _) => Function.update s i m

/-- **When an operation is harmless**: a bulk that `redis_copy_bulk` moves ends where a buffer ends,
the source of `memcache_copy_bulk` holds the value, and no multi-bulk is nested in a response. -/
def MsgOp.Fine : MsgOp → Messages → Prop
  | .fragment _ _ _ step _ _ r, _ =>
      step ≠ 1 → ∀ mhdr, skipHeader r.mhdr = some mhdr → ValuesEnd r.regs.keys.length mhdr
  | .redisCopyBulk _ j _ _, s => BulkEnds (s j).mhdr
  | .redisEatBulk j _ _, s => BulkEnds (s j).mhdr
  | .memcacheCopyBulk _ j _, s => HoldsValue (s j).mhdr
  | .redisPreCoalesce i _ _ regs, s =>
      regs.rsp.type = .rspRedisMultibulk → HeaderFits (s i) regs.rsp
  | _, _ => True

/-- The messages after a sequence of operations. -/
def runOps (ops : List MsgOp) (s : Messages) : Messages := ops.foldl (fun s op => op.apply s) s

/-- Every operation of a sequence is harmless when its turn comes. -/
def AllFine : List MsgOp → Messages → Prop
  | [], _ => True
  | op :: ops, s => op.Fine s ∧ AllFine ops (op.apply s)

section Sequences

variable {s : Messages}

/-- The lengths of all messages are right. -/
def Messages.Accounted (s : Messages) : Prop := ∀ i, CacheProxy.Accounted (s i)

theorem Messages.Accounted.update (h : s.Accounted) {i : ℕ} {m : MsgBuf}
    (hm : CacheProxy.Accounted m) :
    Messages.Accounted (Function.update s i m) := by
  intro j
  by_cases hj : j = i
  · subst hj
    rw [Function.update_self]
    exact hm
  · rw [Function.update_of_ne hj]
    exact h j

/-- One operation. -/
theorem MsgOp.apply_accounted (op : MsgOp) (h : s.Accounted) (hfine : op.Fine s) :
    (op.apply s).Accounted := by
  cases op with
  | get => exact h.update accounted_empty
  | receive i P size chunks =>
    have hrun := recvRun_counted P size chunks
    simp only [MsgOp.apply]
    split
    · exact h
    · next m hm =>
      refine h.update ?_
      rcases List.mem_append.1 (List.mem_of_getElem? hm) with hmem | hmem
      · exact hrun.received m hmem
      · exact (hrun.rmsg m (Option.mem_toList.1 hmem)).1
  | append i size id bs => exact h.update ((h i).msgAppend size id bs)
  | prepend i id bs => exact h.update ((h i).msgPrepend id bs)
  | prependFormat i size id =>
    simp only [MsgOp.apply]
    split
    · exact h
    · next m hm => exact h.update ((h i).msgPrependFormat size id hm)
  | redisAppendKey i size id key => exact h.update ((h i).redisAppendKey size id rfl key)
  | memcacheAppendKey i size id key => exact h.update ((h i).memcacheAppendKey size id key)
  | fragment i size ncontinuum step next =>
    simp only [MsgOp.apply]
    split
    · exact h
    · next res hres =>
      have hsub := redisFragmentArgx_accounted hfine hres
      intro j
      dsimp only
      split
      · cases hf : res.sub (j - i) with
        | none => exact h j
        | some f => exact hsub (j - i) f hf
      · exact h j
  | redisCopyBulk i j =>
    simp only [MsgOp.apply]
    split
    · next dst src heq =>
      exact (h.update ((h i).redisCopyBulk_dst hfine heq)).update
        ((h j).redisCopyBulk_src hfine heq)
    · exact h
  | redisEatBulk j =>
    simp only [MsgOp.apply]
    split
    · next dst src heq => exact h.update ((h j).redisCopyBulk_src hfine heq)
    · exact h
  | memcacheCopyBulk i j =>
    simp only [MsgOp.apply]
    split
    · next dst src heq =>
      obtain ⟨hdst, hsrc⟩ := (h i).memcacheCopyBulk (h j) hfine heq
      exact (h.update hdst).update hsrc
    · exact h
  | redisPreCoalesce i =>
      exact h.update (CacheProxy.Accounted.redisPreCoalesce (h i) hfine)
  | memcachePreCoalesce i =>
    simp only [MsgOp.apply]
    split
    · exact h
    · next m failed heq => exact h.update ((h i).memcachePreCoalesce heq)

theorem runOps_accounted (ops : List MsgOp) : ∀ s : Messages, s.Accounted → AllFine ops s →
    (runOps ops s).Accounted := by
  induction ops with
  | nil =>
    intro s h _
    exact h
  | cons op ops ih =>
    intro s h hfine
    exact ih _ (op.apply_accounted h hfine.1) hfine.2

/-- **In every sequence of harmless operations the lengths of all messages are right**, and a bulk
of less than `2 ^ 32` bytes that is then moved leaves them right exactly if it ends where a buffer
ends. -/
theorem message_lengths (ops : List MsgOp) (hfine : AllFine ops fun _ => {}) :
    (∀ i, (runOps ops (fun _ => {}) i).mlen = wrap32
      (chainLength (runOps ops (fun _ => {}) i).mhdr)) ∧
      ∀ i j size id b bs dst src, front (runOps ops (fun _ => {}) j).mhdr = b :: bs →
        chainLength (b :: bs) < 2 ^ 32 →
        redisCopyBulk size id (some (runOps ops (fun _ => {}) i)) (runOps ops (fun _ => {}) j) =
          some (some dst, src) →
        (dst.mlen = wrap32 (chainLength dst.mhdr) ↔
          EndsAtBuffer (copyBulkLen b.body) (b :: bs)) := by
  have hall := runOps_accounted ops _ (fun _ => accounted_empty) hfine
  refine ⟨hall, fun i j size id b bs dst src hfront hlt heq => ?_⟩
  exact (hall i).redisCopyBulk_iff hfront hlt heq

end Sequences

/-- A response of one bulk is received and moved to another response. -/
def bulkOps : List MsgOp :=
  [.receive 1 redisParseRsp 464 [str "$1" ++ [CR, LF] ++ str "x" ++ [CR, LF]] 0,
    .redisCopyBulk 0 1 464 7]

theorem message_lengths_bulk : AllFine bulkOps (fun _ => {}) ∧
    (runOps bulkOps (fun _ => {}) 0).mlen = wrap32
      (chainLength (runOps bulkOps (fun _ => {}) 0).mhdr) := by
  have hfine : AllFine bulkOps fun _ => {} := by
    refine ⟨trivial, ?_, trivial⟩
    intro b bs hfront
    -- the message is one buffer, and the bulk is all of it
    have hmhdr : front ((MsgOp.receive 1 redisParseRsp 464
        [str "$1" ++ [CR, LF] ++ str "x" ++ [CR, LF]] 0).apply (fun _ => {}) 1).mhdr =
        [{ id := 0, body := str "$1" ++ [CR, LF] ++ str "x" ++ [CR, LF] }] := by decide +kernel
    rw [hmhdr] at hfront
    cases hfront
    exact ⟨1, by decide +kernel⟩
  exact ⟨hfine, (message_lengths bulkOps hfine).1 0⟩

/-- **A fragment whose length is wrong**: `MSET a x b y` arrives in one buffer, so that each value
is appended to its fragment; the first fragment has 28 bytes, and the length says 35. -/
theorem fragment_counted_twice : ∃ m ∈ (recvRun redisParseReq 464 [smallMset.encode]).received,
    (runOps [.fragment 0 464 2 2 100 (fun j _ => j) m] (fun _ => {}) 0).mlen = 35 ∧
      chainLength (runOps [.fragment 0 464 2 2 100 (fun j _ => j) m] (fun _ => {}) 0).mhdr =
        28 := by
  decide +kernel

end CacheProxy
