/-
**Hash tags keep keys together.**

Of a key with a hash tag only the bytes between the two bytes of the tag are hashed.  Keys with the
same part are on the same server, whatever ring there is, and a request for such keys becomes one
fragment.

The second part needs an index that fits the table of fragments, which has one place for each point
of the ring and not for each server.

Main definitions:

* `tagOf` — the part of a key that counts;
* `FullRing` — a ring that is not empty and whose entries are written;
* `OneFragment` — a request that went into one fragment as a whole.

Main results:

* `taggedKey_eq` — the search of the source finds this part;
* `FullRing.exists_idx` — on such a ring every key has an index;
* `hashTag_together` — **keys with the same part have the same index, and a request for them becomes
  one fragment exactly if that index is below the number of points**;
* `hashTag_outside` — a ring of one point and a request that is not fragmented.
-/

import CacheProxy.BackendIndex
import CacheProxy.RedisPartition

namespace CacheProxy

/-! ### The part of a key that counts -/

/-- **The part of a key that counts**: the bytes strictly between the first `l` and the first `r`
behind it, if there are both and at least one byte between them, and else the key. -/
def tagOf (l r : Byte) (key : List Byte) : List Byte :=
  let inner := key.drop (key.idxOf l + 1)
  if l ∈ key ∧ r ∈ inner ∧ 1 ≤ inner.idxOf r then inner.take (inner.idxOf r) else key

theorem ncStrchr_eq (c : Byte) (bs : List Byte) :
    ncStrchr c bs = if c ∈ bs then some (bs.drop (bs.idxOf c + 1)) else none := by
  induction bs with
  | nil => rfl
  | cons b bs ih =>
    rw [ncStrchr, ih]
    by_cases hb : b = c
    · simp [hb]
    · have hidx : (b :: bs).idxOf c = bs.idxOf c + 1 := List.idxOf_cons_ne bs hb
      simp [hb, Ne.symm hb, hidx]

/-- **The search of the source finds the part that counts.** -/
theorem taggedKey_eq (l r : Byte) (key : List Byte) :
    taggedKey (some (l, r)) key = tagOf l r key := by
  rw [taggedKey, ncStrchr_eq]
  by_cases hl : l ∈ key
  · rw [if_pos hl, tagOf]
    dsimp only
    generalize key.drop (key.idxOf l + 1) = inner
    rw [ncStrchr_eq]
    by_cases hr : r ∈ inner
    · have hlt : inner.idxOf r < inner.length := List.idxOf_lt_length_iff.mpr hr
      have hlen : inner.length - (inner.drop (inner.idxOf r + 1)).length = inner.idxOf r + 1 := by
        rw [List.length_drop]
        omega
      rw [if_pos hr]
      dsimp only
      rw [hlen]
      by_cases hone : 1 ≤ inner.idxOf r
      · rw [if_pos (by omega), if_pos ⟨hl, hr, hone⟩, Nat.add_sub_cancel]
      · rw [if_neg (by omega), if_neg fun h => hone h.2.2]
    · rw [if_neg hr, if_neg fun h => hr h.2.1]
  · rw [if_neg hl, tagOf, if_neg fun h => hl h.1]

/-! ### Every key has an index -/

/-- **A ring**: not empty, and all of its entries written. -/
structure FullRing (p : ServerPool) : Prop where
  pos : 0 < p.ncontinuum
  filled : ∀ i < p.ncontinuum, ∃ e, p.continuum[i]? = some (some e)

section Index

variable {env : Hashing} {p : ServerPool}

/-- The binary search stays inside, also if the ring is not sorted. -/
theorem FullRing.search (h : FullRing p) (hash : ℕ) {fuel : ℕ} : ∀ {left right : ℕ}, left ≤ right →
    right ≤ p.ncontinuum → ∃ last ≤ p.ncontinuum,
      ketamaSearch p.continuum hash fuel left right = some last := by
  induction fuel with
  | zero =>
    intro left right _ hr
    exact ⟨right, hr, rfl⟩
  | succ fuel ih =>
    intro left right hlr hr
    rw [ketamaSearch]
    by_cases hlt : left < right
    · obtain ⟨e, he⟩ := h.filled (left + (right - left) / 2) (by omega)
      rw [if_pos hlt]
      dsimp only
      rw [he]
      dsimp only
      split
      · exact ih (by omega) hr
      · exact ih (by omega) (by omega)
    · exact ⟨right, hr, by rw [if_neg hlt]⟩

theorem FullRing.ketamaDispatch (h : FullRing p) (hash : ℕ) :
    ∃ i, ketamaDispatch p.continuum p.ncontinuum hash = some i := by
  have hpos := h.pos
  obtain ⟨last, hle, hsearch⟩ := h.search hash (Nat.zero_le _) (le_refl _)
  have hin : (if last = p.ncontinuum then 0 else last) < p.ncontinuum := by
    split <;> omega
  obtain ⟨e, he⟩ := h.filled _ hin
  refine ⟨e.index, ?_⟩
  rw [CacheProxy.ketamaDispatch, if_neg hpos.ne', hsearch]
  dsimp only
  rw [he]

theorem FullRing.modulaDispatch (h : FullRing p) (hash : ℕ) :
    ∃ i, modulaDispatch p.continuum p.ncontinuum hash = some i := by
  obtain ⟨e, he⟩ := h.filled _ (Nat.mod_lt hash h.pos)
  refine ⟨e.index, ?_⟩
  rw [CacheProxy.modulaDispatch, if_neg h.pos.ne', he]

/-- **On a ring every key has an index**, which depends on the part of the key that counts. -/
theorem FullRing.exists_idx (h : FullRing p) (hdist : p.distType = .ketama ∨ p.distType = .modula)
    (env : Hashing)
    {l r : Byte} (htag : p.hashTag = some (l, r)) (part : List Byte) :
    ∃ i, ∀ rnd key, tagOf l r key = part → serverPoolIdx env p rnd key = some i := by
  rcases hdist with hd | hd
  · obtain ⟨i, hi⟩ := h.ketamaDispatch (serverPoolHash env p part)
    refine ⟨i, fun rnd key hkey => ?_⟩
    rw [serverPoolIdx, htag, taggedKey_eq, hkey, hd]
    exact hi
  · obtain ⟨i, hi⟩ := h.modulaDispatch (serverPoolHash env p part)
    refine ⟨i, fun rnd key hkey => ?_⟩
    rw [serverPoolIdx, htag, taggedKey_eq, hkey, hd]
    exact hi

end Index

/-! ### One fragment -/

/-- **The request went into the fragment of the index `i` as a whole**: it is the only one, and
carries all keys, and values, in their order. -/
structure OneFragment {size : ℕ} (q : Request size) (i : ℕ) (res : Fragmented) : Prop where
  queue : res.queue = [i]
  nfrag : res.nfrag = 1
  only : ∀ j, j ≠ i → res.sub j = none
  bytes : ∃ f, res.sub i = some f ∧ f.type = q.type ∧
    f.buf.bytes = respEncode (fragmentName q.type :: q.args)

section Fragments

theorem groupOf_replicate {α : Type} {i : ℕ} (xs : List α) :
    groupOf (List.replicate xs.length i) i xs = xs := by
  have hall : ∀ p ∈ (List.replicate xs.length i).zip xs, decide (p.1 = i) = true := fun p hp =>
    decide_eq_true (List.eq_of_mem_replicate (List.of_mem_zip hp).1)
  rw [groupOf, List.filter_eq_self.mpr hall, List.map_snd_zip (by simp)]

theorem filter_range_eq {i n : ℕ} (h : i < n) : (List.range n).filter (fun j => j = i) = [i] := by
  induction n with
  | zero => omega
  | succ n ih =>
    rw [List.range_succ, List.filter_append]
    rcases Nat.lt_or_eq_of_le (Nat.le_of_lt_succ h) with hlt | rfl
    · rw [ih hlt, List.filter_cons_of_neg (by simp; omega)]
      rfl
    · have hnone : (List.range i).filter (fun j => j = i) = [] :=
        List.filter_eq_nil_iff.mpr fun j hj => by
          have := List.mem_range.mp hj
          simp
          omega
      rw [hnone, List.filter_cons_of_pos (by simp)]
      rfl

variable {size : ℕ} {q : Request size} {i ncontinuum : ℕ} {res : Fragmented}

/-- A partition by one index is one fragment. -/
theorem Partitioned.oneFragment (hmulti : q.Multi) (hpos : 0 < q.items.length) (hi : i < ncontinuum)
    (h : Partitioned q (List.replicate q.items.length i) ncontinuum res) : OneFragment q i res := by
  have hmem : ∀ j, j ∈ List.replicate q.items.length i ↔ j = i := fun j => by
    rw [List.mem_replicate]
    exact ⟨fun hj => hj.2, fun hj => ⟨hpos.ne', hj⟩⟩
  have hqueue : res.queue = [i] := by
    rw [h.queue]
    simp only [hmem]
    exact filter_range_eq hi
  refine ⟨hqueue, by rw [h.nfrag, hqueue]; rfl, fun j hj => ?_, ?_⟩
  · cases hsub : res.sub j with
    | none => rfl
    | some f => exact absurd ((hmem j).mp ((h.occurs j).mp ⟨f, hsub⟩)) hj
  · obtain ⟨f, hf⟩ := (h.occurs i).mpr ((hmem i).mpr rfl)
    refine ⟨f, hf, h.type i f hf, ?_⟩
    rw [h.bytes i f hf, groupOf_replicate, (q.items_spec hmulti).2.2]

variable {msg : RecvMsg ReqRegs} {next : ℕ} {idx : ℕ → List Byte → ℕ}

/-- An index outside of the table: the first key is not handled. -/
theorem redisFragment_outside (hsize : 464 ≤ size)
    (h : Delivered size (reqMachine size) ReqOutRel msg q.frame)
    (hmulti : q.Multi) (htwo : 2 ≤ (q.cls.keys q.args).length)
    (hidx : ∀ j, ∀ k ∈ q.cls.keys q.args, idx j k = i) (hout : ncontinuum ≤ i) :
    redisFragment size ncontinuum next idx msg = .error .outOfBounds := by
  obtain ⟨mhdr, hskip, -⟩ := exists_start hsize h hmulti htwo next
  rw [redisFragment_eq h hmulti htwo, redisFragmentArgx, hskip, keysBytes_delivered h]
  dsimp only
  cases hkeys : q.cls.keys q.args with
  | nil =>
    rw [hkeys] at htwo
    exact absurd htwo (by decide)
  | cons k =>
    rw [List.mapIdx_cons, List.zip_cons_cons, fragmentKeys, fragmentKey, hidx 0 k (by simp [hkeys]),
      if_pos hout]

/-- Keys that all have the index `i`. -/
theorem Request.indexes_eq (hmulti : q.Multi) (hidx : ∀ j, ∀ k ∈ q.cls.keys q.args, idx j k = i) :
    q.indexes idx = List.replicate q.items.length i := by
  refine List.eq_replicate_iff.mpr ⟨q.length_indexes hmulti idx, fun n hn => ?_⟩
  obtain ⟨j, hj, rfl⟩ := List.mem_mapIdx.mp hn
  exact hidx j _ (List.getElem_mem hj)

end Fragments

/-! ### Keys with the same part -/

/-- `msg_backend_idx` for the `j`-th key, on a fixed ring. -/
def backendIndex (env : Hashing) (p : ServerPool) (rnd : ℕ → ℕ) (j : ℕ) (key : List Byte) : ℕ :=
  (serverPoolIdx env p (rnd j) key).getD 0

/-- **Hash tags keep keys together.**  On any ring of a ketama or modula pool with a hash tag, keys
with the same part that counts have the same index.  And a canonical `MGET`, `DEL` or `MSET` for at
least two such keys, received in any chunks, whose bulks have less than `2 ^ 32` bytes and whose
arguments are less than `2 ^ 31`, becomes one fragment with all keys, and values, in their order,
exactly if the index is below the number of points. -/
theorem hashTag_together (env : Hashing) {p : ServerPool} (hring : FullRing p)
    (hdist : p.distType = .ketama ∨ p.distType = .modula) {l r : Byte}
    (htag : p.hashTag = some (l, r))
    (part : List Byte) :
    ∃ i, (∀ rnd key, tagOf l r key = part → serverPoolIdx env p rnd key = some i) ∧
      ∀ {size : ℕ}, 464 ≤ size → size < 2 ^ 31 → ∀ {qs : List (Request size)},
        (∀ q ∈ qs, q.cls ≠ .argeval) →
      ∀ {chunks : List (List Byte)}, chunks.flatten = qs.flatMap Request.encode →
      (∀ x ∈ (recvRun redisParseReq size chunks).reads, wrap32 x ≠ 0) →
      ∀ {msg : RecvMsg ReqRegs} {q : Request size},
      (msg, q) ∈ (recvRun redisParseReq size chunks).received.zip qs → q.Multi →
      2 ≤ (q.cls.keys q.args).length → (∀ k ∈ q.cls.keys q.args, tagOf l r k = part) →
      (∀ v ∈ q.args, (bulk v).length < 2 ^ 32) → q.args.length + 1 < 2 ^ 31 →
      ∀ (next : ℕ) (rnd : ℕ → ℕ),
        (∃ res, redisFragment size p.ncontinuum next (backendIndex env p rnd) msg = .ok res ∧
          OneFragment q i res) ↔ i < p.ncontinuum := by
  obtain ⟨i, hi⟩ := hring.exists_idx hdist env htag part
  refine ⟨i, hi, ?_⟩
  intro size hsize hmax qs heval chunks hstream hwrap msg q hmem hmulti htwo hkeys hbulk hargs
    next rnd
  have hdel := recvRun_delivered (by omega) (by omega)
    (fun q hq => q.accepted hsize (heval q hq)) hstream hwrap hmem
  have hidx : ∀ j, ∀ k ∈ q.cls.keys q.args, backendIndex env p rnd j k = i := fun j k hk => by
    rw [backendIndex, hi (rnd j) k (hkeys k hk), Option.getD_some]
  constructor
  · rintro ⟨res, hres, -⟩
    by_contra hout
    rw [redisFragment_outside hsize hdel hmulti htwo hidx (not_lt.mp hout)] at hres
    cases hres
  · intro hlt
    have hindexes := q.indexes_eq hmulti hidx
    have hitems : q.items.length = (q.cls.keys q.args).length := by
      rw [← q.length_indexes hmulti (backendIndex env p rnd), Request.indexes, List.length_mapIdx]
    have hbelow : ∀ j ∈ q.indexes (backendIndex env p rnd), j < p.ncontinuum := by
      intro j hj
      rw [hindexes] at hj
      rw [List.eq_of_mem_replicate hj]
      exact hlt
    have hshort : ∀ j, (groupOf (q.indexes (backendIndex env p rnd)) j q.items).flatten.length + 1 <
      2 ^ 31 := by
      intro j
      have hle := length_groupOf_le (q.length_indexes hmulti (backendIndex env p rnd)) j
      rw [(q.items_spec hmulti).2.2] at hle
      exact lt_of_le_of_lt (Nat.succ_le_succ hle) hargs
    obtain ⟨res, hres, hpart⟩ :=
      (partitioned_iff_of_bulk hsize hmax hdel hmulti htwo p.ncontinuum next
      (backendIndex env p rnd) hbelow hbulk).mpr hshort
    rw [hindexes] at hpart
    exact ⟨res, hres, hpart.oneFragment hmulti (by omega) hlt⟩

/-- Two servers, two points, and a hash tag. -/
def taggedPool : ServerPool :=
  { equalPool with
    hashTag := some (123, 125), continuum := [some ⟨0, 0⟩, some ⟨1, 0⟩], ncontinuum := 2 }

/-- The same pool when only the point of the second server is left. -/
def lonelyPool : ServerPool := { taggedPool with continuum := [some ⟨1, 0⟩], ncontinuum := 1 }

/-- `DEL {a}x {a}y`. -/
def taggedDel : Request 464 where
  name := str "DEL"
  args := [str "\x7ba\x7dx", str "\x7ba\x7dy"]
  type := .reqRedisDel
  cls := .argx
  supported := ⟨"del", by decide, rfl, by decide⟩
  class_eq := by decide
  admits := by
    change 1 ≤ 2
    decide
  count_lt := by
    change 3 < 2 ^ 32
    decide
  length_lt := by decide
  key_lt := by decide

/-- The request is received. -/
theorem taggedDel_received : ∃ msg, (recvRun redisParseReq 464 [taggedDel.encode]).received =
    [msg] := by
  have hlen : (recvRun redisParseReq 464 [taggedDel.encode]).received.length = 1 := by
    decide +kernel
  exact List.length_eq_one_iff.1 hlen

/-- With two points the request becomes one fragment. -/
theorem hashTag_together_two : ∃ i msg res,
    (recvRun redisParseReq 464 [taggedDel.encode]).received = [msg] ∧
    redisFragment 464 2 1 (backendIndex lengthHashing taggedPool fun _ => 0) msg = .ok res ∧
    OneFragment taggedDel i res := by
  have hring : FullRing taggedPool := ⟨by decide, fun i hi => by
    have hi : i < 2 := hi
    obtain rfl | rfl : i = 0 ∨ i = 1 := by omega
    · exact ⟨_, rfl⟩
    · exact ⟨_, rfl⟩⟩
  obtain ⟨i, hi, hone⟩ := hashTag_together lengthHashing hring (.inr rfl) rfl (str "a")
  obtain ⟨msg, hmsg⟩ := taggedDel_received
  have hlt : i < 2 := by
    have hidx := hi 0 (str "\x7ba\x7dx") (by decide)
    rw [show serverPoolIdx lengthHashing taggedPool 0 (str "\x7ba\x7dx") = some 1 by decide] at hidx
    cases hidx
    decide
  obtain ⟨res, hres, hfrag⟩ :=
    (hone (by decide) (by decide) (show ∀ q ∈ [taggedDel], q.cls ≠ .argeval by decide)
    (show [taggedDel.encode].flatten = _ by simp) (by decide +kernel)
    (show (msg, taggedDel) ∈ _ by rw [hmsg]; simp) (.inr (.inl rfl)) (by decide) (by decide)
    (by decide) (by decide) 1 fun _ => 0).mpr hlt
  exact ⟨i, msg, res, hmsg, hres, hfrag⟩

/-- **A ring of one point, of the second server**: the index is one, and there is no such place in
the table. -/
theorem hashTag_outside : FullRing lonelyPool ∧
    tagOf 123 125 (str "\x7ba\x7dx") = tagOf 123 125 (str "\x7ba\x7dy") ∧
    ∃ msg, (recvRun redisParseReq 464 [taggedDel.encode]).received = [msg] ∧
      redisFragment 464 lonelyPool.ncontinuum 1
        (backendIndex lengthHashing lonelyPool fun _ => 0) msg =
        .error .outOfBounds := by
  refine ⟨⟨by decide, fun i hi => ⟨⟨1, 0⟩, ?_⟩⟩, by decide, ?_⟩
  · have hi : i < 1 := hi
    obtain rfl : i = 0 := by omega
    rfl
  · obtain ⟨msg, hmsg⟩ := taggedDel_received
    have hdel := recvRun_delivered (by decide) (by decide)
      (fun q hq => q.accepted (by decide) (by rw [List.mem_singleton.mp hq]; decide))
        (show [taggedDel.encode].flatten = [taggedDel].flatMap Request.encode by simp)
      (by decide +kernel) (show (msg, taggedDel) ∈ _ by rw [hmsg]; simp)
    exact ⟨msg, hmsg, redisFragment_outside (by decide) hdel (.inr (.inl rfl)) (by decide)
      (show ∀ j, ∀ k ∈ _, _ = 1 from fun j k hk => by
        rcases List.mem_pair.1 hk with rfl | rfl <;> rfl) (by decide)⟩

end CacheProxy
