/-
**Fragmentation of multi-key requests.**

A request `MGET`, `DEL` or `MSET` with several keys is split by `redis_fragment` into one request
for each backend index that occurs.  Keys are copied; the values of an `MSET` are moved out of the
request with `redis_copy_bulk`.

A fragment is named by its place in the table `sub_msgs`, which has one for each index.

Main definitions:

* `Fragment`, `redisAppendKey` — a fragment under construction, and a key added to it;
* `FragState`, `fragmentKey`, `redisFragmentArgx`, `redisFragment` — the functions of the source;
* `groupOf` — what goes to one index;
* `Gathered`, `Finished` — what the loop over the keys has done, and the loop over the fragments.

Main results:

* `fragmentKey_step`, `fragmentKeys_gathered` — one key, and all keys;
* `finishFragments_finished` — the headers.
-/

import CacheProxy.CopyBulk

namespace CacheProxy

open Decimal

/-! ### The functions -/

/-- The text that `%d` prints for a `uint32_t`: from `2 ^ 31` on it is taken for a negative
number. -/
def fmtInt (n : ℕ) : List Byte :=
  if wrap32 n < 2 ^ 31 then numeral (wrap32 n) else 45 :: numeral (2 ^ 32 - wrap32 n)

theorem fmtInt_of_lt {n : ℕ} (h : n < 2 ^ 31) : fmtInt n = numeral n := by
  have hn : wrap32 n = n := wrap32_of_lt (by omega)
  rw [fmtInt, hn, if_pos h]

/-- A fragment: the fields of its message that fragmentation writes. -/
structure Fragment where
  buf : MsgBuf := {}
  narg : ℕ := 0
  keys : List KeyPos := []
  type : MsgType := .unknown
  deriving DecidableEq, Repr

/-- `redis_append_key`: the length, the key and the line end, each in one mbuf. -/
def redisAppendKey (size next : ℕ) (f : Fragment) (key : List Byte) : Fragment :=
  let buf := msgAppend size next f.buf (36 :: fmtInt key.length ++ [CR, LF])
  let kpos := (msgEnsureMbuf size (next + 1) buf.mhdr key.length).getLast?.map fun b =>
    { mbuf := b.id, start := b.data.length, stop := b.data.length + key.length : KeyPos }
  let buf := msgAppend size (next + 1) buf key
  { f with buf := msgAppend size (next + 2) buf [CR, LF], keys := f.keys ++ kpos.toList }

/-- Why a request was not fragmented. -/
inductive FragError where
  /-- an access outside of `sub_msgs` or of an mbuf -/
  | outOfBounds
  /-- a status other than `NC_OK` -/
  | error
  deriving DecidableEq, Repr

/-- The state of `redis_fragment_argx`: the request's chain, `sub_msgs`, `frag_seq` (the places in
`sub_msgs`), and the next mbuf to be taken. -/
structure FragState where
  src : MsgBuf
  sub : ℕ → Option Fragment := fun _ => none
  seq : List ℕ := []
  next : ℕ

/-- The fragment of the index `idx`, made if there is none, with the key at its end. -/
def keyFragment (size : ℕ) (s : FragState) (idx : ℕ) (key : List Byte) : Fragment :=
  let f := (s.sub idx).getD {}
  redisAppendKey size s.next { f with narg := wrap32 (f.narg + 1) } key

/-- The body of the loop over the keys. -/
def fragmentKey (size ncontinuum step : ℕ) (s : FragState) (idx : ℕ) (key : List Byte) :
    Except FragError FragState :=
  if ncontinuum ≤ idx then .error .outOfBounds
  else
    let f := keyFragment size s idx key
    if step = 1 then
      .ok { s with
        sub := Function.update s.sub idx (some f), seq := s.seq ++ [idx], next := s.next + 3 }
    else
      match redisCopyBulk size (s.next + 3) none s.src with
      | none => .error .error
      | some (_, src) =>
          match redisCopyBulk size (s.next + 3) (some f.buf) src with
          | some (some buf, src) =>
              .ok { s with
                src := src
                sub := Function.update s.sub idx
                  (some { f with buf := buf, narg := wrap32 (f.narg + 1) })
                seq := s.seq ++ [idx]
                next := s.next + 4 }
          | _ => .error .error

/-- The loop over the keys. -/
def fragmentKeys (size ncontinuum step : ℕ) :
    FragState → List (ℕ × List Byte) → Except FragError FragState
  | s, [] => .ok s
  | s, (idx, key) :: rest =>
      match fragmentKey size ncontinuum step s idx key with
      | .error e => .error e
      | .ok s' => fragmentKeys size ncontinuum step s' rest

/-- The header that is put before a fragment of type `t` with `narg` arguments. -/
def fragmentHeader (t : MsgType) (narg : ℕ) : List Byte :=
  let narg := wrap32 (narg + 1)
  match t with
  | .reqRedisMget => 42 :: fmtInt narg ++ [CR, LF] ++ str "$4" ++ [CR, LF] ++ str "mget" ++ [CR, LF]
  | .reqRedisDel => 42 :: fmtInt narg ++ [CR, LF] ++ str "$3" ++ [CR, LF] ++ str "del" ++ [CR, LF]
  | _ => 42 :: fmtInt narg ++ [CR, LF] ++ str "$4" ++ [CR, LF] ++ str "mset" ++ [CR, LF]

/-- What fragmentation leaves behind: the request's chain, the fragments, `frag_seq`, the queue
`frag_msgq` and `nfrag`. -/
structure Fragmented where
  src : MsgBuf
  sub : ℕ → Option Fragment := fun _ => none
  seq : List ℕ := []
  queue : List ℕ := []
  nfrag : ℕ := 0
  next : ℕ

/-- The finished fragment `f` goes into the queue. -/
def Fragmented.enqueue (r : Fragmented) (i : ℕ) (f : Fragment) : Fragmented :=
  { r with
    sub := Function.update r.sub i (some f)
    queue := r.queue ++ [i]
    nfrag := r.nfrag + 1
    next := r.next + 1 }

/-- The loop that puts the headers before the fragments and queues them. -/
def finishFragments (size : ℕ) (t : MsgType) :
    Fragmented → List ℕ → Except FragError Fragmented
  | r, [] => .ok r
  | r, i :: is =>
      match r.sub i with
      | none => finishFragments size t r is
      | some f =>
          match msgPrependFormat size r.next f.buf (fragmentHeader t f.narg) with
          | none => .error .error
          | some buf =>
              finishFragments size t (r.enqueue i { f with buf := buf, type := t }) is

/-- The marker of the first mbuf moves behind the next line feed; `none` if there is none. -/
def skipLine (b : Mbuf) : Option Mbuf :=
  if LF ∈ b.body then some (b.advance ((b.body.takeWhile fun c => c != LF).length + 1)) else none

/-- The chain without the lines `*narg`, `$4` and `MGET`, which have to be in the first mbuf. -/
def skipHeader : List Mbuf → Option (List Mbuf)
  | [] => none
  | b :: bs =>
      match ((skipLine { b with gone := [], body := b.data }).bind skipLine).bind skipLine with
      | none => none
      | some b' => some (b' :: bs)

/-- The bytes of the keys; `none` if a key is not in the request's mbufs.  Eating or moving an mbuf
does not change its bytes, so the keys can be read before the loop begins. -/
def keysBytes (mhdr : List Mbuf) (keys : List KeyPos) : Option (List (List Byte)) :=
  keys.mapM (keyBytes mhdr)

/-- **`redis_fragment_argx`**; `idx j key` is what the call of `msg_backend_idx` for the `j`-th key
gives. -/
def redisFragmentArgx (size ncontinuum step next : ℕ) (idx : ℕ → List Byte → ℕ)
    (r : RecvMsg ReqRegs) : Except FragError Fragmented :=
  match skipHeader r.mhdr, keysBytes r.mhdr r.regs.keys with
  | some mhdr, some keys =>
      match fragmentKeys size ncontinuum step
          { src := { mhdr := mhdr, mlen := r.mlen }, next := next }
          ((keys.mapIdx idx).zip keys) with
      | .error e => .error e
      | .ok s =>
          finishFragments size r.regs.type
            { src := s.src, sub := s.sub, seq := s.seq, next := s.next } (List.range ncontinuum)
  | _, _ => .error .outOfBounds

/-- **`redis_fragment`.** -/
def redisFragment (size ncontinuum next : ℕ) (idx : ℕ → List Byte → ℕ) (r : RecvMsg ReqRegs) :
    Except FragError Fragmented :=
  if r.regs.keys.length = 1 then .ok { src := r.toMsgBuf, next := next }
  else
    match r.regs.type with
    | .reqRedisMget | .reqRedisDel => redisFragmentArgx size ncontinuum 1 next idx r
    | .reqRedisMset => redisFragmentArgx size ncontinuum 2 next idx r
    | _ => .ok { src := r.toMsgBuf, next := next }

/-! ### Groups -/

/-- The members of `xs` whose index is `i`, in order and with multiplicity. -/
def groupOf {α : Type} (idxs : List ℕ) (i : ℕ) (xs : List α) : List α :=
  ((idxs.zip xs).filter fun p => p.1 = i).map Prod.snd

theorem groupOf_append {α : Type} {idxs : List ℕ} {xs : List α} (h : idxs.length = xs.length)
    (i j : ℕ) (x : α) :
    groupOf (idxs ++ [j]) i (xs ++ [x]) = groupOf idxs i xs ++ if j = i then [x] else [] := by
  rw [groupOf, List.zip_append h, List.filter_append, List.map_append]
  by_cases hji : j = i <;> simp [groupOf, hji]

theorem groupOf_subset {α : Type} {idxs : List ℕ} {i : ℕ} {xs : List α} :
    ∀ x ∈ groupOf idxs i xs, x ∈ xs := by
  intro x hx
  obtain ⟨p, hp, rfl⟩ := List.mem_map.1 hx
  exact (List.of_mem_zip (List.mem_filter.1 hp).1).2

theorem groupOf_eq_nil {α : Type} {idxs : List ℕ} {xs : List α} (h : idxs.length = xs.length)
    {i : ℕ} : groupOf idxs i xs = [] ↔ i ∉ idxs := by
  have hfst : (idxs.zip xs).map Prod.fst = idxs := List.map_fst_zip h.le
  rw [groupOf, List.map_eq_nil_iff, List.filter_eq_nil_iff]
  conv_rhs => rw [← hfst]
  constructor
  · intro hall hmem
    obtain ⟨p, hp, rfl⟩ := List.mem_map.1 hmem
    exact hall p hp (by simp)
  · intro hnot p hp hpi
    exact hnot (List.mem_map.2 ⟨p, hp, by simpa using hpi⟩)

/-! ### The first lines of the request -/

theorem skipLine_eq {b : Mbuf} {line rest : List Byte} (h : b.body = line ++ LF :: rest)
    (hline : LF ∉ line) : skipLine b = some (b.advance (line.length + 1)) := by
  have htake : (line ++ LF :: rest).takeWhile (fun c => c != LF) = line := by
    have hall : ∀ c ∈ line, (c != LF) = true := by
      intro c hc
      simpa using fun heq : c = LF => hline (heq ▸ hc)
    rw [List.takeWhile_append_of_pos hall]
    simp
  rw [skipLine, h, if_pos (by simp), htake]

/-- **Three lines are skipped** if they are in the first buffer. -/
theorem skipHeader_eq {b : Mbuf} (bs : List Mbuf) {l₁ l₂ l₃ rest : List Byte} (hgone : b.gone = [])
    (hbody : b.body = l₁ ++ LF :: (l₂ ++ LF :: (l₃ ++ LF :: rest))) (h₁ : LF ∉ l₁) (h₂ : LF ∉ l₂)
    (h₃ : LF ∉ l₃) :
    ∃ b', skipHeader (b :: bs) = some (b' :: bs) ∧ b'.body = rest := by
  have hdata : { b with gone := [], body := b.data } = b := by
    cases b
    simp_all [Mbuf.data]
  rw [skipHeader, hdata, skipLine_eq hbody h₁, Option.bind_some]
  have hbody₁ : (b.advance (l₁.length + 1)).body = l₂ ++ LF :: (l₃ ++ LF :: rest) := by
    simp [hbody]
  rw [skipLine_eq hbody₁ h₂, Option.bind_some]
  have hbody₂ : ((b.advance (l₁.length + 1)).advance (l₂.length + 1)).body = l₃ ++ LF :: rest := by
    rw [Mbuf.advance_body, hbody₁]
    simp
  rw [skipLine_eq hbody₂ h₃]
  refine ⟨_, rfl, ?_⟩
  rw [Mbuf.advance_body, hbody₂]
  simp

/-! ### One key -/

theorem keyFragment_bytes (size : ℕ) (s : FragState) (idx : ℕ) {key : List Byte}
    (h : key.length < 2 ^ 31) :
    (keyFragment size s idx key).buf.bytes = ((s.sub idx).getD {}).buf.bytes ++ bulk key ∧
      (keyFragment size s idx key).narg = wrap32 (((s.sub idx).getD {}).narg + 1) := by
  refine ⟨?_, rfl⟩
  simp [keyFragment, redisAppendKey, fmtInt_of_lt h, bulk, bulkBody]

/-- **What the loop over the keys has gathered** when the parts `done` with the indexes `idxs` have
been treated and the parts `rest` remain. -/
structure Gathered (step : ℕ) (s : FragState) (idxs : List ℕ)
    (done rest : List (List (List Byte))) :
    Prop where
  seq : s.seq = idxs
  length_eq : idxs.length = done.length
  none_iff : ∀ i, s.sub i = none ↔ i ∉ idxs
  bytes : ∀ i f, s.sub i = some f → f.buf.bytes = (groupOf idxs i done).flatten.flatMap bulk
  narg : ∀ i f, s.sub i = some f → f.narg = wrap32 (groupOf idxs i done).flatten.length
  src : step ≠ 1 → s.src.bytes = rest.flatten.flatMap bulk ∧
    Unsplit s.src.mhdr 0 (rest.flatten.map bulk)

/-- The fragment of an index, or the new one. -/
theorem Gathered.getD {step : ℕ} {s : FragState} {idxs : List ℕ}
    {done rest : List (List (List Byte))} (h : Gathered step s idxs done rest) (idx : ℕ) :
    ((s.sub idx).getD {}).buf.bytes = (groupOf idxs idx done).flatten.flatMap bulk ∧
      ((s.sub idx).getD {}).narg = wrap32 (groupOf idxs idx done).flatten.length := by
  cases hs : s.sub idx with
  | none =>
      have hnil := (groupOf_eq_nil h.length_eq).2 ((h.none_iff idx).1 hs)
      rw [hnil]
      exact ⟨rfl, rfl⟩
  | some g => exact ⟨h.bytes idx g hs, h.narg idx g hs⟩

/-- The fragment of the index, with another part. -/
theorem Gathered.update {step : ℕ} {s s' : FragState} {idxs : List ℕ}
    {done rest : List (List (List Byte))} {idx : ℕ} {item : List (List Byte)} {f : Fragment}
    (h : Gathered step s idxs done (item :: rest))
    (hsub : s'.sub = Function.update s.sub idx (some f)) (hseq : s'.seq = s.seq ++ [idx])
    (hbytes : f.buf.bytes = ((s.sub idx).getD {}).buf.bytes ++ item.flatMap bulk)
    (hnarg : f.narg = wrap32 (((s.sub idx).getD {}).narg + item.length))
    (hsrc : step ≠ 1 → s'.src.bytes = rest.flatten.flatMap bulk ∧
      Unsplit s'.src.mhdr 0 (rest.flatten.map bulk)) :
    Gathered step s' (idxs ++ [idx]) (done ++ [item]) rest := by
  obtain ⟨holdb, holdn⟩ := h.getD idx
  have hgroup : ∀ i, groupOf (idxs ++ [idx]) i (done ++ [item]) =
      groupOf idxs i done ++ if idx = i then [item] else [] :=
    fun i => groupOf_append h.length_eq i idx item
  constructor
  · rw [hseq, h.seq]
  · simp [h.length_eq]
  · intro i
    rw [hsub]
    by_cases hi : i = idx
    · simp [hi]
    · simp [h.none_iff, hi]
  · intro i g hg
    rw [hsub] at hg
    rw [hgroup]
    by_cases hi : i = idx
    · subst hi
      rw [Function.update_self] at hg
      cases hg
      rw [hbytes, holdb]
      simp
    · rw [Function.update_of_ne hi] at hg
      rw [if_neg (Ne.symm hi), List.append_nil]
      exact h.bytes i g hg
  · intro i g hg
    rw [hsub] at hg
    rw [hgroup]
    by_cases hi : i = idx
    · subst hi
      rw [Function.update_self] at hg
      cases hg
      rw [hnarg, holdn]
      simp [wrap32, Nat.add_mod]
    · rw [Function.update_of_ne hi] at hg
      rw [if_neg (Ne.symm hi), List.append_nil]
      exact h.narg i g hg
  · exact hsrc

/-- The bytes of a key, or of a key and a value, can be handled. -/
def Handled (step : ℕ) (item : List (List Byte)) : Prop :=
  ∃ k, k.length < 2 ^ 31 ∧ ((step = 1 ∧ item = [k]) ∨
    ∃ v, step ≠ 1 ∧ item = [k, v] ∧ (bulk v).length < 2 ^ 32)

theorem isBulk_bulk {v : List Byte} (h : v.length < 2 ^ 32) : IsBulk (bulk v) := .inr ⟨v, h, rfl⟩

theorem length_lt_bulk (v : List Byte) : v.length < (bulk v).length := by
  rw [length_bulk]
  omega

theorem length_bulk_lt {k : List Byte} (h : k.length < 2 ^ 31) : (bulk k).length < 2 ^ 32 := by
  have hten : (numeral k.length).length ≤ 10 := numeral_length_le_ten (by omega)
  rw [length_bulk]
  omega

/-- A key that is eaten, and a value that is moved as far as its length modulo `2 ^ 32` says. -/
theorem fragmentKey_pair {ncontinuum step : ℕ} (size : ℕ) {s : FragState} {idx : ℕ}
    {k v rest : List Byte} {ps : List (List Byte)} (hidx : idx < ncontinuum) (hstep : step ≠ 1)
    (hk : k.length < 2 ^ 31) (hv : v.length < 2 ^ 32)
    (hsrc : s.src.bytes = bulk k ++ (bulk v ++ rest))
    (hun : Unsplit s.src.mhdr 0 (bulk k :: bulk v :: ps)) :
    ∃ s' f, fragmentKey size ncontinuum step s idx k = .ok s' ∧
      s'.sub = Function.update s.sub idx (some f) ∧ s'.seq = s.seq ++ [idx] ∧
      f.buf.bytes = ((s.sub idx).getD {}).buf.bytes ++ bulk k ++
        (bulk v ++ rest).take ((bulk v).length % 2 ^ 32) ∧
      f.narg = wrap32 (((s.sub idx).getD {}).narg + 2) ∧
      ((bulk v).length < 2 ^ 32 → s'.src.bytes = rest ∧ Unsplit s'.src.mhdr 0 ps) := by
  obtain ⟨hbytes, hnarg⟩ := keyFragment_bytes size s idx hk
  obtain ⟨src₁, heat, hb₁, hun₁, -⟩ :
      ∃ src', redisCopyBulk size (s.next + 3) none s.src = some (none, src') ∧ _ :=
    redisCopyBulk_eat (isBulk_bulk (by omega)) hsrc hun (length_bulk_lt hk)
  obtain ⟨buf, src₂, hcopy, hbuf, hmoved⟩ :
      ∃ d' src', redisCopyBulk size (s.next + 3)
        (some (keyFragment size s idx k).buf) src₁ = some (some d', src') ∧ _ :=
    redisCopyBulk_spec (isBulk_bulk hv) hb₁ hun₁ _
  refine ⟨{ s with
      src := src₂
      sub := Function.update s.sub idx (some { keyFragment size s idx k with
        buf := buf, narg := wrap32 ((keyFragment size s idx k).narg + 1) })
      seq := s.seq ++ [idx], next := s.next + 4 }, _, ?_, rfl, rfl, ?_, ?_,
    fun hshort => ⟨(hmoved hshort).1, (hmoved hshort).2.1⟩⟩
  · rw [fragmentKey, if_neg (Nat.not_le.2 hidx), if_neg hstep]
    simp only [heat, hcopy]
  · rw [hbuf, hbytes]
  · rw [hnarg]
    simp only [wrap32]
    omega

/-- **One key.**  Its fragment gets the key, and for `MSET` the value, at the end. -/
theorem fragmentKey_step {ncontinuum step : ℕ} (size : ℕ) {s : FragState} {idxs : List ℕ}
    {done rest : List (List (List Byte))} {idx : ℕ} {item : List (List Byte)} {key : List Byte}
    (h : Gathered step s idxs done (item :: rest)) (hidx : idx < ncontinuum)
    (hkey : item.head? = some key) (hitem : Handled step item) :
    ∃ s', fragmentKey size ncontinuum step s idx key = .ok s' ∧
      Gathered step s' (idxs ++ [idx]) (done ++ [item]) rest := by
  obtain ⟨k, hk, ⟨hstep, rfl⟩ | ⟨v, hstep, rfl, hv⟩⟩ := hitem
  · -- a key alone
    cases hkey
    obtain ⟨hbytes, hnarg⟩ := keyFragment_bytes size s idx hk
    rw [fragmentKey, if_neg (Nat.not_le.2 hidx), if_pos hstep]
    exact ⟨_, rfl, h.update rfl rfl (by simpa using hbytes) hnarg fun hne => absurd hstep hne⟩
  · -- a key with its value
    cases hkey
    obtain ⟨hsrc, hun⟩ := h.src hstep
    have hvlen := length_lt_bulk v
    obtain ⟨s', f, hone, hsub, hseq, hbytes, hnarg, hmoved⟩ :=
      fragmentKey_pair size hidx hstep hk (show v.length < 2 ^ 32 by omega)
        (show s.src.bytes = bulk key ++ (bulk v ++ rest.flatten.flatMap bulk) by rw [hsrc]; simp)
        hun
    refine ⟨s', hone, h.update hsub hseq ?_ (by simpa using hnarg) fun _ => hmoved hv⟩
    rw [hbytes, Nat.mod_eq_of_lt hv, List.take_left]
    simp

theorem fragmentKeys_append {size ncontinuum step : ℕ} {s s' : FragState}
    {xs : List (ℕ × List Byte)} (h : fragmentKeys size ncontinuum step s xs = .ok s')
    (ys : List (ℕ × List Byte)) :
    fragmentKeys size ncontinuum step s (xs ++ ys) = fragmentKeys size ncontinuum step s' ys := by
  induction xs generalizing s with
  | nil =>
      cases h
      rfl
  | cons x xs ih =>
      rw [fragmentKeys] at h
      rw [List.cons_append, fragmentKeys]
      split at h
      · cases h
      · exact ih h

/-- **All keys**, up to some that remain. -/
theorem fragmentKeys_gathered {ncontinuum step : ℕ} (size : ℕ) {s : FragState} {idxs js : List ℕ}
    {done rest later : List (List (List Byte))} {keys : List (List Byte)}
    (h : Gathered step s idxs done (rest ++ later)) (hjs : ∀ j ∈ js, j < ncontinuum)
    (hlen : js.length = rest.length) (hkeys : rest.map List.head? = keys.map some)
    (hrest : ∀ item ∈ rest, Handled step item) :
    ∃ s', fragmentKeys size ncontinuum step s (js.zip keys) = .ok s' ∧
      Gathered step s' (idxs ++ js) (done ++ rest) later := by
  induction rest generalizing s idxs js done keys with
  | nil =>
      cases List.length_eq_zero_iff.1 hlen
      exact ⟨s, rfl, by simpa using h⟩
  | cons item rest ih =>
      obtain ⟨j, js, rfl⟩ : ∃ j js', js = j :: js' := by
        cases js with
        | nil => simp at hlen
        | cons j js => exact ⟨j, js, rfl⟩
      obtain ⟨key, keys, rfl⟩ : ∃ k ks, keys = k :: ks := by
        cases keys with
        | nil => simp at hkeys
        | cons k ks => exact ⟨k, ks, rfl⟩
      simp only [List.map_cons, List.cons.injEq] at hkeys
      obtain ⟨s₁, hone, h₁⟩ :=
        fragmentKey_step size h (hjs j (by simp)) hkeys.1 (hrest item (by simp))
      have hjs' : ∀ x ∈ js, x < ncontinuum := fun x hx => hjs x (by simp [hx])
      obtain ⟨s₂, hall, h₂⟩ := ih h₁ hjs' (by simpa using hlen) hkeys.2
        (fun x hx => hrest x (by simp [hx]))
      refine ⟨s₂, ?_, by simpa using h₂⟩
      rw [List.zip_cons_cons, fragmentKeys, hone]
      exact hall

/-! ### The headers -/

theorem fmtInt_length_le (n : ℕ) : (fmtInt n).length ≤ 11 := by
  have hn : wrap32 n < 2 ^ 32 := Nat.mod_lt _ (by decide)
  rw [fmtInt]
  split
  · exact (numeral_length_le_ten hn).trans (by decide)
  · exact Nat.succ_le_succ (numeral_length_le_ten (by omega))

theorem fragmentHeader_length_le (t : MsgType) (n : ℕ) : (fragmentHeader t n).length ≤ 24 := by
  have hnum := fmtInt_length_le (wrap32 (n + 1))
  have hmget : (str "mget").length = 4 := rfl
  have hdel : (str "del").length = 3 := rfl
  have hmset : (str "mset").length = 4 := rfl
  have hfour : (str "$4").length = 2 := rfl
  have hthree : (str "$3").length = 2 := rfl
  unfold fragmentHeader
  split <;> simp only [List.length_append, List.length_cons, List.length_nil] <;> omega

theorem Fragmented.enqueue_sub_self (r : Fragmented) (i : ℕ) (f : Fragment) :
    (r.enqueue i f).sub i = some f := by
  simp [Fragmented.enqueue]

theorem Fragmented.enqueue_sub_of_ne (r : Fragmented) {i j : ℕ} (f : Fragment) (h : j ≠ i) :
    (r.enqueue i f).sub j = r.sub j := by
  simp [Fragmented.enqueue, h]

/-- **What the last loop does**: the fragments with their headers. -/
structure Finished (t : MsgType) (is : List ℕ) (r res : Fragmented) : Prop where
  src : res.src = r.src
  seq : res.seq = r.seq
  queue : res.queue = r.queue ++ is.filter fun i => (r.sub i).isSome
  nfrag : res.nfrag = r.nfrag + (is.filter fun i => (r.sub i).isSome).length
  kept : ∀ i, i ∉ is → res.sub i = r.sub i
  isSome : ∀ i, (res.sub i).isSome = (r.sub i).isSome
  header : ∀ i ∈ is, ∀ f', res.sub i = some f' → ∃ f, r.sub i = some f ∧
    f'.buf.bytes = fragmentHeader t f.narg ++ f.buf.bytes ∧ f'.type = t

theorem finishFragments_finished {size : ℕ} (hsize : 464 ≤ size) (t : MsgType) {is : List ℕ}
    (hnodup : is.Nodup) (r : Fragmented) :
    ∃ res, finishFragments size t r is = .ok res ∧ Finished t is r res := by
  induction is generalizing r with
  | nil => exact ⟨r, rfl, rfl, rfl, by simp, by simp, fun _ _ => rfl, fun _ => rfl, by simp⟩
  | cons i is ih =>
      obtain ⟨hi, hnodup⟩ := List.nodup_cons.1 hnodup
      rw [finishFragments]
      cases hf : r.sub i with
      | none =>
          obtain ⟨res, hres, h⟩ := ih hnodup r
          refine ⟨res, hres, h.src, h.seq, ?_, ?_, fun j hj => h.kept j (by simp_all), h.isSome, ?_⟩
          · rw [h.queue, List.filter_cons_of_neg (by simp [hf])]
          · rw [h.nfrag, List.filter_cons_of_neg (by simp [hf])]
          · intro j hj f' hf'
            rcases List.mem_cons.1 hj with rfl | hj
            · rw [h.kept _ hi, hf] at hf'
              cases hf'
            · exact h.header j hj f' hf'
      | some f =>
          have hlen := fragmentHeader_length_le t f.narg
          have hpos : (fragmentHeader t f.narg).length ≠ 0 := by
            unfold fragmentHeader
            split <;> simp
          obtain ⟨buf, hbuf⟩ : ∃ buf,
              msgPrependFormat size r.next f.buf (fragmentHeader t f.narg) = some buf := by
            rw [msgPrependFormat, if_neg (by omega)]
            exact ⟨_, rfl⟩
          simp only [hbuf]
          obtain ⟨res, hres, h⟩ := ih hnodup (r.enqueue i { f with buf := buf, type := t })
          -- the later fragments are what they were
          have hne : ∀ j ∈ is, j ≠ i := fun j hj hji => hi (hji ▸ hj)
          have hfilter : is.filter (fun j =>
              ((r.enqueue i { f with buf := buf, type := t }).sub j).isSome) =
              is.filter fun j => (r.sub j).isSome :=
            List.filter_congr fun j hj => by rw [r.enqueue_sub_of_ne _ (hne j hj)]
          refine ⟨res, hres, h.src, h.seq, ?_, ?_, ?_, ?_, ?_⟩
          · rw [h.queue, hfilter, List.filter_cons_of_pos (by simp [hf])]
            exact List.append_assoc _ _ _
          · rw [h.nfrag, hfilter, List.filter_cons_of_pos (by simp [hf]), List.length_cons,
              Nat.add_comm _ 1, ← Nat.add_assoc]
            rfl
          · intro j hj
            obtain ⟨hji, hj⟩ := not_or.1 (mt List.mem_cons.2 hj)
            rw [h.kept j hj, r.enqueue_sub_of_ne _ hji]
          · intro j
            rw [h.isSome]
            by_cases hji : j = i
            · rw [hji, hf, r.enqueue_sub_self]
              rfl
            · rw [r.enqueue_sub_of_ne _ hji]
          · intro j hj f' hf'
            rcases List.mem_cons.1 hj with rfl | hj
            · rw [h.kept _ hi, r.enqueue_sub_self] at hf'
              cases hf'
              exact ⟨f, hf, (msgPrependFormat_eq_some hbuf).1, rfl⟩
            · obtain ⟨g, hg, hrest⟩ := h.header j hj f' hf'
              rw [r.enqueue_sub_of_ne _ (hne j hj)] at hg
              exact ⟨g, hg, hrest⟩

end CacheProxy
