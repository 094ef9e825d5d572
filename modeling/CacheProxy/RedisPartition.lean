/-
**A multi-key request is partitioned.**

The fragments that `redis_fragment` makes of a received request are compared with the request: each
is the request for the keys of one backend, in the order in which the client wrote them.

Main definitions:

* `Request.items` — the keys, or keys with values, of a request;
* `Partitioned` — what fragmentation has to give.

Main results:

* `redisFragment_finished` — fragmentation succeeds if no bulk has `2 ^ 32` bytes;
* `not_partitioned_of_last` — a last value with a longer bulk is cut off;
* `redisFragment_partitions_iff` — **the request is partitioned if and only if no bulk has `2 ^ 32`
  bytes and no fragment `2 ^ 31` arguments**;
* `redisFragment_hugeMset` — an `MSET` with a value that is cut off;
* `header_skipped` — the header is in the first mbuf.
-/

import CacheProxy.LongFrame
import CacheProxy.RedisFragment
import CacheProxy.RedisFraming
import Mathlib.Data.List.Flatten

namespace CacheProxy

open Decimal

/-! ### The parts of a request -/

/-- The arguments two by two. -/
def pairUp {α : Type} : List α → List (List α)
  | x :: y :: xs => [x, y] :: pairUp xs
  | _ => []

/-- **The parts of a request that go to one backend together**: a key, or a key and its value. -/
def Request.items {size : ℕ} (q : Request size) : List (List (List Byte)) :=
  if q.type = .reqRedisMset then pairUp q.args else q.args.map fun k => [k]

/-- The name of the command, as fragments have it. -/
def fragmentName (t : MsgType) : List Byte :=
  match t with
  | .reqRedisMget => str "mget"
  | .reqRedisDel => str "del"
  | _ => str "mset"

/-- A part of a request: a key, or a key with its value. -/
inductive IsItem : ArgClass → List (List Byte) → Prop
  | key (k : List Byte) : IsItem .argx [k]
  | pair (k v : List Byte) : IsItem .argkvx [k, v]

/-- The step of the loop over the arguments. -/
def ArgClass.step (c : ArgClass) : ℕ := if c = .argx then 1 else 2

/-- The commands with several keys. -/
def Request.Multi {size : ℕ} (q : Request size) : Prop :=
  q.type = .reqRedisMget ∨ q.type = .reqRedisDel ∨ q.type = .reqRedisMset

/-- The keys of a list of parts. -/
theorem keys_flatten {c : ArgClass} {gs : List (List (List Byte))} (hc : c = .argx ∨ c = .argkvx)
    (h : ∀ g ∈ gs, IsItem c g) : (c.keys gs.flatten).map some = gs.map List.head? := by
  induction gs with
  | nil => rcases hc with rfl | rfl <;> rfl
  | cons g gs ih =>
      have hrest := ih fun x hx => h x (by simp [hx])
      cases h g (by simp) with
      | key => simpa [ArgClass.keys] using hrest
      | pair => simpa [ArgClass.keys, everyOther] using hrest

theorem length_flatten_items {c : ArgClass} {gs : List (List (List Byte))}
    (h : ∀ g ∈ gs, IsItem c g) : gs.flatten.length = c.step * gs.length := by
  induction gs with
  | nil => rfl
  | cons g gs ih =>
      have hg : g.length = c.step := by cases h g (by simp) <;> rfl
      rw [List.flatten_cons, List.length_append, hg, ih fun x hx => h x (by simp [hx]),
        List.length_cons]
      ring

theorem admits_flatten {c : ArgClass} {gs : List (List (List Byte))} (hc : c = .argx ∨ c = .argkvx)
    (h : ∀ g ∈ gs, IsItem c g) (hne : gs ≠ []) : c.Admits gs.flatten.length := by
  have hpos : 0 < gs.length := List.length_pos_iff.2 hne
  rw [length_flatten_items h]
  rcases hc with rfl | rfl
  · change 1 ≤ 1 * gs.length
    omega
  · change 2 ≤ 2 * gs.length ∧ 2 * gs.length % 2 = 0
    omega

theorem pairUp_eq {α : Type} (kvs : List (α × α)) :
    pairUp (kvs.flatMap fun kv => [kv.1, kv.2]) = kvs.map fun kv => [kv.1, kv.2] := by
  induction kvs with
  | nil => rfl
  | cons kv kvs ih => simp [pairUp, ih]

/-- The parts are the arguments. -/
theorem Request.items_spec {size : ℕ} {q : Request size} (h : q.Multi) :
    (q.cls = .argx ∨ q.cls = .argkvx) ∧ (∀ g ∈ q.items, IsItem q.cls g) ∧
      q.items.flatten = q.args := by
  have hclass := q.class_eq
  by_cases hmset : q.type = .reqRedisMset
  · rw [hmset, show argClass .reqRedisMset = some .argkvx by decide] at hclass
    have hcls : q.cls = .argkvx := (Option.some.inj hclass).symm
    have hadm := q.admits
    rw [hcls] at hadm
    obtain ⟨kvs, hargs, -, -⟩ := exists_pairs q.args hadm.2
    have hitems : q.items = kvs.map fun kv => [kv.1, kv.2] := by
      rw [Request.items, if_pos hmset, hargs, pairUp_eq]
    refine ⟨.inr hcls, ?_, ?_⟩
    · rw [hitems, hcls]
      intro g hg
      obtain ⟨kv, -, rfl⟩ := List.mem_map.1 hg
      exact .pair kv.1 kv.2
    · rw [hitems, hargs, List.flatMap_def]
  · have hcls : q.cls = .argx := by
      rcases h with h | h | h
      · rw [h, show argClass .reqRedisMget = some .argx by decide] at hclass
        exact (Option.some.inj hclass).symm
      · rw [h, show argClass .reqRedisDel = some .argx by decide] at hclass
        exact (Option.some.inj hclass).symm
      · exact absurd h hmset
    have hitems : q.items = q.args.map fun k => [k] := by rw [Request.items, if_neg hmset]
    refine ⟨.inl hcls, ?_, ?_⟩
    · rw [hitems, hcls]
      intro g hg
      obtain ⟨k, -, rfl⟩ := List.mem_map.1 hg
      exact .key k
    · rw [hitems, ← List.flatMap_def, List.flatMap_singleton']

theorem Request.items_head {size : ℕ} {q : Request size} (h : q.Multi) :
    q.items.map List.head? = (q.cls.keys q.args).map some := by
  obtain ⟨hc, hitem, hflat⟩ := q.items_spec h
  rw [← keys_flatten hc hitem, hflat]

theorem Request.Multi.classes {size : ℕ} {q : Request size} (h : q.Multi)
    (htwo : 2 ≤ (q.cls.keys q.args).length) : q.cls ≠ .argz ∧ q.cls ≠ .argeval ∧ q.args ≠ [] := by
  obtain ⟨hcls, -, -⟩ := q.items_spec h
  refine ⟨by rcases hcls with hc | hc <;> simp [hc], by rcases hcls with hc | hc <;> simp [hc],
    fun hnil => ?_⟩
  have hkeys : q.cls.keys q.args = [] := by
    rw [hnil]
    rcases hcls with hc | hc <;> rw [hc] <;> rfl
  rw [hkeys] at htwo
  exact absurd htwo (by decide)

theorem Request.mem_keys {size : ℕ} {q : Request size} (h : q.Multi) {item : List (List Byte)}
    (hitem : item ∈ q.items) {k : List Byte} (hk : item.head? = some k) :
    k ∈ q.cls.keys q.args := by
  have hk' : some k ∈ (q.cls.keys q.args).map some := by
    rw [← q.items_head h, ← hk]
    exact List.mem_map_of_mem hitem
  obtain ⟨k', hk', heq⟩ := List.mem_map.1 hk'
  cases heq
  exact hk'

/-! ### The received request -/

theorem lf_not_mem_numeral (n : ℕ) : LF ∉ numeral n := by
  intro h
  exact absurd (isDigit_of_mem_numeral h) (by decide)

/-- The lines before the arguments. -/
theorem Request.head_lines {size : ℕ} (q : Request size) :
    ∃ l₁ l₂ l₃, (∀ rest, q.head ++ rest = l₁ ++ LF :: (l₂ ++ LF :: (l₃ ++ LF :: rest))) ∧
      LF ∉ l₁ ∧ LF ∉ l₂ ∧ LF ∉ l₃ := by
  refine ⟨42 :: numeral (q.args.length + 1) ++ [CR], 36 :: numeral q.name.length ++ [CR],
    q.name ++ [CR], fun rest => by simp [Request.head, multiHeader, bulk, bulkBody], ?_, ?_, ?_⟩
  · simp [lf_not_mem_numeral, show LF ≠ CR by decide, show LF ≠ 42 by decide]
  · simp [lf_not_mem_numeral, show LF ≠ CR by decide, show LF ≠ 36 by decide]
  · simp [q.supported.lf_not_mem, show LF ≠ CR by decide]

/-- Inside the length of an argument a token is open. -/
theorem head_open {size : ℕ} {ok : ReqScan → Prop} {a : ReqScan} (bad : ReqScan → ℕ → Bool)
    (s₁ : ReqState)
    (hstep : ∀ t m c, ReqScan.step size { a with tok := t, rlen := m } c =
      ReqScan.len { a with tok := t, rlen := m } c (bad { a with tok := t, rlen := m }) s₁)
    (htok : a.tok = []) {v : List Byte} {i : ℕ} {a' : ReqScan} (hpos : 0 < i)
    (hi : i < headLen (bulk v)) (h : (reqMachine size).Leads ok a ((bulk v).take i) a') :
    (reqMachine size).token a' ≠ [] := by
  rw [headLen_bulk] at hi
  rw [take_bulk hpos (by omega)] at h
  have hhead := leads_head size (fun _ => True) a bad s₁ hstep htok
    (fun d (hd : d ∈ (numeral v.length).take (i - 1)) =>
      isDigit_of_mem_numeral (List.mem_of_mem_take hd)) fun _ _ _ => trivial
  cases (h.mono fun _ _ => trivial).unique hhead
  exact List.cons_ne_nil _ _

/-- The keys and values of an `MSET`. -/
theorem opens_pairs {size : ℕ} (hsize : 464 ≤ size) {o : ReqOut}
    (hclass : argClass o.type = some .argkvx) (hodd : o.narg % 2 = 1)
    (kvs : List (List Byte × List Byte)) (ks : List (List Byte))
    (hks : ∀ kv ∈ kvs, kv.1.length < size ∧ kv.1.length < 2 ^ 32 ∧ kv.2.length < 2 ^ 32) :
    Opens (reqMachine size) (ReqScan.Fine size) (argAt o .keyLen (2 * kvs.length) ks)
      (kvs.flatMap fun kv => [bulk kv.1, bulk kv.2]) := by
  induction kvs generalizing ks with
  | nil => trivial
  | cons kv kvs ih =>
      obtain ⟨hk, hk32, hv32⟩ := hks kv (by simp)
      rw [List.flatMap_cons, List.length_cons,
        show 2 * (kvs.length + 1) = 2 * kvs.length + 1 + 1 by ring]
      refine ⟨fun i a' hpos hi hl => head_open (fun x _ => decide (size ≤ x.rlen)) .keyLenLf
          (fun _ _ _ => rfl) rfl hpos hi hl,
        .inr ⟨_, leads_pair_key hsize hclass hodd _ ks hk hk32, fun i a' hpos hi hl =>
          head_open (fun _ n => decide (n ≤ 1)) .arg1LenLf (fun _ _ _ => rfl) rfl hpos hi hl, ?_⟩⟩
      cases kvs with
      | nil => exact .inl rfl
      | cons =>
          refine .inr ⟨_, leads_pair_value hsize hclass (by simp) _ hv32, ?_⟩
          exact ih _ fun x hx => hks x (by simp [hx])

theorem keysBytes_eq_some {mhdr : List Mbuf} {keys : List KeyPos} {ks : List (List Byte)}
    (h : keys.map (keyBytes mhdr) = ks.map some) : keysBytes mhdr keys = some ks := by
  rw [keysBytes]
  induction keys generalizing ks with
  | nil =>
      cases ks with
      | nil => rfl
      | cons => simp at h
  | cons x xs ih =>
      cases ks with
      | nil => simp at h
      | cons =>
          simp only [List.map_cons, List.cons.injEq] at h
          simp [List.mapM_cons, h.1, ih h.2]

section Received

variable {size : ℕ} (hsize : 464 ≤ size) {q : Request size} {msg : RecvMsg ReqRegs}
  (h : Delivered size (reqMachine size) ReqOutRel msg q.frame) (hz : q.cls ≠ .argz)
  (he : q.cls ≠ .argeval) (hargs : q.args ≠ [])

include hsize h hz he hargs

/-- What `redis_fragment_argx` finds behind the header of a received request. -/
theorem skipHeader_delivered :
    ∃ b b' bs, msg.mhdr = b :: bs ∧ skipHeader msg.mhdr = some (b' :: bs) ∧
      b.body = q.head ++ b'.body := by
  have hlen : q.head.length ≤ size := by
    have hten := numeral_length_le_ten q.count_lt
    have hname := q.supported.length_lt
    have htwo : (numeral q.name.length).length ≤ 2 := numeral_length_le (by decide) (by omega)
    simp only [Request.head, multiHeader, bulk, bulkBody, List.length_append, List.length_cons,
      List.length_nil]
    omega
  have hacc : (reqMachine size).Accepts (ReqScan.Fine size) (reqMachine size).init q.frame.1
      q.frame.2 := q.accepts hsize he
  obtain ⟨b, bs, hm, rest, hbody⟩ := h.first_buffer (reqMachine_tokenizes size) (fun _ hf => hf)
    (reqMachine_wf_init size).1 (reqMachine_wf_init size).2 hacc q.encode_eq_head hlen
    (q.leads_head hsize hz he hargs) rfl
  obtain ⟨l₁, l₂, l₃, heq, h₁, h₂, h₃⟩ := q.head_lines
  have hgone : b.gone = [] := by
    obtain ⟨pre, c, hm', -, hfill, -⟩ := h.chain
    rw [← hm', hm] at hfill
    exact (hfill b (by simp)).1
  obtain ⟨b', hskip, hb'⟩ := skipHeader_eq bs hgone (hbody.symm.trans (heq rest)) h₁ h₂ h₃
  exact ⟨b, b', bs, hm, hm ▸ hskip, by rw [← hbody, hb']⟩

/-- **The values of a received `MSET` can be moved**: no mbuf starts inside a length. -/
theorem unsplit_delivered (hcls : q.cls = .argkvx) {b b' : Mbuf} {bs : List Mbuf}
    (hm : msg.mhdr = b :: bs) (hb : b.body = q.head ++ b'.body) :
    Unsplit (b' :: bs) 0 (q.args.map bulk) := by
  have hclass : argClass q.out.type = some .argkvx := hcls ▸ q.class_eq
  obtain ⟨kvs, hkvs, -, hlen, -, hodd, hks⟩ := q.exists_kvs hcls
  have hopens := opens_pairs hsize hclass hodd kvs [] hks
  have hpieces : kvs.flatMap (fun kv => [bulk kv.1, bulk kv.2]) = q.args.map bulk := by
    rw [hkvs, List.map_flatMap]
    rfl
  rw [hpieces, ← hlen] at hopens
  have hacc : (reqMachine size).Accepts (ReqScan.Fine size) (reqMachine size).init q.frame.1
      q.frame.2 := q.accepts hsize he
  refine hopens.unsplit (q.leads_head hsize hz he hargs)
    (show q.encode = _ by rw [q.encode_eq_head, List.flatMap_def]) (Nat.zero_add _) ?_ ?_
  · intro p hp
    obtain ⟨v, hv, rfl⟩ := List.mem_map.1 hp
    exact (isBulk_bulk (q.length_lt v hv)).headLen_le
  · intro n hn
    rcases starts_cons.1 hn with rfl | ⟨m, hm', rfl⟩
    · exact .inl rfl
    · right
      have hstart : Starts msg.mhdr (b'.body.length + m + q.head.length) := by
        rw [hm]
        refine starts_cons.2 (.inr ⟨m, hm', ?_⟩)
        rw [hb, List.length_append]
        omega
      obtain ⟨a, hl, htok, -⟩ := h.starts_token (reqMachine_tokenizes size) (fun _ hf => hf)
        (reqMachine_wf_init size).1 (reqMachine_wf_init size).2 hacc hstart
      exact ⟨a, hl, htok⟩

omit hsize hz he hargs in
/-- The keys of a received request. -/
theorem keysBytes_delivered : keysBytes msg.mhdr msg.regs.keys = some (q.cls.keys q.args) :=
  keysBytes_eq_some h.out.keys

end Received

/-! ### Fragmentation -/

/-- The backend indexes of the keys. -/
def Request.indexes {size : ℕ} (q : Request size) (idx : ℕ → List Byte → ℕ) : List ℕ :=
  (q.cls.keys q.args).mapIdx idx

section Fragmentation

variable {size : ℕ} (hsize : 464 ≤ size) {q : Request size} {msg : RecvMsg ReqRegs}
  (h : Delivered size (reqMachine size) ReqOutRel msg q.frame) (hmulti : q.Multi)
  (htwo : 2 ≤ (q.cls.keys q.args).length) (ncontinuum next : ℕ) (idx : ℕ → List Byte → ℕ)

include h hmulti htwo in
/-- The call for the kind of the command. -/
theorem redisFragment_eq : redisFragment size ncontinuum next idx msg =
    redisFragmentArgx size ncontinuum q.cls.step next idx msg := by
  have hlen : msg.regs.keys.length = (q.cls.keys q.args).length := by
    have hkeys := congrArg List.length h.out.keys
    rw [List.length_map, List.length_map] at hkeys
    exact hkeys
  have htype : msg.regs.type = q.type := h.out.type
  have hclass := q.class_eq
  rw [redisFragment, if_neg (by omega), htype]
  rcases hmulti with hq | hq | hq <;> rw [hq] at hclass ⊢
  · rw [show argClass .reqRedisMget = some .argx by decide] at hclass
    rw [← Option.some.inj hclass]
    rfl
  · rw [show argClass .reqRedisDel = some .argx by decide] at hclass
    rw [← Option.some.inj hclass]
    rfl
  · rw [show argClass .reqRedisMset = some .argkvx by decide] at hclass
    rw [← Option.some.inj hclass]
    rfl

include hmulti in
theorem Request.length_indexes : (q.indexes idx).length = q.items.length := by
  have hcount := congrArg List.length (q.items_head hmulti)
  simp only [List.length_map] at hcount
  rw [Request.indexes, List.length_mapIdx, hcount]

include hmulti in
/-- A part that can be handled: its key is short, and so is its value, if there is one. -/
theorem Request.handled (hmax : size < 2 ^ 31) {item : List (List Byte)} (hitem : item ∈ q.items)
    (hbulk : ∀ v ∈ item, (bulk v).length < 2 ^ 32) : Handled q.cls.step item := by
  obtain ⟨-, hitems, hflat⟩ := q.items_spec hmulti
  have hkey : ∀ k, item.head? = some k → k.length < 2 ^ 31 := fun k hk =>
    lt_trans (q.key_lt k (q.mem_keys hmulti hitem hk)) hmax
  generalize q.cls = c at hitems
  cases hitems item hitem with
  | key k => exact ⟨k, hkey k rfl, .inl ⟨rfl, rfl⟩⟩
  | pair k v => exact ⟨k, hkey k rfl, .inr ⟨v, by decide, rfl, hbulk v (by simp)⟩⟩

include hsize h hmulti htwo in
/-- The loop over the keys begins with all parts before it. -/
theorem exists_start :
    ∃ mhdr, skipHeader msg.mhdr = some mhdr ∧
      Gathered q.cls.step { src := { mhdr := mhdr, mlen := msg.mlen }, next := next } []
        [] q.items := by
  obtain ⟨hz, he, hargs⟩ := hmulti.classes htwo
  obtain ⟨hcls, -, hflat⟩ := q.items_spec hmulti
  obtain ⟨b, b', bs, hm, hskip, hb⟩ := skipHeader_delivered hsize h hz he hargs
  have hbytes : content (b' :: bs) = q.items.flatten.flatMap bulk := by
    have hall : content (b :: bs) = q.encode := by rw [← hm]; exact h.bytes
    rw [content_cons, hb, List.append_assoc, q.encode_eq_head] at hall
    rw [hflat, content_cons]
    exact List.append_cancel_left hall
  refine ⟨b' :: bs, hskip, rfl, rfl, by simp, by simp, by simp, fun hstep => ⟨hbytes, ?_⟩⟩
  rw [hflat]
  refine unsplit_delivered hsize h hz he hargs ?_ hm hb
  rcases hcls with hc | hc
  · exact absurd (by rw [hc]; rfl) hstep
  · exact hc

include hsize h hmulti htwo in
/-- The loop over the fragments follows. -/
theorem redisFragment_of_keys {mhdr : List Mbuf} {s : FragState}
    (hskip : skipHeader msg.mhdr = some mhdr)
    (hkeys : fragmentKeys size ncontinuum q.cls.step
      { src := { mhdr := mhdr, mlen := msg.mlen }, next := next }
      ((q.indexes idx).zip (q.cls.keys q.args)) = .ok s) :
    ∃ res, redisFragment size ncontinuum next idx msg = .ok res ∧
      Finished q.type (List.range ncontinuum)
        { src := s.src, sub := s.sub, seq := s.seq, next := s.next } res := by
  obtain ⟨res, hres, hfin⟩ := finishFragments_finished hsize q.type List.nodup_range
    { src := s.src, sub := s.sub, seq := s.seq, next := s.next }
  refine ⟨res, ?_, hfin⟩
  rw [redisFragment_eq h hmulti htwo, redisFragmentArgx, hskip, keysBytes_delivered h]
  have htype : msg.regs.type = q.type := h.out.type
  have hloop : fragmentKeys size ncontinuum q.cls.step
      { src := { mhdr := mhdr, mlen := msg.mlen }, next := next }
      (((q.cls.keys q.args).mapIdx idx).zip (q.cls.keys q.args)) = .ok s := hkeys
  dsimp only
  rw [hloop, htype]
  exact hres

include hsize h hmulti htwo in
/-- **Fragmentation succeeds** if no bulk has `2 ^ 32` bytes: all keys are gathered, and each
fragment has a header. -/
theorem redisFragment_finished (hmax : size < 2 ^ 31)
    (hbulk : ∀ v ∈ q.args, (bulk v).length < 2 ^ 32)
    (hidx : ∀ i ∈ q.indexes idx, i < ncontinuum) :
    ∃ s res, redisFragment size ncontinuum next idx msg = .ok res ∧
      Gathered q.cls.step s (q.indexes idx) q.items [] ∧
      Finished q.type (List.range ncontinuum)
        { src := s.src, sub := s.sub, seq := s.seq, next := s.next } res := by
  obtain ⟨-, -, hflat⟩ := q.items_spec hmulti
  have hhandled : ∀ item ∈ q.items, Handled q.cls.step item := fun item hitem =>
    q.handled hmulti hmax hitem fun v hv =>
      hbulk v (hflat ▸ List.mem_flatten.2 ⟨item, hitem, hv⟩)
  obtain ⟨mhdr, hskip, hstart⟩ := exists_start hsize h hmulti htwo next
  obtain ⟨s, hkeys, hs⟩ := fragmentKeys_gathered size
    (show Gathered _ _ _ _ (q.items ++ []) by simpa using hstart) hidx
    (q.length_indexes hmulti idx) (q.items_head hmulti) hhandled
  obtain ⟨res, hres, hfin⟩ := redisFragment_of_keys hsize h hmulti htwo ncontinuum next idx hskip
    hkeys
  exact ⟨s, res, hres, by simpa using hs, hfin⟩

end Fragmentation

/-! ### What fragmentation has to give -/

/-- **What fragmentation has to give** for a request whose keys have the indexes `idxs`: one
fragment for each index that occurs, which is the request for the parts of that index. -/
structure Partitioned {size : ℕ} (q : Request size) (idxs : List ℕ) (ncontinuum : ℕ)
    (res : Fragmented) : Prop where
  occurs : ∀ i, (∃ f, res.sub i = some f) ↔ i ∈ idxs
  queue : res.queue = (List.range ncontinuum).filter fun i => i ∈ idxs
  nfrag : res.nfrag = res.queue.length
  seq : res.seq = idxs
  bytes : ∀ i f, res.sub i = some f →
    f.buf.bytes = respEncode (fragmentName q.type :: (groupOf idxs i q.items).flatten)
  type : ∀ i f, res.sub i = some f → f.type = q.type
  /-- the parser finds the same type and the keys of the index in the bytes of a fragment -/
  parsed : ∀ i f, res.sub i = some f → ∃ q' : Request size, q'.encode = f.buf.bytes ∧
    q'.type = q.type ∧ q'.cls.keys q'.args = groupOf idxs i (q.cls.keys q.args) ∧
    ∀ chunks, chunks.flatten = f.buf.bytes →
      (∀ x ∈ (recvRun redisParseReq size chunks).reads, wrap32 x ≠ 0) → Framed size chunks [q']

theorem groupOf_map {α β : Type} (g : α → β) (idxs : List ℕ) (i : ℕ) (xs : List α) :
    groupOf idxs i (xs.map g) = (groupOf idxs i xs).map g := by
  rw [groupOf, groupOf, List.zip_map_right, List.filter_map, List.map_map, List.map_map]
  rfl

/-- The arguments of a group are not more than those of the request. -/
theorem length_groupOf_le {idxs : List ℕ} {xs : List (List (List Byte))}
    (hlen : idxs.length = xs.length) (i : ℕ) :
    (groupOf idxs i xs).flatten.length ≤ xs.flatten.length := by
  have hsub : (groupOf idxs i xs).Sublist ((idxs.zip xs).map Prod.snd) :=
    List.filter_sublist.map Prod.snd
  rw [List.map_snd_zip hlen.ge] at hsub
  exact hsub.flatten.length_le

section Parts

variable {size : ℕ} {q : Request size} (hmulti : q.Multi) {idxs : List ℕ}
  (hlen : idxs.length = q.items.length)

include hmulti hlen

/-- **The request for the keys of one index.** -/
theorem Request.exists_part {i : ℕ} (hi : i ∈ idxs) :
    ∃ q' : Request size, q'.name = fragmentName q.type ∧
      q'.args = (groupOf idxs i q.items).flatten ∧ q'.type = q.type ∧ q'.cls = q.cls := by
  obtain ⟨hcls, hitems, hflat⟩ := q.items_spec hmulti
  have hsub : ∀ v ∈ (groupOf idxs i q.items).flatten, v ∈ q.args := by
    intro v hv
    obtain ⟨g, hg, hv⟩ := List.mem_flatten.1 hv
    exact hflat ▸ List.mem_flatten.2 ⟨g, groupOf_subset g hg, hv⟩
  have hgitems : ∀ g ∈ groupOf idxs i q.items, IsItem q.cls g :=
    fun g hg => hitems g (groupOf_subset g hg)
  have hne : groupOf idxs i q.items ≠ [] := fun hnil => (groupOf_eq_nil hlen).1 hnil hi
  refine ⟨{ name := fragmentName q.type, args := (groupOf idxs i q.items).flatten, type := q.type
            cls := q.cls, supported := ?_, class_eq := q.class_eq, admits := ?_, count_lt := ?_
            length_lt := fun v hv => q.length_lt v (hsub v hv), key_lt := ?_ }, rfl, rfl, rfl, rfl⟩
  · rcases hmulti with hq | hq | hq <;> rw [hq]
    · exact ⟨"mget", by decide, rfl, by decide⟩
    · exact ⟨"del", by decide, rfl, by decide⟩
    · exact ⟨"mset", by decide, rfl, by decide⟩
  · exact admits_flatten hcls hgitems hne
  · have := length_groupOf_le hlen i
    rw [hflat] at this
    exact lt_of_le_of_lt (Nat.succ_le_succ this) q.count_lt
  · intro k hk
    -- the keys of the group are keys of the request
    have hk' : some k ∈ (groupOf idxs i q.items).map List.head? := by
      rw [← keys_flatten hcls hgitems]
      exact List.mem_map_of_mem hk
    obtain ⟨g, hg, hgk⟩ := List.mem_map.1 hk'
    exact q.key_lt k (q.mem_keys hmulti (groupOf_subset g hg) hgk)

omit hlen in
theorem Request.keys_part {q' : Request size} {i : ℕ}
    (hargs : q'.args = (groupOf idxs i q.items).flatten) (hcls : q'.cls = q.cls) :
    q'.cls.keys q'.args = groupOf idxs i (q.cls.keys q.args) := by
  obtain ⟨hc, hitems, -⟩ := q.items_spec hmulti
  have hkeys := keys_flatten hc fun g (hg : g ∈ groupOf idxs i q.items) =>
    hitems g (groupOf_subset g hg)
  rw [← groupOf_map, q.items_head hmulti, groupOf_map] at hkeys
  rw [hcls, hargs]
  exact (List.map_injective_iff.2 (Option.some_injective _)) hkeys

end Parts

/-! ### The bytes of the fragments -/

section Header

variable {size : ℕ} {q : Request size} (hmulti : q.Multi) {n : ℕ}

include hmulti

theorem fragmentHeader_of_lt (hn : n + 1 < 2 ^ 31) :
    fragmentHeader q.type n = multiHeader (n + 1) ++ bulk (fragmentName q.type) := by
  have hwrap : wrap32 (n + 1) = n + 1 := wrap32_of_lt (lt_trans hn (by decide))
  rcases hmulti with hq | hq | hq <;>
    simp only [hq, fragmentHeader, fragmentName, hwrap, fmtInt_of_lt hn, multiHeader, bulk,
      bulkBody, List.append_assoc] <;> rfl

/-- The header of an encoding begins with a digit, and the one of a fragment with too many
arguments with a minus sign. -/
theorem lt_of_fragmentHeader (hn : n + 1 < 2 ^ 32) {r r' : List Byte}
    (heq : fragmentHeader q.type n ++ r = multiHeader (n + 1) ++ r') : n + 1 < 2 ^ 31 := by
  by_contra hge
  have hwrap : wrap32 (n + 1) = n + 1 := wrap32_of_lt hn
  have hint : fmtInt (n + 1) = 45 :: numeral (2 ^ 32 - (n + 1)) := by
    rw [fmtInt, hwrap, if_neg hge]
  have hminus : (fragmentHeader q.type n ++ r)[1]? = some 45 := by
    rcases hmulti with hq | hq | hq <;> simp [hq, fragmentHeader, hwrap, hint]
  obtain ⟨d, ds, hd⟩ := List.exists_cons_of_ne_nil (numeral_ne_nil (n + 1))
  have hdig : isDigit d = true := isDigit_of_mem_numeral (by rw [hd]; simp)
  rw [heq, multiHeader, hd] at hminus
  have h45 : d = 45 := by simpa using hminus
  rw [h45] at hdig
  exact absurd hdig (by decide)

end Header

theorem respEncode_cons (name : List Byte) (args : List (List Byte)) :
    respEncode (name :: args) = multiHeader (args.length + 1) ++
      (bulk name ++ args.flatMap bulk) := by
  simp [respEncode]

section Bytes

variable {size : ℕ} (hsize : 464 ≤ size) (hmax : size < 2 ^ 31) {q : Request size}
  {msg : RecvMsg ReqRegs} (h : Delivered size (reqMachine size) ReqOutRel msg q.frame)
  (hmulti : q.Multi) (htwo : 2 ≤ (q.cls.keys q.args).length) (ncontinuum next : ℕ)
  (idx : ℕ → List Byte → ℕ) (hidx : ∀ i ∈ q.indexes idx, i < ncontinuum)

include hmulti in
theorem count_groupOf_lt (i : ℕ) :
    (groupOf (q.indexes idx) i q.items).flatten.length + 1 < 2 ^ 32 := by
  obtain ⟨-, -, hflat⟩ := q.items_spec hmulti
  have hle := length_groupOf_le (q.length_indexes hmulti idx) i
  rw [hflat] at hle
  exact lt_of_le_of_lt (Nat.succ_le_succ hle) q.count_lt

include hmulti hidx in
/-- What the fragments are when all keys have been gathered. -/
theorem Finished.fragment {s : FragState} {res : Fragmented}
    (hs : Gathered q.cls.step s (q.indexes idx) q.items [])
    (hfin : Finished q.type (List.range ncontinuum)
      { src := s.src, sub := s.sub, seq := s.seq, next := s.next } res) :
    (∀ i, (res.sub i).isSome = decide (i ∈ q.indexes idx)) ∧
    ∀ i f, res.sub i = some f → i ∈ q.indexes idx ∧ f.type = q.type ∧
      f.buf.bytes = fragmentHeader q.type (groupOf (q.indexes idx) i q.items).flatten.length ++
        (groupOf (q.indexes idx) i q.items).flatten.flatMap bulk := by
  have hoccurs : ∀ i, (res.sub i).isSome = decide (i ∈ q.indexes idx) := by
    intro i
    rw [hfin.isSome]
    have hnone := hs.none_iff i
    cases hi : s.sub i with
    | none | some => simpa [hi] using hnone
  refine ⟨hoccurs, fun i f hf => ?_⟩
  have hi : i ∈ q.indexes idx := by simpa [hf] using hoccurs i
  obtain ⟨g, hg, hbytes, htype⟩ := hfin.header i (List.mem_range.2 (hidx i hi)) f hf
  refine ⟨hi, htype, ?_⟩
  have hcount := count_groupOf_lt hmulti idx i
  rw [hbytes, hs.bytes i g hg, hs.narg i g hg, wrap32_of_lt (by omega)]

include hmulti in
/-- Only a value can be that long. -/
theorem Request.exists_last (hmax : size < 2 ^ 31)
    (hbulk : ∀ v ∈ q.args.dropLast, (bulk v).length < 2 ^ 32)
    (hnot : ¬ ∀ v ∈ q.args, (bulk v).length < 2 ^ 32) :
    ∃ its k v, q.items = its ++ [[k, v]] ∧
      (∀ item ∈ its, ∀ w ∈ item, (bulk w).length < 2 ^ 32) ∧ 2 ^ 32 ≤ (bulk v).length := by
  obtain ⟨-, hspec, hflat⟩ := q.items_spec hmulti
  obtain ⟨v, hv, hlong⟩ : ∃ v ∈ q.args, ¬ (bulk v).length < 2 ^ 32 := by simpa using hnot
  have hne : q.items ≠ [] := by
    intro hnil
    rw [← hflat, hnil] at hv
    simp at hv
  obtain ⟨its, item, hitems⟩ : ∃ its item, q.items = its ++ [item] :=
    ⟨_, _, (List.dropLast_append_getLast hne).symm⟩
  have hargs : q.args = its.flatten ++ item := by
    rw [← hflat, hitems, List.flatten_append, List.flatten_singleton]
  have hkey : ∀ k, item.head? = some k → (bulk k).length < 2 ^ 32 := fun k hk =>
    length_bulk_lt (lt_trans (q.key_lt k (q.mem_keys hmulti (by simp [hitems]) hk)) hmax)
  have hlast := hspec item (by simp [hitems])
  generalize q.cls = c at hlast
  cases hlast with
  | key =>
      rw [hargs, List.dropLast_concat] at hbulk
      rw [hargs, List.mem_append, List.mem_singleton] at hv
      rcases hv with hv | rfl
      · exact absurd (hbulk v hv) hlong
      · exact absurd (hkey v rfl) hlong
  | pair k w =>
      have hdrop : q.args.dropLast = its.flatten ++ [k] := by
        rw [hargs, show its.flatten ++ [k, w] = (its.flatten ++ [k]) ++ [w] by simp,
          List.dropLast_concat]
      rw [hdrop] at hbulk
      have hvw : v = w := by
        by_contra hne
        refine hlong (hbulk v ?_)
        rw [hargs] at hv
        simpa [hne] using hv
      refine ⟨its, k, w, hitems, fun item hitem x hx => hbulk x ?_, by rw [← hvw]; omega⟩
      exact List.mem_append_left _ (List.mem_flatten.2 ⟨item, hitem, hx⟩)

include hsize hmax h hmulti htwo hidx

/-- When no bulk has `2 ^ 32` bytes, all depends on the number of arguments of the fragments. -/
theorem partitioned_iff_of_bulk (hbulk : ∀ v ∈ q.args, (bulk v).length < 2 ^ 32) :
    (∃ res, redisFragment size ncontinuum next idx msg = .ok res ∧
      Partitioned q (q.indexes idx) ncontinuum res) ↔
    ∀ i, (groupOf (q.indexes idx) i q.items).flatten.length + 1 < 2 ^ 31 := by
  obtain ⟨s, res, hres, hs, hfin⟩ := redisFragment_finished hsize h hmulti htwo ncontinuum next
    idx hmax hbulk hidx
  obtain ⟨hoccurs, hfrag⟩ := hfin.fragment hmulti ncontinuum idx hidx hs
  have hlen := hs.length_eq
  constructor
  · rintro ⟨res', hres', hpart⟩ i
    rw [hres] at hres'
    cases hres'
    by_cases hi : i ∈ q.indexes idx
    · obtain ⟨f, hf⟩ := (hpart.occurs i).2 hi
      have heq := hpart.bytes i f hf
      rw [(hfrag i f hf).2.2, respEncode_cons] at heq
      exact lt_of_fragmentHeader hmulti (count_groupOf_lt hmulti idx i) heq
    · rw [(groupOf_eq_nil hlen).2 hi]
      decide
  · intro hfits
    have hbytes : ∀ i f, res.sub i = some f → f.buf.bytes =
        respEncode (fragmentName q.type :: (groupOf (q.indexes idx) i q.items).flatten) := by
      intro i f hf
      rw [(hfrag i f hf).2.2, respEncode_cons, fragmentHeader_of_lt hmulti (hfits i),
        List.append_assoc]
    have hqueue : res.queue = (List.range ncontinuum).filter fun i => i ∈ q.indexes idx := by
      rw [hfin.queue, List.nil_append]
      exact List.filter_congr fun i _ => by rw [← hfin.isSome, hoccurs]
    refine ⟨res, hres, ?_, hqueue, ?_, hfin.seq.trans hs.seq, hbytes,
      fun i f hf => (hfrag i f hf).2.1, ?_⟩
    · intro i
      rw [← Option.isSome_iff_exists, hoccurs, decide_eq_true_iff]
    · rw [hfin.nfrag, hfin.queue]
      simp
    · intro i f hf
      obtain ⟨q', hname, hargs, htype, hcls⟩ := q.exists_part hmulti hlen (hfrag i f hf).1
      have henc : q'.encode = f.buf.bytes := by
        rw [hbytes i f hf, Request.encode, hname, hargs]
      refine ⟨q', henc, htype, Request.keys_part hmulti hargs hcls, fun cs hcs hreads => ?_⟩
      have hq' : q'.cls ≠ .argeval := by
        rw [hcls]
        rcases (q.items_spec hmulti).1 with hc | hc <;> simp [hc]
      refine framed_of_reads (by omega) (by omega) (fun r hr => ?_) (by simp [hcs, henc]) hreads
      exact r.accepted hsize (List.mem_singleton.1 hr ▸ hq')

/-- **A last value whose bulk has `2 ^ 32` bytes or more is cut off.** -/
theorem not_partitioned_of_last {its : List (List (List Byte))} {k v : List Byte}
    (hitems : q.items = its ++ [[k, v]])
    (hits : ∀ item ∈ its, ∀ w ∈ item, (bulk w).length < 2 ^ 32) (hv : 2 ^ 32 ≤ (bulk v).length) :
    ∃ res, redisFragment size ncontinuum next idx msg = .ok res ∧
      ¬ Partitioned q (q.indexes idx) ncontinuum res := by
  obtain ⟨hcls, hspec, hflat⟩ := q.items_spec hmulti
  have hmem : ∀ w ∈ [k, v], w ∈ q.args := fun w hw =>
    hflat ▸ List.mem_flatten.2 ⟨[k, v], by simp [hitems], hw⟩
  have hstep : q.cls.step ≠ 1 := by
    have hlast := hspec [k, v] (by simp [hitems])
    generalize q.cls = c at hlast
    cases hlast
    decide
  -- the keys and the indexes, the last one apart
  have hhead := q.items_head hmulti
  rw [hitems, List.map_append, List.map_singleton] at hhead
  obtain ⟨ks, ks', hks, hks₁, hks₂⟩ := List.map_eq_append_iff.1 hhead.symm
  obtain ⟨k', rfl, hk'⟩ := List.map_eq_singleton_iff.1 hks₂
  cases hk'
  have hlen := q.length_indexes hmulti idx
  obtain ⟨js, j, hjs⟩ : ∃ js j, q.indexes idx = js ++ [j] := by
    have hne : q.indexes idx ≠ [] := by
      rw [← List.length_pos_iff, hlen, hitems]
      simp
    exact ⟨_, _, (List.dropLast_append_getLast hne).symm⟩
  rw [hjs, hitems, List.length_append, List.length_append] at hlen
  have hlen' : js.length = its.length := Nat.add_right_cancel hlen
  rw [hjs] at hidx
  obtain ⟨mhdr, hskip, hstart⟩ := exists_start hsize h hmulti htwo next
  rw [hitems] at hstart
  obtain ⟨s₁, hkeys₁, hs₁⟩ := fragmentKeys_gathered size hstart
    (fun i hi => hidx i (by simp [hi])) hlen' hks₁.symm
    fun item hitem => q.handled hmulti hmax (by simp [hitems, hitem]) (hits item hitem)
  rw [List.nil_append, List.nil_append] at hs₁
  obtain ⟨hsrc, hun⟩ := hs₁.src hstep
  have hkey : k.length < 2 ^ 31 := by
    have : k ∈ q.cls.keys q.args := by rw [hks]; simp
    exact lt_trans (q.key_lt k this) hmax
  obtain ⟨s₂, f, hlast, hsub, -, hbytes, hnarg, -⟩ := fragmentKey_pair size (hidx j (by simp))
    hstep hkey (q.length_lt v (hmem v (by simp)))
    (show s₁.src.bytes = bulk k ++ (bulk v ++ []) by rw [hsrc]; simp) hun
  rw [List.append_nil, (hs₁.getD j).1] at hbytes
  rw [(hs₁.getD j).2] at hnarg
  have hkeys : fragmentKeys size ncontinuum q.cls.step
      { src := { mhdr := mhdr, mlen := msg.mlen }, next := next }
      ((q.indexes idx).zip (q.cls.keys q.args)) = .ok s₂ := by
    have hcount : js.length = ks.length := by
      have := congrArg List.length hks₁
      simp only [List.length_map] at this
      omega
    rw [hjs, hks, List.zip_append hcount, fragmentKeys_append hkeys₁, List.zip_cons_cons,
      fragmentKeys, hlast]
    rfl
  obtain ⟨res, hres, hfin⟩ := redisFragment_of_keys hsize h hmulti htwo ncontinuum next idx hskip
    hkeys
  refine ⟨res, hres, fun hpart => ?_⟩
  -- the fragment of the last key
  obtain ⟨f', hf'⟩ := (hpart.occurs j).2 (by rw [hjs]; simp)
  obtain ⟨g, hg, hgbytes, -⟩ := hfin.header j (List.mem_range.2 (hidx j (by simp))) f' hf'
  change s₂.sub j = some g at hg
  rw [hsub, Function.update_self] at hg
  cases hg
  have hgroup : groupOf (q.indexes idx) j q.items = groupOf js j its ++ [[k, v]] := by
    rw [hjs, hitems, groupOf_append hlen', if_pos rfl]
  have hcount := count_groupOf_lt hmulti idx j
  have hexpected := hpart.bytes j f' hf'
  have htwo' : [k, v].length = 2 := rfl
  rw [hgroup, List.flatten_append, List.flatten_singleton, List.length_append, htwo'] at hcount
  have hn : f.narg = (groupOf js j its).flatten.length + 2 := by
    have hG : wrap32 (groupOf js j its).flatten.length = (groupOf js j its).flatten.length :=
      wrap32_of_lt (by omega)
    rw [hnarg, hG, wrap32_of_lt (by omega)]
  rw [hgbytes, hn, hbytes, hgroup, List.flatten_append, List.flatten_singleton, respEncode_cons,
    List.length_append, htwo'] at hexpected
  have hsmall := lt_of_fragmentHeader hmulti hcount hexpected
  rw [fragmentHeader_of_lt hmulti hsmall, List.append_assoc, List.append_right_inj,
    List.append_right_inj, List.flatMap_append, List.append_assoc,
      List.append_right_inj] at hexpected
  have hcut := congrArg List.length hexpected
  simp only [List.flatMap_cons, List.flatMap_nil, List.append_nil, List.length_append,
    List.length_take] at hcut
  omega

end Bytes

/-! ### The partition -/

/-- **A received request is partitioned if and only if no bulk has `2 ^ 32` bytes and no fragment
has `2 ^ 31` arguments**, for requests in which at most the last bulk is that long. -/
theorem redisFragment_partitions_iff {size : ℕ} (hsize : 464 ≤ size) (hmax : size < 2 ^ 31)
    {qs : List (Request size)} (heval : ∀ q ∈ qs, q.cls ≠ .argeval) {chunks : List (List Byte)}
    (hstream : chunks.flatten = qs.flatMap Request.encode)
    (hwrap : ∀ x ∈ (recvRun redisParseReq size chunks).reads, wrap32 x ≠ 0)
    {msg : RecvMsg ReqRegs} {q : Request size}
    (hmem : (msg, q) ∈ (recvRun redisParseReq size chunks).received.zip qs) (hmulti : q.Multi)
    (htwo : 2 ≤ (q.cls.keys q.args).length) (ncontinuum next : ℕ) (idx : ℕ → List Byte → ℕ)
    (hidx : ∀ i ∈ q.indexes idx, i < ncontinuum)
    (hbulk : ∀ v ∈ q.args.dropLast, (bulk v).length < 2 ^ 32) :
    (∃ res, redisFragment size ncontinuum next idx msg = .ok res ∧
      Partitioned q (q.indexes idx) ncontinuum res) ↔
    (∀ v ∈ q.args, (bulk v).length < 2 ^ 32) ∧
      ∀ i, (groupOf (q.indexes idx) i q.items).flatten.length + 1 < 2 ^ 31 := by
  have hdel := recvRun_delivered (by omega) (by omega)
    (fun q hq => q.accepted hsize (heval q hq)) hstream hwrap hmem
  by_cases hall : ∀ v ∈ q.args, (bulk v).length < 2 ^ 32
  · rw [partitioned_iff_of_bulk hsize hmax hdel hmulti htwo ncontinuum next idx hidx hall]
    exact ⟨fun hfits => ⟨hall, hfits⟩, And.right⟩
  · refine ⟨?_, fun hboth => absurd hboth.1 hall⟩
    rintro ⟨res, hres, hpart⟩
    obtain ⟨its, k, v, hitems, hits, hv⟩ := q.exists_last hmulti hmax hbulk hall
    obtain ⟨res', hres', hnot⟩ := not_partitioned_of_last hsize hmax hdel hmulti htwo ncontinuum
      next idx hidx hitems hits hv
    rw [hres] at hres'
    cases hres'
    exact absurd hpart hnot

/-- `MSET a x b v`. -/
def msetRequest (v : List Byte) (hv : v.length < 2 ^ 32) : Request 464 where
  name := str "MSET"
  args := [str "a", str "x", str "b", v]
  type := .reqRedisMset
  cls := .argkvx
  supported := ⟨"mset", by decide, rfl, by decide⟩
  class_eq := by decide
  admits := by
    change 2 ≤ 4 ∧ 4 % 2 = 0
    decide
  count_lt := by
    change 5 < 2 ^ 32
    decide
  length_lt := by
    intro w hw
    simp only [List.mem_cons, List.not_mem_nil, or_false] at hw
    rcases hw with rfl | rfl | rfl | rfl
    · decide
    · decide
    · decide
    · exact hv
  key_lt := by
    intro k hk
    rcases List.mem_pair.1 hk with rfl | rfl <;> decide

/-- `MSET a x b y`. -/
def smallMset : Request 464 := msetRequest (str "y") (by decide)

/-- `MSET a x b y` with the two keys on different backends. -/
theorem redisFragment_partitions_smallMset :
    ∃ msg, (recvRun redisParseReq 464 [smallMset.encode]).received = [msg] ∧
      ∃ res, redisFragment 464 2 1 (fun j _ => j) msg = .ok res ∧
        Partitioned smallMset [0, 1] 2 res := by
  have hlen : (recvRun redisParseReq 464 [smallMset.encode]).received.length = 1 := by
    decide +kernel
  obtain ⟨msg, hmsg⟩ := List.length_eq_one_iff.1 hlen
  have hwrap : ∀ x ∈ (recvRun redisParseReq 464 [smallMset.encode]).reads, wrap32 x ≠ 0 := by
    decide +kernel
  have hmem : (msg, smallMset) ∈
      (recvRun redisParseReq 464 [smallMset.encode]).received.zip [smallMset] := by
    rw [hmsg]
    simp
  have hbulk : ∀ v ∈ smallMset.args, (bulk v).length < 2 ^ 32 := by decide
  refine ⟨msg, hmsg, (redisFragment_partitions_iff (by decide) (by decide)
    (by decide : ∀ q ∈ [smallMset], q.cls ≠ .argeval) (by simp) hwrap hmem (.inr (.inr rfl))
    (by decide) 2 1 (fun j _ => j) (by decide)
    fun v hv => hbulk v (List.dropLast_subset _ hv)).2 ⟨hbulk, fun i => ?_⟩⟩
  have hle := length_groupOf_le (smallMset.length_indexes (.inr (.inr rfl)) fun j _ => j) i
  exact lt_of_le_of_lt (Nat.succ_le_succ hle) (by decide)

/-- **The loop of `redis_fragment_argx` that looks for three line feeds stays in the first mbuf**,
however the request came in, and stops before the first key. -/
theorem header_skipped {size : ℕ} (hsize : 464 ≤ size) (hmax : size < 2 ^ 32)
    {qs : List (Request size)}
    (heval : ∀ q ∈ qs, q.cls ≠ .argeval) {chunks : List (List Byte)}
    (hstream : chunks.flatten = qs.flatMap Request.encode)
    (hwrap : ∀ x ∈ (recvRun redisParseReq size chunks).reads, wrap32 x ≠ 0)
    {msg : RecvMsg ReqRegs} {q : Request size}
    (hmem : (msg, q) ∈ (recvRun redisParseReq size chunks).received.zip qs) (hmulti : q.Multi)
    (htwo : 2 ≤ (q.cls.keys q.args).length) :
    ∃ b b' bs, msg.mhdr = b :: bs ∧ skipHeader msg.mhdr = some (b' :: bs) ∧
      b.body = q.head ++ b'.body := by
  have hdel := recvRun_delivered (by omega) hmax (fun q hq => q.accepted hsize (heval q hq)) hstream
    hwrap hmem
  obtain ⟨hz, he, hargs⟩ := hmulti.classes htwo
  exact skipHeader_delivered hsize hdel hz he hargs

/-- `MSET a x b y`, cut in its name. -/
def cutMset : List (List Byte) := [smallMset.encode.take 9, smallMset.encode.drop 9]

theorem header_skipped_cutMset :
    ∃ msg b b' bs, (recvRun redisParseReq 464 cutMset).received = [msg] ∧ msg.mhdr = b :: bs ∧
      skipHeader msg.mhdr = some (b' :: bs) ∧ b.body = smallMset.head ++ b'.body := by
  obtain ⟨msg, hmsg⟩ := List.length_eq_one_iff.1
    (by decide +kernel : (recvRun redisParseReq 464 cutMset).received.length = 1)
  obtain ⟨b, b', bs, h⟩ := header_skipped (by decide) (by decide)
    (by decide : ∀ q ∈ [smallMset], q.cls ≠ .argeval) (by decide +kernel : cutMset.flatten = _)
    (by decide +kernel) (show (msg, smallMset) ∈ _ by rw [hmsg]; simp) (.inr (.inr rfl)) (by decide)
  exact ⟨msg, b, b', bs, hmsg, h⟩

/-! ### A value that is cut off -/

section Long

variable {v : List Byte} (hv : v.length < 2 ^ 32)

include hv in
/-- The request up to its last value, which the parser skips. -/
theorem encode_msetRequest : ∃ pre, pre.length < 464 ∧ 35 ≤ pre.length ∧
    (msetRequest v hv).encode = pre ++ (v ++ [CR, LF]) ∧
    ∃ a : ReqScan, (reqMachine 464).Leads (ReqScan.Fine 464) {} pre a ∧ a.state = .arg1 ∧
      a.tok = [] ∧ a.rlen = v.length := by
  have hclass : argClass (msetRequest v hv).out.type = some .argkvx :=
    show argClass .reqRedisMset = some .argkvx by decide
  have hodd : (msetRequest v hv).out.narg % 2 = 1 := by
    change (4 + 1) % 2 = 1
    rfl
  have hten := numeral_length_le_ten hv
  have hl := ((msetRequest v hv).leads_head (by decide) (by simp [msetRequest])
    (by simp [msetRequest]) (by simp [msetRequest])).trans
      ((leads_pair_key (by decide) hclass hodd 3 [] (k := str "a") (by decide) (by decide)).trans
        ((leads_pair_value (by decide) hclass (by decide) _ (v := str "x") (by decide)).trans
          ((leads_pair_key (by decide) hclass hodd 1 _ (k := str "b") (by decide) (by decide)).trans
            (leads_argLen (by decide) _ 0 _ (.inl rfl) hv))))
  have hhead : (msetRequest v hv).head.length = 14 := rfl
  have ha : (bulk (str "a")).length = 7 := rfl
  have hx : (bulk (str "x")).length = 7 := rfl
  have hb : (bulk (str "b")).length = 7 := rfl
  refine ⟨_, ?_, ?_, ?_, _, hl, rfl, rfl, rfl⟩
  · simp only [List.length_append, List.length_cons, List.length_nil, hhead, ha, hx, hb]
    omega
  · simp only [List.length_append, List.length_cons, List.length_nil, hhead, ha, hx, hb]
    omega
  · rw [(msetRequest v hv).encode_eq_head]
    simp [msetRequest, bulk, bulkBody]

/-- **The request can be received** when its value is so long that the received length wraps, as a
buffer of 464 bytes does not end after `2 ^ 32` bytes. -/
theorem exists_received (hlong : 2 ^ 32 ≤ (bulk v).length) :
    ∃ chunks msg, chunks.flatten = (msetRequest v hv).encode ∧
      (∀ x ∈ (recvRun redisParseReq 464 chunks).reads, wrap32 x ≠ 0) ∧
      (recvRun redisParseReq 464 chunks).received = [msg] := by
  obtain ⟨pre, hpre, hmin, henc, a, hl, hstate, htok, hrlen⟩ := encode_msetRequest hv
  have hten := numeral_length_le_ten hv
  have hlen : (msetRequest v hv).encode.length = pre.length + v.length + 2 := by
    rw [henc]
    simp [Nat.add_assoc]
  rw [length_bulk] at hlong
  have hpos : 2 ^ 32 - 1 = pre.length + (2 ^ 32 - 1 - pre.length) := by omega
  have htake : (msetRequest v hv).encode.take (2 ^ 32 - 1) =
      pre ++ v.take (2 ^ 32 - 1 - pre.length) := by
    rw [henc, hpos, List.take_length_add_append, List.take_append_of_le_length (by omega), ← hpos]
  have hvtake : (v.take (2 ^ 32 - 1 - pre.length)).length = 2 ^ 32 - 1 - pre.length := by
    rw [List.length_take]
    omega
  -- the value is skipped without a token, so that the buffers are filled to their ends
  have hstep : ∀ n c, ReqScan.step 464 { a with rlen := n } c =
      ReqScan.skip { a with rlen := n } c .arg1Lf := by
    intro n c
    simp only [ReqScan.step, hstate]
  have hskip := leads_skip_bytes 464 (fun x => (reqMachine 464).token x = [])
    (v.take (2 ^ 32 - 1 - pre.length)) hstep (fun _ => htok) (by omega)
  obtain ⟨m, hm, hskip', hmod⟩ := hskip.buffered_closed (by decide : 0 < 464) hpre.le
  have hfill : m = 15 := by
    rw [hvtake, ← hpos] at hmod
    omega
  have hpre' := hl.buffered_room (n := 0) (show 0 + pre.length ≤ 464 by omega)
  rw [Nat.zero_add] at hpre'
  have hnext : (reqMachine 464).step
      { a with rlen := a.rlen - (v.take (2 ^ 32 - 1 - pre.length)).length } 0 =
      .more { a with rlen := a.rlen - (v.take (2 ^ 32 - 1 - pre.length)).length - 1 } := by
    change ReqScan.step 464 _ 0 = _
    rw [hstep, ReqScan.skip, if_pos (by simp only; omega)]
  have hacc := (msetRequest v hv).accepted (by decide) (by simp [msetRequest])
  obtain ⟨chunks, hchunks, hwrap⟩ := exists_chunks (redisParseReq_sim 464) (by decide) (by decide)
    (show ((reqMachine 464).buffered 464).Accepts _ _ (msetRequest v hv).frame.1
      (msetRequest v hv).frame.2 from hacc)
    (show 2 ^ 32 < (msetRequest v hv).encode.length by omega)
    (show (msetRequest v hv).encode.length < 2 ^ 33 by omega)
    (show ((reqMachine 464).buffered 464).Leads _ _
      ((msetRequest v hv).encode.take (2 ^ 32 - 1)) _ by
      rw [htake]
      exact hpre'.trans hskip') hnext (by omega)
  have hgood := recvRun_frames (redisParseReq_sim 464) (by decide) (by decide)
    (show ∀ g ∈ [(msetRequest v hv).frame], _ from List.forall_mem_singleton.2 hacc)
    (by simpa using hchunks) hwrap
  obtain ⟨msg, _, -, hrest, hmsg⟩ := List.forall₂_cons_right_iff.1 hgood.delivered
  cases hrest
  exact ⟨chunks, msg, hchunks, hwrap, hmsg⟩

/-- The last value of the request is cut off. -/
theorem not_partitioned_msetRequest (hlong : 2 ^ 32 ≤ (bulk v).length) :
    ∃ chunks msg res, chunks.flatten = (msetRequest v hv).encode ∧
      (∀ x ∈ (recvRun redisParseReq 464 chunks).reads, wrap32 x ≠ 0) ∧
      (recvRun redisParseReq 464 chunks).received = [msg] ∧
      redisFragment 464 1 0 (fun _ _ => 0) msg = .ok res ∧
      ¬ Partitioned (msetRequest v hv) [0, 0] 1 res := by
  obtain ⟨chunks, msg, hchunks, hwrap, hmsg⟩ := exists_received hv hlong
  have hacc := (msetRequest v hv).accepted (by decide) (by simp [msetRequest])
  have hdel := recvRun_delivered (by decide) (by decide)
    (show ∀ q ∈ [msetRequest v hv], q.Accepted from List.forall_mem_singleton.2 hacc)
    (by simpa using hchunks) hwrap (show (msg, msetRequest v hv) ∈ _ by rw [hmsg]; simp)
  have hits : ∀ item ∈ [[str "a", str "x"]], ∀ w ∈ item, (bulk w).length < 2 ^ 32 := by decide
  obtain ⟨res, hres, hnot⟩ := not_partitioned_of_last (by decide) (by decide) hdel
    (.inr (.inr rfl)) (by simp [msetRequest, ArgClass.keys, everyOther]) 1 0
    (fun _ _ => 0) (by simp [Request.indexes, msetRequest, ArgClass.keys, everyOther])
    (show (msetRequest v hv).items = [[str "a", str "x"]] ++ [[str "b", v]] from rfl) hits hlong
  exact ⟨chunks, msg, res, hchunks, hwrap, hmsg, hres, hnot⟩

end Long

theorem length_hugeValue : (List.replicate (2 ^ 32 - 1) (0 : Byte)).length = 2 ^ 32 - 1 :=
  List.length_replicate

theorem length_hugeValue_lt : (List.replicate (2 ^ 32 - 1) (0 : Byte)).length < 2 ^ 32 := by
  rw [length_hugeValue]
  omega

/-- `MSET a x b v` with a value of `2 ^ 32 - 1` bytes. -/
def hugeMset : Request 464 := msetRequest (List.replicate (2 ^ 32 - 1) 0) length_hugeValue_lt

/-- **An `MSET` that is not partitioned**: of the last value 14 bytes reach the fragment, the line
with its length and one of its bytes. -/
theorem redisFragment_hugeMset :
    ∃ chunks msg res, chunks.flatten = hugeMset.encode ∧
      (∀ x ∈ (recvRun redisParseReq 464 chunks).reads, wrap32 x ≠ 0) ∧
      (recvRun redisParseReq 464 chunks).received = [msg] ∧
      redisFragment 464 1 0 (fun _ _ => 0) msg = .ok res ∧
      ¬ Partitioned hugeMset [0, 0] 1 res :=
  not_partitioned_msetRequest _ (by
    rw [length_bulk, length_hugeValue]
    omega)

end CacheProxy
