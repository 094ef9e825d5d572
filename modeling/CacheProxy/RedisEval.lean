/-
**`EVAL` and `EVALSHA`: a full buffer inside the number of keys.**

The number of keys is a token, which a full buffer moves to the next one, and at the same time a
skipped argument, for which the parser counts `rlen` down.  When the token is moved, `rlen` keeps
what was counted: the parser looks for the end of the argument too early, finds a digit and
reports an error.

Main definitions:

* `EvalRequest` — a request with a script, a number of keys, a first key and further arguments;
* `EvalRequest.numkeysOffset` — where in its buffer the number of keys begins.

Main results:

* `EvalRequest.accepted` — the request is accepted if the buffer has room behind the number;
* `EvalRequest.rejected` — it is rejected if not, or if the number is zero modulo `2 ^ 32`;
* `eval_framed_iff` — **when an `EVAL` request is found in the stream**.
-/

import CacheProxy.RedisFraming

namespace CacheProxy

open Decimal

/-! ### Requests -/

/-- **A request `EVAL script numkeys key more`.** -/
structure EvalRequest (size : ℕ) extends Request size where
  script : List Byte
  numkeys : List Byte
  key : List Byte
  more : List (List Byte)
  args_eq : args = script :: numkeys :: key :: more
  cls_eq : cls = .argeval
  digits : ∀ d ∈ numkeys, isDigit d = true
  value_pos : 1 ≤ value numkeys

/-- The offset in its mbuf of a byte that follows `bs`. -/
def offsetAfter (size : ℕ) (bs : List Byte) : ℕ :=
  match ((reqMachine size).buffered size).run ((reqMachine size).init, 0) bs with
  | .more x => if x.2 = size then 0 else x.2
  | .done _ _ => 0
  | .fail => 0

namespace EvalRequest

variable {size : ℕ} (q : EvalRequest size)

/-- The bytes before the digits of the number of keys. -/
def beforeNumkeys : List Byte :=
  multiHeader (q.args.length + 1) ++ bulk q.name ++ bulk q.script ++
    (36 :: numeral q.numkeys.length ++ [CR, LF])

/-- The bytes behind them, from the line feed on. -/
def afterNumkeys : List Byte := LF :: (bulk q.key ++ q.more.flatMap bulk)

/-- **Where in its mbuf the number of keys begins.** -/
def numkeysOffset : ℕ := offsetAfter size q.beforeNumkeys

theorem encode_eq : q.encode = q.beforeNumkeys ++ (q.numkeys ++ CR :: q.afterNumkeys) := by
  simp [Request.encode, respEncode, beforeNumkeys, afterNumkeys, q.args_eq, bulk, bulkBody]

theorem class_out : argClass q.out.type = some .argeval := q.cls_eq ▸ q.class_eq

theorem keys_out : q.out.keys = [q.key] := by
  simp [Request.out, q.cls_eq, ArgClass.keys, q.args_eq]

theorem eval_out : redisArgeval q.out.type = true := by simp [redisArgeval_eq, q.class_out]

theorem numkeys_ne_nil : q.numkeys ≠ [] := by
  intro h
  have := q.value_pos
  rw [h] at this
  exact absurd this (by decide)

theorem length_lt_of_mem {v : List Byte} (h : v ∈ q.script :: q.numkeys :: q.key :: q.more) :
    v.length < 2 ^ 32 :=
  q.length_lt v (q.args_eq ▸ h)

/-! ### Up to the number of keys -/

/-- The state in which `n` bytes of the number remain to be read and `t` have been read. -/
def reading (n : ℕ) (t : List Byte) : ReqScan :=
  { argAt q.out .arg2 (q.more.length + 1) [] with tok := t, rlen := n }

theorem leads_beforeNumkeys (hsize : 464 ≤ size) :
    (reqMachine size).Leads (ReqScan.Fine size) {} q.beforeNumkeys
      (q.reading q.numkeys.length []) := by
  have hargs : q.args.length = q.more.length + 1 + 1 + 1 := by simp [q.args_eq]
  have hclass := q.class_out
  have heval := q.eval_out
  have hname := q.toRequest.leads_name hsize
  rw [hargs] at hname
  have hscript : (reqMachine size).Leads (ReqScan.Fine size)
      (argAt q.out .reqTypeLf (q.more.length + 1 + 1 + 1) []) (LF :: bulkBody q.script)
      (argAt q.out .arg1Lf (q.more.length + 1 + 1) []) := by
    refine (leads_lf hsize (afterReqType q.out.type q.out.narg) rfl ?_).trans
      (leads_bulkBody_arg hsize q.out _ [] (.inl rfl) (q.length_lt_of_mem (by simp)))
    have hnarg : q.out.narg ≠ 1 := by
      change q.args.length + 1 ≠ 1
      omega
    simp [afterReqType, redisArgz_eq, hclass, heval, hnarg]
  have hlen : (reqMachine size).Leads (ReqScan.Fine size)
      (argAt q.out .arg1Lf (q.more.length + 1 + 1) [])
      (LF :: (36 :: numeral q.numkeys.length ++ [CR, LF])) (q.reading q.numkeys.length []) := by
    refine (leads_lf hsize (afterArg1 q.out.type (q.more.length + 1 + 1)) rfl ?_).trans
      (leads_len size (ReqScan.Fine size) (argAt q.out .arg2Len (q.more.length + 1 + 1) [])
        (fun _ n => decide (n ≤ 1)) .arg2LenLf .arg2 (fun _ _ _ => rfl)
        (fun x hx _ => by simp only [ReqScan.step, hx]) (q.length_lt_of_mem (by simp)) rfl
        (Nat.succ_ne_zero _) (by simpa using numeral_ne_nil q.numkeys.length)
        (fun t m ht => fine_of_ne (by simp [argAt]) (by simp only; omega))
        (fine_of_ne (by simp) (by simp only [List.length_nil]; omega)))
    simp [afterArg1, redisArg1_eq, redisArg2_eq, redisArg3_eq, redisArgn_eq, hclass, heval]
  have hbytes : q.beforeNumkeys = multiHeader (q.more.length + 1 + 1 + 1 + 1) ++ bulkBody q.name ++
      LF :: bulkBody q.script ++ LF :: (36 :: numeral q.numkeys.length ++ [CR, LF]) := by
    simp [beforeNumkeys, hargs, bulk]
  rw [hbytes]
  exact (hname.trans hscript).trans hlen

/-- **Behind the number of keys** nothing can go wrong. -/
theorem accepts_afterNumkeys (hsize : 464 ≤ size) :
    (reqMachine size).Accepts (ReqScan.Fine size) (argAt q.out .arg2Lf (q.more.length + 1) [])
      q.afterNumkeys q.out := by
  have hclass := q.class_out
  have heval := q.eval_out
  have hkey : q.key.length < size ∧ q.key.length < 2 ^ 32 :=
    ⟨q.key_lt q.key (by simp [q.cls_eq, ArgClass.keys, q.args_eq]), q.length_lt_of_mem (by simp)⟩
  have hmore : ∀ v ∈ q.more, v.length < 2 ^ 32 := fun v hv => q.length_lt_of_mem (by simp [hv])
  refine accepts_lf hsize (afterArg2 q.out.type (q.more.length + 1)) rfl ?_
    (accepts_key hsize hkey.1 hkey.2 ?_)
  · simp [afterArg2, redisArg2_eq, redisArg3_eq, redisArgn_eq, hclass, heval]
  -- behind the key the automaton goes on as behind a further argument
  rw [List.nil_append, ← q.keys_out]
  refine (accepts_argn hsize (.inr hclass) hmore).of_step_eq (fine_argAt (by omega) _ _ _ _) ?_
  change ReqScan.lf _ LF (afterKey q.out.type q.out.narg q.more.length) =
    ReqScan.lf _ LF (afterArgn q.out.type q.more.length)
  have hsame : afterKey q.out.type q.out.narg q.more.length =
      afterArgn q.out.type q.more.length := by
    simp [afterKey, afterArgn, redisArg0_eq, redisArg1_eq, redisArg2_eq, redisArg3_eq,
      redisArgn_eq, redisArgx_eq, redisArgkvx_eq, hclass, heval]
  rw [hsame]
  cases afterArgn q.out.type q.more.length <;> rfl

/-! ### The number of keys -/

/-- The digits of the number, when they are read without interruption. -/
theorem leads_numkeys {n : ℕ} {t : List Byte} (xs : List Byte) (h : xs.length ≤ n) :
    (reqMachine size).Leads (fun _ => True) (q.reading n t) xs
      (q.reading (n - xs.length) (t ++ xs)) :=
  leads_evalKeys_bytes size _ xs rfl q.eval_out (fun _ _ _ _ => trivial) h

theorem evalKeys_numkeys : evalKeys q.numkeys = some (value q.numkeys % 2 ^ 32) := by
  have hall : q.numkeys.all isDigit = true := List.all_eq_true.2 q.digits
  rw [evalKeys, if_pos hall, valueMod_eq]

/-- A byte when no more of the number is expected. -/
theorem step_numkeys_end (t : List Byte) (c : Byte) :
    (reqMachine size).step (q.reading 0 t) c =
      if c ≠ CR then .fail else (q.reading 0 t).gotEvalKeys := by
  have heval : redisArgeval (q.reading 0 t).type = true := q.eval_out
  change ReqScan.arg2 _ c = _
  rw [ReqScan.arg2, if_pos heval, if_neg (show ¬ 0 < (q.reading 0 t).rlen from Nat.lt_irrefl 0)]

/-- The carriage return behind the number. -/
theorem step_numkeys_cr : (reqMachine size).step (q.reading 0 q.numkeys) CR =
    if value q.numkeys % 2 ^ 32 = 0 then .fail
    else .more (argAt q.out .arg2Lf (q.more.length + 1) []) := by
  rw [step_numkeys_end, if_neg (by simp), ReqScan.gotEvalKeys,
    if_neg (show ¬ (q.reading 0 q.numkeys).tok = [] from q.numkeys_ne_nil),
    show (q.reading 0 q.numkeys).tok = q.numkeys from rfl, q.evalKeys_numkeys]
  rfl

/-- A digit where the carriage return is expected. -/
theorem step_numkeys_digit {t : List Byte} {d : Byte} (hd : isDigit d = true) :
    (reqMachine size).step (q.reading 0 t) d = .fail := by
  have hne : d ≠ CR := by
    rintro rfl
    exact absurd hd (by decide)
  rw [step_numkeys_end, if_pos hne]

/-- The number read again after a move: `n` bytes are expected, those of `t` are there. -/
theorem run_moved {n : ℕ} {t : List Byte} (ht : ∀ d ∈ t, isDigit d = true) :
    (reqMachine size).run (q.reading n []) t =
      if t.length ≤ n then .more (q.reading (n - t.length) t) else .fail := by
  split
  · next hle => exact (q.leads_numkeys t hle).run_eq
  · next hgt =>
      -- the byte behind the first `n` is a digit, not the carriage return
      have hcut : t = t.take n ++ t.drop n := (List.take_append_drop n t).symm
      have hn : (t.take n).length = n := by
        rw [List.length_take]
        omega
      obtain ⟨d, ds, hd⟩ : ∃ d ds, t.drop n = d :: ds := by
        refine List.exists_cons_of_ne_nil fun hnil => ?_
        rw [List.drop_eq_nil_iff] at hnil
        omega
      have hl := q.leads_numkeys (t := []) (t.take n) hn.le
      rw [hn, Nat.sub_self] at hl
      rw [hcut, hl.run_append, hd, ByteMachine.run_cons_fail]
      exact q.step_numkeys_digit (ht d (List.mem_of_mem_drop (by rw [hd]; simp)))

/-- **A full buffer inside the number of keys**: the number is moved and read again. -/
theorem rejects_full {n : ℕ} {t : List Byte} {c : Byte} {zs : List Byte} (ht : t ≠ [])
    (hdigits : ∀ d ∈ t, isDigit d = true) (hlt : t.length < size)
    (h : t.length ≤ n → ((reqMachine size).buffered size).Rejects ((reqMachine size).Safe size)
      (q.reading (n - t.length) t, t.length) (c :: zs)) :
    ((reqMachine size).buffered size).Rejects ((reqMachine size).Safe size)
      (q.reading n t, size) (c :: zs) := by
  have hrun := q.run_moved (n := n) hdigits
  have hsafe : (reqMachine size).Safe size (q.reading n t, size) := by
    refine ⟨Nat.le_refl _, fun _ _ => ⟨hlt, fun o rest heq => ?_⟩⟩
    have : (reqMachine size).run (q.reading n []) t = .done o rest := heq
    rw [hrun] at this
    split at this <;> cases this
  by_cases hle : t.length ≤ n
  · rw [if_pos hle] at hrun
    refine (h hle).of_step_eq hsafe (ByteMachine.buffered_step_congr ?_ c)
    rw [ByteMachine.refill_room hlt]
    exact ByteMachine.refill_token ht hrun
  · rw [if_neg hle] at hrun
    refine .head hsafe ?_
    simp only [ByteMachine.buffered,
      ByteMachine.refill_fail (M := reqMachine size) (a := q.reading n t) ht hrun]

/-- **Fewer bytes are expected than digits follow**: the run fails at one of the digits. -/
theorem rejects_short {n m : ℕ} {t ds rest : List Byte} (hn : n < ds.length) (hm : m ≤ size)
    (ht : t ≠ []) (hdigits : ∀ d ∈ t ++ ds, isDigit d = true) (hlt : (t ++ ds).length < size) :
    ((reqMachine size).buffered size).Rejects ((reqMachine size).Safe size)
      (q.reading n t, m) (ds ++ rest) := by
  induction ds generalizing n m t with
  | nil => exact absurd hn (Nat.not_lt_zero _)
  | cons d ds ih =>
      rw [List.length_append, List.length_cons] at hlt
      have hd : isDigit d = true := hdigits d (by simp)
      -- in a buffer with room the next digit is read, or is the one too many
      have hroom : ∀ {k l : ℕ}, k < (d :: ds).length → l < size →
          ((reqMachine size).buffered size).Rejects ((reqMachine size).Safe size)
            (q.reading k t, l) (d :: (ds ++ rest)) := by
        intro k l hk hl
        have hsafe := ByteMachine.safe_room (M := reqMachine size) (a := q.reading k t) hl
        cases k with
        | zero =>
            refine .head hsafe ?_
            rw [ByteMachine.buffered_step (ByteMachine.refill_room hl), q.step_numkeys_digit hd]
        | succ k =>
            have hstep : (reqMachine size).Leads (fun _ => True) (q.reading (k + 1) t) [d]
                (q.reading k (t ++ [d])) := q.leads_numkeys [d] (by simp)
            have hone := hstep.buffered_room (n := l) hl
            refine .of_leads hone (ih ?_ hl (by simp) (by simpa using hdigits) ?_)
            · rw [List.length_cons] at hk
              omega
            · simp only [List.length_append, List.length_singleton]
              omega
      rcases Nat.lt_or_ge m size with hlt' | hge
      · exact hroom hn hlt'
      · cases Nat.le_antisymm hm hge
        exact q.rejects_full ht (fun x hx => hdigits x (by simp [hx])) (by omega) fun _ =>
          hroom (by omega) (by omega)

/-! ### The whole request -/

/-- The bytes before the number of keys, in buffers: the next byte is at `numkeysOffset`. -/
theorem buffered_beforeNumkeys (hsize : 464 ≤ size) :
    ∃ m, ((reqMachine size).buffered size).Leads ((reqMachine size).Safe size)
        ((reqMachine size).init, 0) q.beforeNumkeys (q.reading q.numkeys.length [], m) ∧
      (reqMachine size).Safe size (q.reading q.numkeys.length [], m) ∧ q.numkeysOffset < size ∧
      (reqMachine size).refill size (q.reading q.numkeys.length [], m) =
        (reqMachine size).refill size (q.reading q.numkeys.length [], q.numkeysOffset) := by
  obtain ⟨m, hm, hl⟩ := (q.leads_beforeNumkeys hsize).buffered (reqMachine_tokenizes size)
    (fun _ h => h) (reqMachine_wf_init size).1 (reqMachine_wf_init size).2 (Nat.zero_le size)
  have hoff : q.numkeysOffset = if m = size then 0 else m := by
    simp only [numkeysOffset, offsetAfter]
    rw [hl.run_eq]
  refine ⟨m, hl, ⟨hm, fun _ hne => absurd rfl hne⟩, ?_, ?_⟩
  · rw [hoff]
    split <;> omega
  · rw [hoff]
    split
    · next hfull =>
        rw [hfull, ByteMachine.refill_full rfl, ByteMachine.refill_room (by omega)]
    · rfl

/-- **The request is accepted if its number of keys, with the carriage return behind it, fits in
the buffer in which it begins.** -/
theorem accepted (hsize : 464 ≤ size) (hval : value q.numkeys % 2 ^ 32 ≠ 0)
    (hroom : q.numkeysOffset + q.numkeys.length < size) : q.toRequest.Accepted := by
  obtain ⟨m, hbefore, hsafe, -, hrefill⟩ := q.buffered_beforeNumkeys hsize
  have hnum : (reqMachine size).Leads (fun _ => True) (q.reading q.numkeys.length [])
      (q.numkeys ++ [CR]) (argAt q.out .arg2Lf (q.more.length + 1) []) := by
    have hdigits := q.leads_numkeys (t := []) q.numkeys (Nat.le_refl _)
    rw [Nat.sub_self] at hdigits
    refine hdigits.trans (.single trivial ?_)
    rw [List.nil_append, q.step_numkeys_cr, if_neg hval]
  have hfit : q.numkeysOffset + (q.numkeys ++ [CR]).length ≤ size := by
    rw [List.length_append, List.length_singleton]
    omega
  have hnum' := hnum.buffered_room hfit
  obtain ⟨d, ds, hd⟩ := List.exists_cons_of_ne_nil q.numkeys_ne_nil
  have hnum'' : ((reqMachine size).buffered size).Leads ((reqMachine size).Safe size)
      (q.reading q.numkeys.length [], m) (q.numkeys ++ [CR])
      (argAt q.out .arg2Lf (q.more.length + 1) [],
        q.numkeysOffset + (q.numkeys ++ [CR]).length) := by
    have hcons : q.numkeys ++ [CR] = d :: (ds ++ [CR]) := by rw [hd]; rfl
    rw [hcons] at hnum' ⊢
    exact hnum'.of_step_eq hsafe (ByteMachine.buffered_step_congr hrefill d)
  have hwf : (argAt q.out .arg2Lf (q.more.length + 1) []).Wf := ⟨rfl, rfl⟩
  have hafter := (q.accepts_afterNumkeys hsize).buffered (reqMachine_tokenizes size)
    (fun _ h => h) hwf rfl hfit
  have hbytes : q.encode = q.beforeNumkeys ++ (q.numkeys ++ [CR]) ++ q.afterNumkeys := by
    rw [q.encode_eq]
    simp
  rw [Request.Accepted, hbytes]
  exact .of_leads (hbefore.trans hnum'') hafter

/-- **The request is rejected if the buffer is full before the carriage return behind the number
of keys**, or if the number is zero modulo `2 ^ 32`.  A number that is as long as an mbuf may pass:
an mbuf full of its digits is not read again, so that `rlen` is right for the digits behind. -/
theorem rejected (hsize : 464 ≤ size) (hshort : q.numkeys.length < size)
    (h : value q.numkeys % 2 ^ 32 = 0 ∨ size ≤ q.numkeysOffset + q.numkeys.length) :
    ((reqMachine size).buffered size).Rejects ((reqMachine size).Safe size)
      ((reqMachine size).init, 0) q.encode := by
  obtain ⟨m, hbefore, hsafe, hoff, hrefill⟩ := q.buffered_beforeNumkeys hsize
  obtain ⟨d, ds, hd⟩ := List.exists_cons_of_ne_nil q.numkeys_ne_nil
  rw [q.encode_eq]
  refine .of_leads hbefore ?_
  -- it is enough to begin at the offset of the number
  suffices hmain : ((reqMachine size).buffered size).Rejects ((reqMachine size).Safe size)
      (q.reading q.numkeys.length [], q.numkeysOffset) (q.numkeys ++ CR :: q.afterNumkeys) by
    have hcons : q.numkeys ++ CR :: q.afterNumkeys = d :: (ds ++ CR :: q.afterNumkeys) := by
      rw [hd]
      rfl
    rw [hcons] at hmain ⊢
    exact hmain.of_step_eq hsafe (ByteMachine.buffered_step_congr hrefill d)
  rcases Nat.lt_or_ge (q.numkeysOffset + q.numkeys.length) size with hroom | hfull
  · -- all digits are read, and the number is not accepted
    have hval : value q.numkeys % 2 ^ 32 = 0 := by
      rcases h with h | h
      · exact h
      · omega
    have hdigits := q.leads_numkeys (t := []) q.numkeys (Nat.le_refl _)
    rw [Nat.sub_self, List.nil_append] at hdigits
    refine .of_leads (hdigits.buffered_room (n := q.numkeysOffset) hroom.le)
      (.head (ByteMachine.safe_room hroom) ?_)
    rw [ByteMachine.buffered_step (ByteMachine.refill_room hroom), q.step_numkeys_cr, if_pos hval]
  · -- the buffer is full behind the first `k` digits
    obtain ⟨k, hk⟩ : ∃ k, k = size - q.numkeysOffset := ⟨_, rfl⟩
    have htake : (q.numkeys.take k).length = k := by
      rw [List.length_take]
      omega
    have hdigits := q.leads_numkeys (t := []) (n := q.numkeys.length) (q.numkeys.take k) (by omega)
    rw [List.nil_append, htake] at hdigits
    have hfit : q.numkeysOffset + (q.numkeys.take k).length ≤ size := by omega
    have hread := hdigits.buffered_room hfit
    rw [htake, show q.numkeysOffset + k = size by omega] at hread
    have hcut : q.numkeys ++ CR :: q.afterNumkeys =
        q.numkeys.take k ++ (q.numkeys.drop k ++ CR :: q.afterNumkeys) := by
      rw [← List.append_assoc, List.take_append_drop]
    rw [hcut]
    refine .of_leads hread ?_
    have hne : q.numkeys.take k ≠ [] := by
      rw [← List.length_pos_iff]
      omega
    obtain ⟨c, zs, hc⟩ : ∃ c zs, q.numkeys.drop k ++ CR :: q.afterNumkeys = c :: zs :=
      List.exists_cons_of_ne_nil (by simp)
    rw [hc]
    refine q.rejects_full hne (fun x hx => q.digits x (List.mem_of_mem_take hx)) (by omega)
      fun hle => ?_
    rw [← hc]
    rw [htake] at hle ⊢
    refine q.rejects_short ?_ (by omega) hne ?_ ?_
    · rw [List.length_drop]
      omega
    · rw [List.take_append_drop]
      exact q.digits
    · rw [List.take_append_drop]
      exact hshort

end EvalRequest

/-- `EVAL script 1 k`. -/
def evalRequest (script : List Byte) (h : script.length < 2 ^ 32) : EvalRequest 464 where
  name := str "EVAL"
  args := [script, str "1", str "k"]
  type := .reqRedisEval
  cls := .argeval
  supported := ⟨"eval", by decide, rfl, by decide⟩
  class_eq := by decide
  admits := Nat.le_refl 3
  count_lt := by
    change 4 < 2 ^ 32
    decide
  length_lt := by
    intro v hv
    rcases List.mem_cons.1 hv with rfl | hv
    · exact h
    · rcases List.mem_pair.1 hv with rfl | rfl <;> decide
  key_lt := by
    intro k hk
    rw [List.mem_singleton.1 hk]
    decide
  script := script
  numkeys := str "1"
  key := str "k"
  more := []
  args_eq := rfl
  cls_eq := rfl
  digits := by
    intro d hd
    rw [List.mem_singleton.1 hd]
    decide
  value_pos := by decide

/-- A short script. -/
def shortEval : EvalRequest 464 := evalRequest (str "return 1") (by decide)

/-- A script of 437 bytes: the digit is the last byte of the first buffer. -/
def longEval : EvalRequest 464 :=
  evalRequest (List.replicate 437 0) (by rw [List.length_replicate]; decide)

end CacheProxy
