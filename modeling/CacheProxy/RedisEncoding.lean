/-
**Canonical redis requests, and what the byte machine makes of them.**

A request is an argument vector; its canonical encoding is the multi-bulk form with decimals
without leading zeros.  The machine of `CacheProxy/RedisRequest.lean` accepts the encoding of
every request that its command's class admits, with the command's type, the length of the vector
and the key arguments, and it is never in a state in which a full buffer would harm.

Main definitions:

* `bulk`, `respEncode` — the encoding of an argument and of a request;
* `ArgClass.Admits`, `ArgClass.keys` — how many arguments a class admits, and which are keys;
* `Request` — an argument vector with a supported command and a number of arguments it admits.

Main results:

* `leads_bulkBody_key`, `leads_bulkBody_arg` — one argument;
* `accepts_args` — the arguments of a request, class by class;
* `Request.accepts` — **the machine accepts the encoding of a request**.
-/

import CacheProxy.RedisRequestSim

namespace CacheProxy

open Decimal

/-! ### Encodings -/

/-- The bytes of a bulk argument up to the carriage return behind its data. -/
def bulkBody (bs : List Byte) : List Byte :=
  36 :: numeral bs.length ++ [CR, LF] ++ bs ++ [CR]

/-- **The encoding of an argument**: `$<length> CR LF <data> CR LF`. -/
def bulk (bs : List Byte) : List Byte := bulkBody bs ++ [LF]

/-- The first line of a multi-bulk: `*<n> CR LF`. -/
def multiHeader (n : ℕ) : List Byte := 42 :: numeral n ++ [CR, LF]

/-- **The canonical encoding of an argument vector.** -/
def respEncode (argv : List (List Byte)) : List Byte :=
  multiHeader argv.length ++ argv.flatMap bulk

/-! ### Lengths and line feeds -/

section Machine

variable {size : ℕ} {ok : ReqScan → Prop}

/-- The digits of a length. -/
theorem leads_digits {a : ReqScan} {bad : ReqScan → ℕ → Bool} {s : ReqState} (ds : List Byte)
    (hstep : ∀ t n c, ReqScan.step size { a with tok := t, rlen := n } c =
      ReqScan.len { a with tok := t, rlen := n } c (bad { a with tok := t, rlen := n }) s)
    (hds : ∀ d ∈ ds, isDigit d = true) (htok : a.tok ≠ [])
    (hok : ∀ (t : List Byte) (n : ℕ), t.length ≤ a.tok.length + ds.length →
      ok { a with tok := t, rlen := n }) :
    (reqMachine size).Leads ok a ds
      { a with tok := a.tok ++ ds, rlen := valueModFrom (2 ^ 32) a.rlen ds } := by
  induction ds generalizing a with
  | nil => simp
  | cons d ds ih =>
      have hd : isDigit d = true := hds d (by simp)
      have hone : (reqMachine size).step a d =
          .more { a with tok := a.tok ++ [d], rlen := wrap32 (a.rlen * 10 + digitVal d) } := by
        change a.step size d = _
        rw [hstep a.tok a.rlen d, ReqScan.len, if_neg htok, if_pos hd]
      refine .cons (hok a.tok a.rlen (by omega)) hone ?_
      have := ih (a := { a with tok := a.tok ++ [d], rlen := wrap32 (a.rlen * 10 + digitVal d) })
        hstep (fun x hx => hds x (by simp [hx])) (by simp) fun t n ht => hok t n (by
          simp only [List.length_append, List.length_nil, List.length_cons] at ht ⊢
          omega)
      simpa [wrap32] using this

theorem numeral_length_le_ten {n : ℕ} (h : n < 2 ^ 32) : (numeral n).length ≤ 10 :=
  numeral_length_le (by decide) (lt_trans h (by decide))

/-- The start of a length: the token stays open. -/
theorem leads_head (size : ℕ) (ok : ReqScan → Prop) (a : ReqScan) (bad : ReqScan → ℕ → Bool)
    (s₁ : ReqState) {ds : List Byte}
    (hstep : ∀ t m c, ReqScan.step size { a with tok := t, rlen := m } c =
      ReqScan.len { a with tok := t, rlen := m } c (bad { a with tok := t, rlen := m }) s₁)
    (htok : a.tok = []) (hds : ∀ d ∈ ds, isDigit d = true)
    (hok : ∀ (t : List Byte) (m : ℕ), t.length ≤ ds.length + 1 →
      ok { a with tok := t, rlen := m }) :
    (reqMachine size).Leads ok a (36 :: ds)
      { a with tok := 36 :: ds, rlen := valueModFrom (2 ^ 32) 0 ds } := by
  have hfirst : (reqMachine size).step a 36 = .more { a with tok := [36], rlen := 0 } := by
    change a.step size 36 = _
    have := hstep a.tok a.rlen 36
    rw [this, ReqScan.len, if_pos htok]
    rfl
  have hdigits := leads_digits (a := { a with tok := [36], rlen := 0 }) ds hstep hds (by simp)
    fun t m ht => hok t m (by
      simp only [List.length_singleton] at ht
      omega)
  have hstart : ok a := by
    have := hok a.tok a.rlen (by simp [htok])
    exact this
  exact .cons hstart hfirst hdigits

/-- A length, with the line end behind it. -/
theorem leads_len (size : ℕ) (ok : ReqScan → Prop) (a : ReqScan) (bad : ReqScan → ℕ → Bool)
    (s₁ s₂ : ReqState) {n : ℕ}
    (hstep : ∀ t m c, ReqScan.step size { a with tok := t, rlen := m } c =
      ReqScan.len { a with tok := t, rlen := m } c (bad { a with tok := t, rlen := m }) s₁)
    (hlf : ∀ x : ReqScan, x.state = s₁ → x.type = a.type → x.step size LF = x.lf LF (.goto s₂))
    (hn : n < 2 ^ 32) (htok : a.tok = []) (hrnarg : a.rnarg ≠ 0)
    (hbad : bad { a with tok := 36 :: numeral n, rlen := n } (numeral n).length.succ = false)
    (hok : ∀ (t : List Byte) (m : ℕ), t.length ≤ 11 → ok { a with tok := t, rlen := m })
    (hok' : ok { a with tok := [], rlen := n, rnarg := a.rnarg - 1, state := s₁ }) :
    (reqMachine size).Leads ok a (36 :: numeral n ++ [CR, LF])
      { a with tok := [], rlen := n, rnarg := a.rnarg - 1, state := s₂ } := by
  have hlen := numeral_length_le_ten hn
  have hhead := leads_head size ok a bad s₁ hstep htok
    (fun d (hd : d ∈ numeral n) => isDigit_of_mem_numeral hd) fun t m ht => hok t m (by omega)
  have hval : valueModFrom (2 ^ 32) 0 (numeral n) = n := by
    rw [valueMod_eq, value_numeral, Nat.mod_eq_of_lt hn]
  rw [hval] at hhead
  have hcr : (reqMachine size).step { a with tok := 36 :: numeral n, rlen := n } CR =
      .more { a with tok := [], rlen := n, rnarg := a.rnarg - 1, state := s₁ } := by
    change ReqScan.step size _ CR = _
    rw [hstep, ReqScan.len, if_neg (by simp), if_neg (by decide), if_pos rfl]
    have hb : (bad { a with tok := 36 :: numeral n, rlen := n }
        (36 :: numeral n).length || a.rnarg == 0) = false := by
      rw [Bool.or_eq_false_iff]
      exact ⟨by simpa using hbad, by simpa using hrnarg⟩
    simp only [hb, Bool.false_eq_true, if_false]
  have hend : (reqMachine size).step
      { a with tok := [], rlen := n, rnarg := a.rnarg - 1, state := s₁ } LF =
      .more { a with tok := [], rlen := n, rnarg := a.rnarg - 1, state := s₂ } := by
    exact (hlf { a with tok := [], rlen := n, rnarg := a.rnarg - 1, state := s₁ } rfl rfl).trans rfl
  have hcrok : ok { a with tok := 36 :: numeral n, rlen := n } := hok _ _ (by
    rw [List.length_cons]
    omega)
  exact hhead.trans (.cons hcrok hcr (.single hok' hend))

/-! ### One argument -/

/-- The state `st` between arguments of a request with result `o`, when `n` arguments remain and
the keys `ks` have been seen. -/
def argAt (o : ReqOut) (st : ReqState) (n : ℕ) (ks : List (List Byte)) : ReqScan :=
  { state := st, rnarg := n, narg := o.narg, type := o.type, keys := ks
    noforward := o.noforward, quit := o.quit }

/-- In a state that does not read the number of keys of `EVAL`, a short token does no harm. -/
theorem fine_of_ne {a : ReqScan} (hst : a.state ≠ .arg2) (htok : a.tok.length < size) :
    a.Fine size :=
  ⟨htok, fun hs => absurd hs hst⟩

theorem fine_argAt (hsize : 0 < size) (o : ReqOut) (st : ReqState) (n : ℕ)
    (ks : List (List Byte)) : (argAt o st n ks).Fine size :=
  ⟨hsize, fun _ => rfl⟩

variable (hsize : 464 ≤ size)

include hsize

/-- A key. -/
theorem leads_bulkBody_key (o : ReqOut) (n : ℕ) (ks : List (List Byte)) {k : List Byte}
    (hk : k.length < size) (hk32 : k.length < 2 ^ 32) :
    (reqMachine size).Leads (ReqScan.Fine size) (argAt o .keyLen (n + 1) ks) (bulkBody k)
      (argAt o .keyLf n (ks ++ [k])) := by
  have hlen := leads_len size (ReqScan.Fine size) (argAt o .keyLen (n + 1) ks)
    (fun x _ => decide (size ≤ x.rlen)) .keyLenLf .key (n := k.length)
    (fun _ _ _ => rfl) (fun x hx _ => by simp only [ReqScan.step, hx]) hk32 rfl
    (Nat.succ_ne_zero n) (by simpa using hk)
    (fun t m ht => fine_of_ne (by simp [argAt]) (by simp only; omega))
    (fine_of_ne (by simp) (by simp only [List.length_nil]; omega))
  have hdata := leads_token_bytes size (ReqScan.Fine size)
    (a := { argAt o .keyLen (n + 1) ks with
      tok := [], rlen := k.length, rnarg := n, state := .key })
    k (fun _ _ => rfl)
    (fun t ht => fine_of_ne (by simp) (by simp only at ht ⊢; omega)) (by simp)
  have hcr : (reqMachine size).step
      { argAt o .keyLen (n + 1) ks with
        tok := [] ++ k, rlen := k.length, rnarg := n, state := .key }
      CR = .more (argAt o .keyLf n (ks ++ [k])) := by
    change ReqScan.token _ CR ReqScan.gotKey = _
    rw [ReqScan.token, if_neg (by simp), if_neg (by simp)]
    rfl
  have hend : ReqScan.Fine size
      { argAt o .keyLen (n + 1) ks with
        tok := [] ++ k, rlen := k.length, rnarg := n, state := .key } :=
    fine_of_ne (by simp) (by simpa using hk)
  exact (hlen.trans hdata).trans (.single hend hcr)

/-- The four states that read an argument that is not looked at. -/
def ArgStates (t : MsgType) (s s₁ s₂ s₃ : ReqState) : Prop :=
  (s, s₁, s₂, s₃) = (.arg1Len, .arg1LenLf, .arg1, .arg1Lf) ∨
  ((s, s₁, s₂, s₃) = (.arg2Len, .arg2LenLf, .arg2, .arg2Lf) ∧ redisArgeval t = false) ∨
  (s, s₁, s₂, s₃) = (.arg3Len, .arg3LenLf, .arg3, .arg3Lf) ∨
  (s, s₁, s₂, s₃) = (.argnLen, .argnLenLf, .argn, .argnLf)

omit hsize in
theorem ArgStates.step {t : MsgType} {s s₁ s₂ s₃ : ReqState} (h : ArgStates t s s₁ s₂ s₃)
    (x : ReqScan) (hx : x.type = t) (c : Byte) :
    (x.state = s → x.step size c = x.len c (fun n => decide (n ≤ 1)) s₁) ∧
    (x.state = s₁ → x.step size c = x.lf c (.goto s₂)) ∧
    (x.state = s₂ → x.step size c = x.skip c s₃) := by
  rcases h with h | ⟨h, heval⟩ | h | h <;> cases h <;>
    refine ⟨fun hs => ?_, fun hs => ?_, fun hs => ?_⟩ <;>
    simp only [ReqScan.step, hs]
  simp only [ReqScan.arg2, hx, heval, Bool.false_eq_true, if_false]

/-- The length of an argument that is not looked at. -/
theorem leads_argLen {s s₁ s₂ s₃ : ReqState} (o : ReqOut) (n : ℕ) (ks : List (List Byte))
    (hs : ArgStates o.type s s₁ s₂ s₃) {len : ℕ} (hlen : len < 2 ^ 32) :
    (reqMachine size).Leads (ReqScan.Fine size) (argAt o s (n + 1) ks)
      (36 :: numeral len ++ [CR, LF])
      { argAt o s (n + 1) ks with tok := [], rlen := len, rnarg := n, state := s₂ } := by
  have hne : s ≠ .arg2 := by rcases hs with h | ⟨h, -⟩ | h | h <;> cases h <;> decide
  have hne₁ : s₁ ≠ .arg2 := by rcases hs with h | ⟨h, -⟩ | h | h <;> cases h <;> decide
  exact leads_len size (ReqScan.Fine size) (argAt o s (n + 1) ks)
    (fun _ n => decide (n ≤ 1)) s₁ s₂
    (fun t m c => (hs.step _ rfl c).1 rfl) (fun x hx ht => (hs.step x ht LF).2.1 hx) hlen rfl
    (Nat.succ_ne_zero n) (by simpa using numeral_ne_nil len)
    (fun t m ht => fine_of_ne hne (by simp only; omega))
    (fine_of_ne hne₁ (by simp only [List.length_nil]; omega))

/-- An argument that is not looked at. -/
theorem leads_bulkBody_arg {s s₁ s₂ s₃ : ReqState} (o : ReqOut) (n : ℕ) (ks : List (List Byte))
    (hs : ArgStates o.type s s₁ s₂ s₃) {v : List Byte} (hv : v.length < 2 ^ 32) :
    (reqMachine size).Leads (ReqScan.Fine size) (argAt o s (n + 1) ks) (bulkBody v)
      (argAt o s₃ n ks) := by
  have hlen := leads_argLen hsize o n ks hs hv
  have hdata := leads_skip_bytes size (ReqScan.Fine size)
    (a := { argAt o s (n + 1) ks with tok := [], rlen := v.length, rnarg := n, state := s₂ })
    v (fun m c => (hs.step _ rfl c).2.2 rfl)
    (fun m => ⟨by simp only [List.length_nil]; omega, fun _ => rfl⟩) (Nat.le_refl _)
  simp only [Nat.sub_self] at hdata
  have hcr : (reqMachine size).step
      { argAt o s (n + 1) ks with tok := [], rlen := 0, rnarg := n, state := s₂ } CR =
      .more (argAt o s₃ n ks) := by
    change ReqScan.step size _ CR = _
    rw [(hs.step _ rfl CR).2.2 rfl, ReqScan.skip, if_neg (by simp), if_neg (by simp)]
    rfl
  exact (hlen.trans hdata).trans
    (.single ⟨by simp only [List.length_nil]; omega, fun _ => rfl⟩ hcr)

/-! ### The arguments of a request, class by class -/

/-- The line feed behind an argument, when more arguments follow. -/
theorem leads_lf {o : ReqOut} {st s : ReqState} {n : ℕ} {ks : List (List Byte)} (turn : Turn)
    (hstep : (argAt o st n ks).step size LF = (argAt o st n ks).lf LF turn)
    (hturn : turn = .goto s) :
    (reqMachine size).Leads (ReqScan.Fine size) (argAt o st n ks) [LF] (argAt o s n ks) := by
  refine .single (fine_argAt (by omega) _ _ _ _) ?_
  change ReqScan.step size _ LF = _
  rw [hstep, hturn]
  rfl

theorem accepts_lf {o : ReqOut} {st s : ReqState} {n : ℕ} {ks : List (List Byte)}
    {ys : List Byte} (turn : Turn)
    (hstep : (argAt o st n ks).step size LF = (argAt o st n ks).lf LF turn)
    (hturn : turn = .goto s)
    (h : (reqMachine size).Accepts (ReqScan.Fine size) (argAt o s n ks) ys o) :
    (reqMachine size).Accepts (ReqScan.Fine size) (argAt o st n ks) (LF :: ys) o :=
  .of_leads (leads_lf hsize turn hstep hturn) h

/-- The line feed behind the last argument. -/
theorem accepts_lf_done {o : ReqOut} {st : ReqState} {n : ℕ} {ks : List (List Byte)} (turn : Turn)
    (hstep : (argAt o st n ks).step size LF = (argAt o st n ks).lf LF turn)
    (hturn : turn = .done) (hks : ks = o.keys) :
    (reqMachine size).Accepts (ReqScan.Fine size) (argAt o st n ks) [LF] o := by
  refine .last (fine_argAt (by omega) _ _ _ _) ?_
  change ReqScan.step size _ LF = _
  rw [hstep, hturn, hks]
  rfl

/-- A key and what follows it. -/
theorem accepts_key {o : ReqOut} {n : ℕ} {ks : List (List Byte)} {k : List Byte} {ys : List Byte}
    (hk : k.length < size) (hk32 : k.length < 2 ^ 32)
    (h : (reqMachine size).Accepts (ReqScan.Fine size) (argAt o .keyLf n (ks ++ [k]))
      (LF :: ys) o) :
    (reqMachine size).Accepts (ReqScan.Fine size) (argAt o .keyLen (n + 1) ks)
      (bulk k ++ ys) o := by
  rw [bulk, List.append_assoc]
  exact .of_leads (leads_bulkBody_key hsize o n ks hk hk32) h

/-- An argument that is not looked at and what follows it. -/
theorem accepts_arg {s s₁ s₂ s₃ : ReqState} {o : ReqOut} {n : ℕ} {ks : List (List Byte)}
    {v : List Byte} {ys : List Byte} (hs : ArgStates o.type s s₁ s₂ s₃) (hv : v.length < 2 ^ 32)
    (h : (reqMachine size).Accepts (ReqScan.Fine size) (argAt o s₃ n ks) (LF :: ys) o) :
    (reqMachine size).Accepts (ReqScan.Fine size) (argAt o s (n + 1) ks) (bulk v ++ ys) o := by
  rw [bulk, List.append_assoc]
  exact .of_leads (leads_bulkBody_arg hsize o n ks hs hv) h

/-- Any further arguments. -/
theorem accepts_argn {o : ReqOut} {vs : List (List Byte)}
    (hclass : argClass o.type = some .argn ∨ argClass o.type = some .argeval)
    (hvs : ∀ v ∈ vs, v.length < 2 ^ 32) :
    (reqMachine size).Accepts (ReqScan.Fine size) (argAt o .argnLf vs.length o.keys)
      (LF :: vs.flatMap bulk) o := by
  have hn : (redisArgn o.type || redisArgeval o.type) = true := by
    rcases hclass with h | h <;> simp [redisArgn_eq, redisArgeval_eq, h]
  induction vs with
  | nil =>
      refine accepts_lf_done hsize (afterArgn o.type 0) rfl ?_ rfl
      simp [afterArgn, hn]
  | cons v vs ih =>
      rw [List.flatMap_cons, List.length_cons]
      refine accepts_lf hsize (afterArgn o.type (vs.length + 1)) (s := .argnLen) rfl ?_ ?_
      · simp [afterArgn, hn]
      · exact accepts_arg hsize (.inr (.inr (.inr rfl))) (hvs v (by simp))
          (ih fun x hx => hvs x (by simp [hx]))

/-- One or more keys. -/
theorem accepts_argx {o : ReqOut} {ks ks' : List (List Byte)}
    (hclass : argClass o.type = some .argx) (hkeys : o.keys = ks ++ ks')
    (hks : ∀ k ∈ ks', k.length < size ∧ k.length < 2 ^ 32) :
    (reqMachine size).Accepts (ReqScan.Fine size) (argAt o .keyLf ks'.length ks)
      (LF :: ks'.flatMap bulk) o := by
  have hturn : ∀ n, afterKey o.type o.narg n = if n = 0 then .done else .goto .keyLen := by
    intro n
    simp [afterKey, redisArg0_eq, redisArg1_eq, redisArg2_eq, redisArg3_eq, redisArgn_eq,
      redisArgx_eq, hclass]
  induction ks' generalizing ks with
  | nil =>
      refine accepts_lf_done hsize (afterKey o.type o.narg 0) rfl ?_ (by simpa using hkeys.symm)
      rw [hturn, if_pos rfl]
  | cons k ks' ih =>
      obtain ⟨hk, hk32⟩ := hks k (by simp)
      rw [List.flatMap_cons, List.length_cons]
      refine accepts_lf hsize (afterKey o.type o.narg (ks'.length + 1)) (s := .keyLen) rfl ?_ ?_
      · rw [hturn, if_neg (Nat.succ_ne_zero _)]
      · exact accepts_key hsize hk hk32
          (ih (by simpa using hkeys) fun x hx => hks x (by simp [hx]))

omit hsize in
theorem afterKey_argkvx {t : MsgType} (hclass : argClass t = some .argkvx) {narg : ℕ}
    (hodd : narg % 2 = 1) (n : ℕ) : afterKey t narg n = .goto .arg1Len := by
  simp [afterKey, redisArg0_eq, redisArg1_eq, redisArg2_eq, redisArg3_eq, redisArgn_eq,
    redisArgx_eq, redisArgkvx_eq, hclass, hodd]

omit hsize in
theorem afterArg1_argkvx {t : MsgType} (hclass : argClass t = some .argkvx) (n : ℕ) :
    afterArg1 t n = if n = 0 then .done else .goto .keyLen := by
  simp [afterArg1, redisArg1_eq, redisArg2_eq, redisArg3_eq, redisArgn_eq, redisArgeval_eq,
    redisArgkvx_eq, hclass]

/-- The key of a pair. -/
theorem leads_pair_key {o : ReqOut} (hclass : argClass o.type = some .argkvx)
    (hodd : o.narg % 2 = 1) (n : ℕ) (ks : List (List Byte)) {k : List Byte} (hk : k.length < size)
    (hk32 : k.length < 2 ^ 32) :
    (reqMachine size).Leads (ReqScan.Fine size) (argAt o .keyLen (n + 1) ks) (bulk k)
      (argAt o .arg1Len n (ks ++ [k])) :=
  (leads_bulkBody_key hsize o n ks hk hk32).trans
    (leads_lf hsize (afterKey o.type o.narg n) rfl (afterKey_argkvx hclass hodd n))

/-- The value of a pair that is not the last one. -/
theorem leads_pair_value {o : ReqOut} (hclass : argClass o.type = some .argkvx) {n : ℕ}
    (hn : n ≠ 0) (ks : List (List Byte)) {v : List Byte} (hv : v.length < 2 ^ 32) :
    (reqMachine size).Leads (ReqScan.Fine size) (argAt o .arg1Len (n + 1) ks) (bulk v)
      (argAt o .keyLen n ks) :=
  (leads_bulkBody_arg hsize o n ks (.inl rfl) hv).trans
    (leads_lf hsize (afterArg1 o.type n) rfl (by rw [afterArg1_argkvx hclass, if_neg hn]))

/-- One or more keys, each with a value. -/
theorem accepts_argkvx {o : ReqOut} {ks : List (List Byte)} {kvs : List (List Byte × List Byte)}
    (hclass : argClass o.type = some .argkvx) (hodd : o.narg % 2 = 1)
    (hkeys : o.keys = ks ++ kvs.map Prod.fst)
    (hks : ∀ kv ∈ kvs, kv.1.length < size ∧ kv.1.length < 2 ^ 32 ∧ kv.2.length < 2 ^ 32) :
    (reqMachine size).Accepts (ReqScan.Fine size) (argAt o .arg1Lf (2 * kvs.length) ks)
      (LF :: kvs.flatMap fun kv => bulk kv.1 ++ bulk kv.2) o := by
  have hkey := afterKey_argkvx hclass hodd
  have hval := afterArg1_argkvx hclass
  induction kvs generalizing ks with
  | nil =>
      refine accepts_lf_done hsize (afterArg1 o.type 0) rfl ?_ (by simpa using hkeys.symm)
      rw [hval, if_pos rfl]
  | cons kv kvs ih =>
      obtain ⟨hk, hk32, hv32⟩ := hks kv (by simp)
      rw [List.flatMap_cons, List.append_assoc, List.length_cons,
        show 2 * (kvs.length + 1) = 2 * kvs.length + 1 + 1 by ring]
      refine accepts_lf hsize (afterArg1 o.type (2 * kvs.length + 1 + 1)) (s := .keyLen) rfl
        ?_ (accepts_key hsize hk hk32 ?_)
      · rw [hval, if_neg (Nat.succ_ne_zero _)]
      · refine accepts_lf hsize (afterKey o.type o.narg (2 * kvs.length + 1)) (s := .arg1Len)
          rfl (hkey _) (accepts_arg hsize (.inl rfl) hv32 ?_)
        exact ih (by simpa using hkeys) fun x hx => hks x (by simp [hx])

omit hsize in
theorem afterReqType_keyed {t : MsgType} (hz : argClass t ≠ some .argz)
    (he : argClass t ≠ some .argeval) {narg : ℕ} (hn : narg ≠ 1) :
    afterReqType t narg = .goto .keyLen := by
  simp [afterReqType, redisArgz_eq, redisArgeval_eq, hz, he, hn]

/-- The line feed behind the name of a command that takes keys, and the first key. -/
theorem accepts_first_key {o : ReqOut} {n : ℕ} {k : List Byte} {ys : List Byte}
    (hz : argClass o.type ≠ some .argz) (he : argClass o.type ≠ some .argeval) (hn : o.narg ≠ 1)
    (hk : k.length < size) (hk32 : k.length < 2 ^ 32)
    (h : (reqMachine size).Accepts (ReqScan.Fine size) (argAt o .keyLf n [k]) (LF :: ys) o) :
    (reqMachine size).Accepts (ReqScan.Fine size) (argAt o .reqTypeLf (n + 1) [])
      (LF :: (bulk k ++ ys)) o := by
  exact accepts_lf hsize (afterReqType o.type o.narg) rfl (afterReqType_keyed hz he hn)
    (accepts_key hsize hk hk32 h)

/-- A key and the further arguments of a class that admits any number. -/
theorem accepts_key_argn {o : ReqOut} {vs : List (List Byte)}
    (hclass : argClass o.type = some .argn)
    (hvs : ∀ v ∈ vs, v.length < 2 ^ 32) :
    (reqMachine size).Accepts (ReqScan.Fine size) (argAt o .keyLf vs.length o.keys)
      (LF :: vs.flatMap bulk) o := by
  have hkey : ∀ n, afterKey o.type o.narg n = if n = 0 then .done else .goto .arg1Len := by
    intro n
    simp [afterKey, redisArg0_eq, redisArg1_eq, redisArg2_eq, redisArg3_eq, redisArgn_eq, hclass]
  have harg : ∀ n, afterArg1 o.type n = afterArgn o.type n := by
    intro n
    simp [afterArg1, afterArgn, redisArg1_eq, redisArg2_eq, redisArg3_eq, redisArgn_eq, hclass]
  cases vs with
  | nil => exact accepts_lf_done hsize (afterKey o.type o.narg 0) rfl (hkey 0) rfl
  | cons v vs =>
      rw [List.flatMap_cons, List.length_cons]
      refine accepts_lf hsize (afterKey o.type o.narg (vs.length + 1)) (s := .arg1Len) rfl (hkey _)
        (accepts_arg hsize (.inl rfl) (hvs v (by simp)) ?_)
      -- behind the first argument the automaton goes on as behind any other
      refine (accepts_argn hsize (.inl hclass) fun x hx =>
        hvs x (List.mem_cons_of_mem v hx)).of_step_eq
        (fine_argAt (by omega) _ _ _ _) ?_
      change ReqScan.lf _ LF (afterArg1 o.type vs.length) =
        ReqScan.lf _ LF (afterArgn o.type vs.length)
      rw [harg]
      cases afterArgn o.type vs.length <;> rfl

/-! ### The header and the command name -/

omit hsize in
/-- The digits of the number of arguments. -/
theorem leads_narg_digits (size : ℕ) (ok : ReqScan → Prop) {a : ReqScan} (ds : List Byte)
    (hst : a.state = .narg) (hds : ∀ d ∈ ds, isDigit d = true) (htok : a.tok ≠ [])
    (hok : ∀ (t : List Byte) (n : ℕ), t.length ≤ a.tok.length + ds.length →
      ok { a with tok := t, rnarg := n }) :
    (reqMachine size).Leads ok a ds
      { a with tok := a.tok ++ ds, rnarg := valueModFrom (2 ^ 32) a.rnarg ds } := by
  induction ds generalizing a with
  | nil => simp
  | cons d ds ih =>
      have hd : isDigit d = true := hds d (by simp)
      have hone : (reqMachine size).step a d =
          .more { a with tok := a.tok ++ [d], rnarg := wrap32 (a.rnarg * 10 + digitVal d) } := by
        change a.step size d = _
        simp only [ReqScan.step, hst, ReqScan.nargStep, if_neg htok, if_pos hd]
      refine .cons (hok a.tok a.rnarg (by omega)) hone ?_
      have := ih (a := { a with tok := a.tok ++ [d], rnarg := wrap32 (a.rnarg * 10 + digitVal d) })
        hst (fun x hx => hds x (by simp [hx])) (by simp) fun t n ht => hok t n (by
          simp only [List.length_append, List.length_nil, List.length_cons] at ht ⊢
          omega)
      simpa [wrap32] using this

/-- The first line. -/
theorem leads_multiHeader {n : ℕ} (hpos : 0 < n) (hn : n < 2 ^ 32) :
    (reqMachine size).Leads (ReqScan.Fine size) {} (multiHeader n)
      { state := .reqTypeLen, rnarg := n, narg := n } := by
  have hlen := numeral_length_le_ten hn
  have hfine : ∀ a : ReqScan, a.state ≠ .arg2 → a.tok.length ≤ 11 → a.Fine size := fun a hst ht =>
    fine_of_ne hst (by omega)
  have hfirst : (reqMachine size).step {} 42 = .more { state := .narg, tok := [42] } := rfl
  have hdigits := leads_narg_digits size (ReqScan.Fine size)
    (a := { state := .narg, tok := [42] }) (numeral n) rfl
    (fun d hd => isDigit_of_mem_numeral hd) (by simp) fun t m ht =>
      hfine { state := .narg, tok := t, rnarg := m } (by simp) (by
        simp only [List.length_singleton] at ht ⊢
        omega)
  have hval : valueModFrom (2 ^ 32) 0 (numeral n) = n := by
    rw [valueMod_eq, value_numeral, Nat.mod_eq_of_lt hn]
  simp only [hval] at hdigits
  have hcr : (reqMachine size).step { state := .narg, tok := [42] ++ numeral n, rnarg := n } CR =
      .more { state := .nargLf, rnarg := n, narg := n } := by
    simp only [reqMachine, ReqScan.step, ReqScan.nargStep]
    rw [if_neg (by simp), if_neg (by decide), if_pos trivial, if_neg (Nat.pos_iff_ne_zero.1 hpos)]
  have hlf : (reqMachine size).step { state := .nargLf, rnarg := n, narg := n } LF =
      .more { state := .reqTypeLen, rnarg := n, narg := n } := rfl
  refine (ByteMachine.Leads.cons (hfine _ (by simp) (by simp)) hfirst hdigits).trans
    (.cons (hfine _ (by simp) ?_) hcr (.single (hfine _ (by simp) (by simp)) hlf))
  simp only [List.length_append, List.length_singleton]
  omega

/-- The name of a supported command, in any letter case. -/
def Supported (name : List Byte) (t : MsgType) : Prop :=
  ∃ s, (s, t) ∈ redisCommands name.length ∧ s.length = name.length ∧ name.map lower = str s

omit hsize in
theorem Supported.type_eq {name : List Byte} {t : MsgType} (h : Supported name t) :
    redisCommandType (name ++ [CR]) name.length = t := by
  obtain ⟨s, hmem, hlen, hlow⟩ := h
  exact redisCommandType_of_mem hmem hlen hlow

omit hsize in
theorem Supported.length_lt {name : List Byte} {t : MsgType} (h : Supported name t) :
    0 < name.length ∧ name.length < 17 := by
  obtain ⟨s, hmem, -, -⟩ := h
  refine ⟨Nat.pos_of_ne_zero fun hz => ?_, redisCommands_lt hmem⟩
  rw [hz] at hmem
  simp [redisCommands] at hmem

omit hsize in
theorem Supported.lf_not_mem {name : List Byte} {t : MsgType} (h : Supported name t) :
    LF ∉ name := by
  obtain ⟨s, hmem, -, hlow⟩ := h
  intro hlf
  have hstr : lower LF ∈ str s := hlow ▸ List.mem_map_of_mem hlf
  exact absurd (redisCommands_lower _ (redisCommands_lt hmem) _ hmem _ hstr) (by decide)

/-- The command name. -/
theorem leads_bulkBody_name {name : List Byte} {o : ReqOut} {n : ℕ} (hname : Supported name o.type)
    (hunknown : o.type ≠ .unknown) (hnf : o.noforward = redisNoforward o.type)
    (hquit : o.quit = redisQuit o.type) :
    (reqMachine size).Leads (ReqScan.Fine size)
      { state := .reqTypeLen, rnarg := n + 1, narg := o.narg } (bulkBody name)
      (argAt o .reqTypeLf n []) := by
  obtain ⟨hpos, hlt⟩ := hname.length_lt
  have hlen := leads_len size (ReqScan.Fine size)
    { state := .reqTypeLen, rnarg := n + 1, narg := o.narg }
    (fun x _ => x.rlen == 0) .reqTypeLenLf .reqType (n := name.length)
    (fun _ _ _ => rfl) (fun x hx _ => by simp only [ReqScan.step, hx]) (by omega) rfl
    (Nat.succ_ne_zero n) (by simpa using Nat.pos_iff_ne_zero.1 hpos)
    (fun t m ht => fine_of_ne (by simp) (by simp only; omega))
    (fine_of_ne (by simp) (by simp only [List.length_nil]; omega))
  have hdata := leads_token_bytes size (ReqScan.Fine size)
    (a := { state := .reqType, rnarg := n, narg := o.narg, rlen := name.length })
    name (fun _ _ => rfl)
    (fun t ht => fine_of_ne (by simp) (by simp only at ht ⊢; omega)) (by simp)
  have hcr : (reqMachine size).step
      { state := .reqType, tok := [] ++ name, rnarg := n, narg := o.narg, rlen := name.length } CR =
      .more (argAt o .reqTypeLf n []) := by
    change ReqScan.token _ CR ReqScan.gotReqType = _
    rw [ReqScan.token, if_neg (by simp), if_neg (by simp)]
    simp only [ReqScan.gotReqType, List.nil_append, hname.type_eq, if_neg hunknown, Bool.false_or,
      ← hnf, ← hquit]
    rfl
  have hend : ReqScan.Fine size
      { state := .reqType, tok := [] ++ name, rnarg := n, narg := o.narg, rlen := name.length } :=
    fine_of_ne (by simp) (by simp only [List.nil_append]; omega)
  exact (hlen.trans hdata).trans (.single hend hcr)

end Machine

/-! ### Requests -/

/-- The numbers of arguments behind the name that a class admits. -/
def ArgClass.Admits : ArgClass → ℕ → Prop
  | .argz, n => n = 0
  | .arg0, n => n = 1
  | .arg1, n => n = 2
  | .arg2, n => n = 3
  | .arg3, n => n = 4
  | .argn, n => 1 ≤ n
  | .argx, n => 1 ≤ n
  | .argkvx, n => 2 ≤ n ∧ n % 2 = 0
  | .argeval, n => 3 ≤ n

instance (c : ArgClass) (n : ℕ) : Decidable (c.Admits n) := by
  cases c <;> unfold ArgClass.Admits <;> infer_instance

/-- The arguments at even positions. -/
def everyOther {α : Type} : List α → List α
  | [] => []
  | [x] => [x]
  | x :: _ :: xs => x :: everyOther xs

/-- **The arguments that are keys.** -/
def ArgClass.keys {α : Type} : ArgClass → List α → List α
  | .argz, _ => []
  | .arg0, vs | .arg1, vs | .arg2, vs | .arg3, vs | .argn, vs => vs.take 1
  | .argx, vs => vs
  | .argkvx, vs => everyOther vs
  | .argeval, vs => (vs.drop 2).take 1

theorem mem_of_mem_everyOther {α : Type} {x : α} : ∀ {xs : List α}, x ∈ everyOther xs → x ∈ xs
  | [], h => h
  | [_], h => h
  | y :: z :: xs, h => by
      simp only [everyOther, List.mem_cons] at h ⊢
      rcases h with h | h
      · exact .inl h
      · exact .inr (.inr (mem_of_mem_everyOther h))

theorem ArgClass.mem_of_mem_keys {α : Type} {c : ArgClass} {x : α} {xs : List α}
    (h : x ∈ c.keys xs) : x ∈ xs := by
  cases c with
  | argz => exact absurd h (List.not_mem_nil)
  | arg0 | arg1 | arg2 | arg3 | argn => exact List.mem_of_mem_take h
  | argx => exact h
  | argkvx => exact mem_of_mem_everyOther h
  | argeval => exact List.mem_of_mem_drop (List.mem_of_mem_take h)

/-- An even number of arguments is a list of pairs. -/
theorem exists_pairs {α : Type} : ∀ xs : List α, xs.length % 2 = 0 →
    ∃ kvs : List (α × α), xs = kvs.flatMap (fun kv => [kv.1, kv.2]) ∧
      everyOther xs = kvs.map Prod.fst ∧ xs.length = 2 * kvs.length
  | [], _ => ⟨[], rfl, rfl, rfl⟩
  | [_], h => absurd h (by simp)
  | x :: y :: xs, h => by
      obtain ⟨kvs, hxs, hev, hlen⟩ := exists_pairs xs (by simp only [List.length_cons] at h; omega)
      refine ⟨(x, y) :: kvs, by simp [← hxs], by simp [everyOther, hev], ?_⟩
      simp only [List.length_cons, hlen]
      ring

/-- **A request**: an argument vector with a supported command name and a number of arguments that
the command's class admits, keys shorter than an mbuf, all counts and lengths below `2 ^ 32`. -/
structure Request (size : ℕ) where
  name : List Byte
  args : List (List Byte)
  type : MsgType
  cls : ArgClass
  supported : Supported name type
  class_eq : argClass type = some cls
  admits : cls.Admits args.length
  count_lt : args.length + 1 < 2 ^ 32
  length_lt : ∀ v ∈ args, v.length < 2 ^ 32
  key_lt : ∀ k ∈ cls.keys args, k.length < size

namespace Request

variable {size : ℕ} (q : Request size)

/-- The bytes of the request. -/
def encode : List Byte := respEncode (q.name :: q.args)

/-- What the parser has to find. -/
def out : ReqOut :=
  { type := q.type, narg := q.args.length + 1, keys := q.cls.keys q.args
    noforward := redisNoforward q.type, quit := redisQuit q.type }

theorem type_ne_unknown : q.type ≠ .unknown := by
  intro h
  have := q.class_eq
  rw [h, show argClass .unknown = none by decide] at this
  cases this

/-- The header and the command name, the line feed behind it apart. -/
theorem leads_name (hsize : 464 ≤ size) :
    (reqMachine size).Leads (ReqScan.Fine size) {}
      (multiHeader (q.args.length + 1) ++ bulkBody q.name)
      (argAt q.out .reqTypeLf q.args.length []) :=
  (leads_multiHeader hsize (Nat.succ_pos _) q.count_lt).trans
    (leads_bulkBody_name hsize (o := q.out) q.supported q.type_ne_unknown rfl rfl)

/-- The bytes before the arguments. -/
def head : List Byte := multiHeader (q.args.length + 1) ++ bulk q.name

theorem encode_eq_head : q.encode = q.head ++ q.args.flatMap bulk := by
  simp [encode, respEncode, head]

/-- The header and the command name of a command that takes keys. -/
theorem leads_head (hsize : 464 ≤ size) (hz : q.cls ≠ .argz) (he : q.cls ≠ .argeval)
    (hargs : q.args ≠ []) :
    (reqMachine size).Leads (ReqScan.Fine size) {} q.head
      (argAt q.out .keyLen q.args.length []) := by
  have hclass : argClass q.out.type = some q.cls := q.class_eq
  have hnarg : q.out.narg ≠ 1 := by
    change q.args.length + 1 ≠ 1
    simpa using hargs
  rw [head, bulk, ← List.append_assoc]
  exact (q.leads_name hsize).trans (CacheProxy.leads_lf hsize (afterReqType q.out.type q.out.narg)
    rfl (afterReqType_keyed (by simp [hclass, hz]) (by simp [hclass, he]) hnarg))

theorem encode_eq : q.encode =
    multiHeader (q.args.length + 1) ++ bulkBody q.name ++ LF :: q.args.flatMap bulk := by
  simp [encode, respEncode, bulk]

theorem key_length {k : List Byte} (h : k ∈ q.cls.keys q.args) :
    k.length < size ∧ k.length < 2 ^ 32 :=
  ⟨q.key_lt k h, q.length_lt k (ArgClass.mem_of_mem_keys h)⟩

/-- A class with a fixed number of arguments. -/
theorem accepts_fixed (hsize : 464 ≤ size) (k : List Byte) (vs : List (List Byte))
    (hargs : q.args = k :: vs)
    (hcls : q.cls = .arg0 ∨ q.cls = .arg1 ∨ q.cls = .arg2 ∨ q.cls = .arg3) :
    (reqMachine size).Accepts (ReqScan.Fine size) (argAt q.out .keyLf vs.length [k])
      (LF :: vs.flatMap bulk) q.out := by
  have hclass := q.class_eq
  have hadm := q.admits
  have hlen := q.length_lt
  have hkeys : [k] = q.out.keys := by
    rcases hcls with h | h | h | h <;> simp [out, ArgClass.keys, h, hargs]
  rw [hargs] at hadm hlen
  have hty : q.out.type = q.type := rfl
  rcases hcls with h | h | h | h <;> rw [h] at hclass hadm <;>
    simp only [ArgClass.Admits, List.length_cons, Nat.add_eq_right, Nat.reduceEqDiff,
      List.length_eq_zero_iff, List.length_eq_one_iff, List.length_eq_two,
        List.length_eq_three] at hadm
  case inl =>
    subst hadm
    refine accepts_lf_done hsize (afterKey q.type q.out.narg 0) rfl ?_ hkeys
    simp [afterKey, redisArg0_eq, hclass]
  case inr.inl =>
    obtain ⟨v, rfl⟩ := hadm
    refine accepts_lf hsize (afterKey q.type q.out.narg 1) (s := .arg1Len) rfl ?_
      (accepts_arg hsize (.inl rfl) (hlen v (by simp))
        (accepts_lf_done hsize (afterArg1 q.type 0) rfl ?_ hkeys))
    · simp [afterKey, redisArg0_eq, redisArg1_eq, hclass]
    · simp [afterArg1, redisArg1_eq, hclass]
  case inr.inr.inl =>
    obtain ⟨v, w, rfl⟩ := hadm
    have heval : redisArgeval q.out.type = false := by simp [redisArgeval_eq, hty, hclass]
    refine accepts_lf hsize (afterKey q.type q.out.narg 2) (s := .arg1Len) rfl ?_
      (accepts_arg hsize (.inl rfl) (hlen v (by simp))
        (accepts_lf hsize (afterArg1 q.type 1) (s := .arg2Len) rfl ?_
          (accepts_arg hsize (.inr (.inl ⟨rfl, heval⟩)) (hlen w (by simp))
            (accepts_lf_done hsize (afterArg2 q.type 0) rfl ?_ hkeys))))
    · simp [afterKey, redisArg0_eq, redisArg1_eq, redisArg2_eq, hclass]
    · simp [afterArg1, redisArg1_eq, redisArg2_eq, hclass]
    · simp [afterArg2, redisArg2_eq, hclass]
  case inr.inr.inr =>
    obtain ⟨v, w, x, rfl⟩ := hadm
    have heval : redisArgeval q.out.type = false := by simp [redisArgeval_eq, hty, hclass]
    refine accepts_lf hsize (afterKey q.type q.out.narg 3) (s := .arg1Len) rfl ?_
      (accepts_arg hsize (.inl rfl) (hlen v (by simp))
        (accepts_lf hsize (afterArg1 q.type 2) (s := .arg2Len) rfl ?_
          (accepts_arg hsize (.inr (.inl ⟨rfl, heval⟩)) (hlen w (by simp))
            (accepts_lf hsize (afterArg2 q.type 1) (s := .arg3Len) rfl ?_
              (accepts_arg hsize (.inr (.inr (.inl rfl))) (hlen x (by simp))
                (accepts_lf_done hsize (afterArg3 q.type 0) rfl ?_ hkeys))))))
    · simp [afterKey, redisArg0_eq, redisArg1_eq, redisArg2_eq, redisArg3_eq, hclass]
    · simp [afterArg1, redisArg1_eq, redisArg2_eq, redisArg3_eq, hclass]
    · simp [afterArg2, redisArg2_eq, redisArg3_eq, hclass]
    · simp [afterArg3, redisArg3_eq, hclass]

/-- A request that takes pairs. -/
theorem exists_kvs (hcls : q.cls = .argkvx) :
    ∃ kvs : List (List Byte × List Byte), q.args = kvs.flatMap (fun kv => [kv.1, kv.2]) ∧
      q.cls.keys q.args = kvs.map Prod.fst ∧ q.args.length = 2 * kvs.length ∧ kvs ≠ [] ∧
      q.out.narg % 2 = 1 ∧
      ∀ kv ∈ kvs, kv.1.length < size ∧ kv.1.length < 2 ^ 32 ∧ kv.2.length < 2 ^ 32 := by
  have hadm := q.admits
  rw [hcls] at hadm
  have htwo : 2 ≤ q.args.length := hadm.1
  obtain ⟨kvs, hargs, hkeys, hlen⟩ := exists_pairs q.args hadm.2
  have hkeys' : q.cls.keys q.args = kvs.map Prod.fst := by rw [hcls]; exact hkeys
  refine ⟨kvs, hargs, hkeys', hlen, ?_, ?_, ?_⟩
  · rintro rfl
    rw [hlen] at htwo
    exact absurd htwo (by decide)
  · change (q.args.length + 1) % 2 = 1
    omega
  · intro kv hkv
    have hk := q.key_length (hkeys' ▸ List.mem_map_of_mem hkv)
    refine ⟨hk.1, hk.2, q.length_lt kv.2 ?_⟩
    rw [hargs]
    exact List.mem_flatMap.2 ⟨kv, hkv, by simp⟩

/-- The keys and values of a request that takes pairs. -/
theorem accepts_pairs (hsize : 464 ≤ size) (hcls : q.cls = .argkvx) :
    (reqMachine size).Accepts (ReqScan.Fine size) (argAt q.out .reqTypeLf q.args.length [])
      (LF :: q.args.flatMap bulk) q.out := by
  have hclass : argClass q.out.type = some .argkvx := hcls ▸ q.class_eq
  obtain ⟨kvs, hargs, hkeys', hlen, hne, hodd, hks⟩ := q.exists_kvs hcls
  have hpos : 0 < kvs.length := List.length_pos_iff.2 hne
  have hrest := accepts_argkvx hsize hclass hodd
    (show q.out.keys = [] ++ kvs.map Prod.fst from hkeys') hks
  have hbytes : q.args.flatMap bulk = kvs.flatMap fun kv => bulk kv.1 ++ bulk kv.2 := by
    rw [hargs, List.flatMap_assoc]
    simp
  rw [hlen, hbytes]
  -- the line feed behind the name leads to the same state as the one behind a value
  refine hrest.of_step_eq (fine_argAt (by omega) _ _ _ _) ?_
  change ReqScan.lf _ LF (afterReqType q.out.type q.out.narg) =
    ReqScan.lf _ LF (afterArg1 q.out.type (2 * kvs.length))
  have hnarg : q.out.narg ≠ 1 := by
    change q.args.length + 1 ≠ 1
    omega
  rw [afterReqType_keyed (by simp [hclass]) (by simp [hclass]) hnarg, afterArg1_argkvx hclass,
    if_neg (by omega)]
  rfl

/-- **The arguments of a request, class by class.** -/
theorem accepts_args (hsize : 464 ≤ size) (heval : q.cls ≠ .argeval) :
    (reqMachine size).Accepts (ReqScan.Fine size) (argAt q.out .reqTypeLf q.args.length [])
      (LF :: q.args.flatMap bulk) q.out := by
  have hclass : argClass q.out.type = some q.cls := q.class_eq
  have hadm := q.admits
  by_cases hz : q.cls = .argz
  · rw [hz] at hclass hadm
    rw [hadm, List.length_eq_zero_iff.1 hadm]
    refine accepts_lf_done hsize (afterReqType q.out.type q.out.narg) rfl ?_ ?_
    · simp [afterReqType, redisArgz_eq, hclass]
    · simp [out, hz, ArgClass.keys]
  by_cases hkv : q.cls = .argkvx
  · exact q.accepts_pairs hsize hkv
  -- every other class has a first key
  obtain ⟨k, vs, hargs⟩ : ∃ k vs, q.args = k :: vs := by
    refine List.exists_cons_of_ne_nil fun hnil => ?_
    rw [hnil] at hadm
    cases hc : q.cls <;> simp_all [ArgClass.Admits]
  have hfirst : k ∈ q.cls.keys q.args := by
    cases hc : q.cls <;> simp_all [ArgClass.keys]
  have hvs : ∀ v ∈ vs, v.length < 2 ^ 32 := fun v hv => q.length_lt v (by simp [hargs, hv])
  have hnarg : q.out.narg ≠ 1 := by
    change q.args.length + 1 ≠ 1
    simp [hargs]
  have hrest : (reqMachine size).Accepts (ReqScan.Fine size) (argAt q.out .keyLf vs.length [k])
      (LF :: vs.flatMap bulk) q.out := by
    cases hc : q.cls with
    | argz => exact absurd hc hz
    | argkvx => exact absurd hc hkv
    | argeval => exact absurd hc heval
    | arg0 | arg1 | arg2 | arg3 => exact q.accepts_fixed hsize k vs hargs (by simp [hc])
    | argn =>
        have hkeys : [k] = q.out.keys := by simp [out, hc, hargs, ArgClass.keys]
        rw [hkeys]
        exact accepts_key_argn hsize (by rw [hclass, hc]) hvs
    | argx =>
        have hkeys : q.out.keys = [k] ++ vs := by simp [out, hc, hargs, ArgClass.keys]
        refine accepts_argx hsize (by rw [hclass, hc]) hkeys fun v hv => q.key_length ?_
        simp [hc, hargs, ArgClass.keys, hv]
  rw [hargs, List.flatMap_cons, List.length_cons]
  obtain ⟨hk, hk32⟩ := q.key_length hfirst
  exact accepts_first_key hsize (by simp [hclass, hz]) (by simp [hclass, heval]) hnarg hk hk32 hrest

/-- **The machine accepts the encoding of a request.** -/
theorem accepts (hsize : 464 ≤ size) (heval : q.cls ≠ .argeval) :
    (reqMachine size).Accepts (ReqScan.Fine size) {} q.encode q.out := by
  rw [encode_eq]
  exact .of_leads (q.leads_name hsize) (q.accepts_args hsize heval)

end Request

end CacheProxy
