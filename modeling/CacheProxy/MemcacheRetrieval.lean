/-
**Retrieval requests of memcache.**

`get` and `gets` take any number of keys, with blanks between and behind them.  A line can be much
longer than an mbuf: then keys are moved on, and read again in the state they were in.  The name of
the command is at the start of the first mbuf and never moved.

Main definitions:

* `Retrieval`, `Retrieval.encode` — a request, and its bytes;
* `Retrieval.view` — what its message has to show.

Main results:

* `Retrieval.accepts` — a request is accepted behind buffers;
* `retrievals_framed_iff` — **requests are framed however they are cut**, unless a length wraps;
* `not_framedAs_longRetrieval` — a line of more than `2 ^ 32` bytes can be lost.
-/

import CacheProxy.MemcacheFraming

namespace CacheProxy

/-- **A retrieval request**: the keys with the numbers of further blanks before them, and the number
of blanks at the end of the line. -/
structure Retrieval where
  gets : Bool
  keys : List (ℕ × List Byte)
  trailing : ℕ
  keys_ne : keys ≠ []
  length_pos : ∀ e ∈ keys, 0 < e.2.length
  length_le : ∀ e ∈ keys, e.2.length ≤ memcacheMaxKeyLength
  plain : ∀ e ∈ keys, ∀ x ∈ e.2, x ≠ SP ∧ x ≠ CR ∧ x ≠ LF

namespace Retrieval

/-- The name of the command. -/
def name (gets : Bool) : List Byte := if gets then str "gets" else str "get"

/-- The type of the command. -/
def type (gets : Bool) : MsgType := if gets then .reqMcGets else .reqMcGet

/-- The keys, each with the blanks before it. -/
def words (keys : List (ℕ × List Byte)) : List Byte :=
  keys.flatMap fun e => SP :: (List.replicate e.1 SP ++ e.2)

/-- The end of the line. -/
def eol (trailing : ℕ) : List Byte := List.replicate trailing SP ++ [CR] ++ [LF]

/-- **The bytes of a request.** -/
def encode (q : Retrieval) : List Byte := name q.gets ++ (words q.keys ++ eol q.trailing)

/-- What the message has to show: the type, and the keys in order. -/
def view (q : Retrieval) : McReqView :=
  { bytes := q.encode, type := type q.gets, narg := wrap32 (1 + q.keys.length), noreply := false
    quit := false, keys := q.keys.map fun e => some e.2 }

end Retrieval

theorem wrap32_add_wrap32 (a b : ℕ) : wrap32 (wrap32 a + b) = wrap32 (a + b) := by
  simp [wrap32]

namespace Retrieval

variable {gets : Bool} {n : ℕ} {ks : List (List Byte)}

/-- The machine in the state `s`, behind `n` arguments and the keys `ks`, with the token `tok`. -/
def scan (gets : Bool) (s : McReqState) (n : ℕ) (tok : List Byte) (ks : List (List Byte)) :
    TokScan McReqCore :=
  { core := { state := s, type := type gets, narg := wrap32 n }, tok := tok, keys := ks }

/-- Keys can be moved, and are shorter than an mbuf. -/
def Ready (a : TokScan McReqCore) : Prop :=
  a.core.state ∈ [McReqState.spacesBeforeKey, .key, .spacesBeforeKeys, .almostDone] ∧
    a.tok.length ≤ memcacheMaxKeyLength

/-- The blanks before a key. -/
def Blank (s : McReqState) : Prop := s = .spacesBeforeKey ∨ s = .spacesBeforeKeys

theorem run_name (gets : Bool) :
    memcacheReq.machine.run memcacheReq.machine.init (name gets ++ [SP]) =
      .more (scan gets .spacesBeforeKey 1 [] []) := by
  cases gets <;> decide +kernel

theorem ready_blank {s : McReqState} (hs : Blank s) : Ready (scan gets s n [] ks) := by
  rcases hs with rfl | rfl <;> exact ⟨by simp [scan], Nat.zero_le _⟩

/-- A blank before a key. -/
theorem step_blank {s : McReqState} (hs : Blank s) :
    memcacheReq.machine.step (scan gets s n [] ks) SP = .more (scan gets s n [] ks) := by
  rcases hs with rfl | rfl <;> rfl

theorem leads_blanks {s : McReqState} (hs : Blank s) (m : ℕ) :
    memcacheReq.machine.Leads Ready (scan gets s n [] ks) (List.replicate m SP)
      (scan gets s n [] ks) := by
  induction m with
  | zero => rfl
  | succ m ih => exact .cons (ready_blank hs) (step_blank hs) ih

/-- The first byte of a key. -/
theorem step_first {s : McReqState} (hs : Blank s) {x : Byte} (hx : x ≠ SP ∧ x ≠ CR) :
    memcacheReq.machine.step (scan gets s n [] ks) x = .more (scan gets .key n [x] ks) := by
  have hact : memcacheReq.act (scan gets s n [] ks).core (scan gets s n [] ks).opened x =
      .next (scan gets .key n [x] ks).core .set false false := by
    change memcacheReqAct _ _ x = _
    rcases hs with rfl | rfl <;>
      simp [memcacheReqAct, scan, McReqCore.spacesBeforeKeysCase, McReqCore.keyCase,
        McReqCore.opens,
        Act.cleared, hx.1, hx.2]
  exact TokenParser.machine_step_next hact

/-- The other bytes. -/
theorem leads_bytes (xs : List Byte) : ∀ tok : List Byte,
    tok.length + xs.length ≤ memcacheMaxKeyLength → (∀ x ∈ xs, x ≠ SP ∧ x ≠ CR) →
      memcacheReq.machine.Leads Ready (scan gets .key n tok ks) xs
        (scan gets .key n (tok ++ xs) ks) := by
  induction xs with
  | nil => simp
  | cons x xs ih =>
    intro tok hlen hxs
    rw [List.length_cons] at hlen
    have hstep := step_key (a := scan gets .key n tok ks) rfl (hxs x (by simp))
    have hrest := ih (tok ++ [x]) (by simp; omega) fun y hy => hxs y (by simp [hy])
    rw [List.append_assoc, List.singleton_append] at hrest
    refine .cons ⟨by simp [scan], ?_⟩ hstep hrest
    change tok.length ≤ _
    omega

/-- **A key, with the blanks before it.** -/
theorem leads_key {s : McReqState} (hs : Blank s) (m : ℕ) {key : List Byte} (hpos : 0 < key.length)
    (hlen : key.length ≤ memcacheMaxKeyLength) (hkey : ∀ x ∈ key, x ≠ SP ∧ x ≠ CR) :
    memcacheReq.machine.Leads Ready (scan gets s n [] ks) (List.replicate m SP ++ key)
      (scan gets .key n key ks) := by
  obtain ⟨x, xs, rfl⟩ := List.exists_cons_of_ne_nil (List.length_pos_iff.1 hpos)
  refine (leads_blanks hs m).trans (.cons (ready_blank hs) (step_first hs (hkey x (by simp))) ?_)
  exact leads_bytes xs [x] (by simpa [Nat.add_comm] using hlen) fun y hy => hkey y (by simp [hy])

/-- The blank behind a key. -/
theorem step_space {key : List Byte} (hpos : 0 < key.length)
    (hlen : key.length ≤ memcacheMaxKeyLength) :
    memcacheReq.machine.step (scan gets .key n key ks) SP =
      .more (scan gets .spacesBeforeKeys (n + 1) [] (ks ++ [key])) := by
  have hne : key ≠ [] := List.length_pos_iff.1 hpos
  have hact : memcacheReq.act (scan gets .key n key ks).core (scan gets .key n key ks).opened SP =
      .next (scan gets .spacesBeforeKeys (n + 1) [] ks).core .clear true false := by
    change memcacheReqAct (scan gets .key n key ks).core (scan gets .key n key ks).opened SP = _
    cases gets <;> simp [memcacheReqAct, scan, type, McReqCore.keyCase, TokScan.opened,
      McReqCore.afterKey,
      memcacheStorage, memcacheArithmetic, memcacheTouch, memcacheDelete, memcacheRetrieval, hne,
      Nat.not_lt.2 hlen, wrap32_add_wrap32, SP, CR]
  rw [TokenParser.machine_step_next hact]
  simp [scan, TokenMove.bytes]

/-- The end of the line behind a key. -/
theorem step_cr {key : List Byte} (hpos : 0 < key.length)
    (hlen : key.length ≤ memcacheMaxKeyLength) :
    memcacheReq.machine.step (scan gets .key n key ks) CR =
      .more (scan gets .almostDone (n + 1) [] (ks ++ [key])) := by
  have hne : key ≠ [] := List.length_pos_iff.1 hpos
  have hact : memcacheReq.act (scan gets .key n key ks).core (scan gets .key n key ks).opened CR =
      .next (scan gets .almostDone (n + 1) [] ks).core .clear true false := by
    change memcacheReqAct (scan gets .key n key ks).core (scan gets .key n key ks).opened CR = _
    cases gets <;> simp [memcacheReqAct, scan, type, McReqCore.keyCase, TokScan.opened,
      McReqCore.afterKey,
      memcacheStorage, memcacheArithmetic, memcacheTouch, memcacheDelete, memcacheRetrieval, hne,
      McReqCore.spacesBeforeKeysCase, McReqCore.goto, Act.cleared,
      Nat.not_lt.2 hlen, wrap32_add_wrap32, SP, CR]
  rw [TokenParser.machine_step_next hact]
  simp [scan, TokenMove.bytes]

theorem accepts_lf :
    memcacheReq.machine.Accepts Ready (scan gets .almostDone n [] ks) [LF]
      (scan gets .almostDone n [] ks) :=
  .last ⟨by simp [scan], Nat.zero_le _⟩ rfl

/-- **The end of the line**, behind the last key. -/
theorem accepts_eol {key : List Byte} (hpos : 0 < key.length)
    (hlen : key.length ≤ memcacheMaxKeyLength)
    (t : ℕ) :
    memcacheReq.machine.Accepts Ready (scan gets .key n key ks) (eol t)
      (scan gets .almostDone (n + 1) [] (ks ++ [key])) := by
  have hready : Ready (scan gets .key n key ks) := ⟨by simp [scan], hlen⟩
  cases t with
  | zero => exact .of_leads (.single hready (step_cr hpos hlen)) accepts_lf
  | succ t =>
    have hblanks : memcacheReq.machine.Leads Ready
      (scan gets .spacesBeforeKeys (n + 1) [] (ks ++ [key]))
        (List.replicate t SP) _ := leads_blanks (.inr rfl) t
    have hcr : memcacheReq.machine.step (scan gets .spacesBeforeKeys (n + 1) [] (ks ++ [key])) CR =
        .more (scan gets .almostDone (n + 1) [] (ks ++ [key])) := rfl
    exact .of_leads ((ByteMachine.Leads.cons hready (step_space hpos hlen) hblanks).trans
      (.single (ready_blank (.inr rfl)) hcr)) accepts_lf

/-- **The line from a key on**: the further keys are appended one after the other. -/
theorem accepts_words (gets : Bool) (keys : List (ℕ × List Byte)) (t : ℕ)
    (hpos : ∀ e ∈ keys, 0 < e.2.length)
    (hlen : ∀ e ∈ keys, e.2.length ≤ memcacheMaxKeyLength)
    (hplain : ∀ e ∈ keys, ∀ x ∈ e.2, x ≠ SP ∧ x ≠ CR ∧ x ≠ LF) :
    ∀ (n : ℕ) (key : List Byte) (ks : List (List Byte)), 0 < key.length →
      key.length ≤ memcacheMaxKeyLength →
      memcacheReq.machine.Accepts Ready (scan gets .key n key ks) (words keys ++ eol t)
        (scan gets .almostDone (n + 1 + keys.length) [] (ks ++ key :: keys.map Prod.snd)) := by
  induction keys with
  | nil => exact fun _ _ _ hkey hle => accepts_eol hkey hle t
  | cons e keys ih =>
    intro n key ks hkey hle
    have hword : memcacheReq.machine.Leads Ready
      (scan gets .spacesBeforeKeys (n + 1) [] (ks ++ [key]))
        (List.replicate e.1 SP ++ e.2) (scan gets .key (n + 1) e.2 (ks ++ [key])) :=
      leads_key (.inr rfl) e.1 (hpos e (by simp)) (hlen e (by simp)) fun x hx =>
        ⟨(hplain e (by simp) x hx).1, (hplain e (by simp) x hx).2.1⟩
    have hrest := ih (fun e' he => hpos e' (by simp [he])) (fun e' he => hlen e' (by simp [he]))
      (fun e' he => hplain e' (by simp [he])) (n + 1) e.2 (ks ++ [key]) (hpos e (by simp))
      (hlen e (by simp))
    have hcut : words (e :: keys) ++ eol t =
        SP :: (List.replicate e.1 SP ++ e.2) ++ (words keys ++ eol t) := by
      simp [words]
    have hout : ks ++ [key] ++ e.2 :: keys.map Prod.snd = ks ++ key ::
      (e :: keys).map Prod.snd := by
      simp
    rw [hcut, List.length_cons, ← hout, show n + 1 + (keys.length + 1) =
      n + 1 + 1 + keys.length by omega]
    exact .of_leads (.cons ⟨by simp [scan], hle⟩ (step_space hkey hle) hword) hrest

/-- What the machine gives out for a request. -/
def out (q : Retrieval) : TokScan McReqCore :=
  scan q.gets .almostDone (1 + q.keys.length) [] (q.keys.map Prod.snd)

/-- A token that is moved in these states goes on alike. -/
theorem ready_movable {a b : TokScan McReqCore} (ha : Ready a) (hab : Alike a b)
    (htok : b.tok ≠ []) :
    Movable b ∧ b.tok.length ≤ memcacheMaxKeyLength := by
  cases hab.eq_of_tok (hab.tok.resolve_right fun hr => htok hr.1)
  obtain ⟨hs, hlen⟩ := ha
  refine ⟨⟨?_, ?_, ?_⟩, hlen⟩ <;> intro h <;> rw [h] at hs <;> exact absurd hs (by decide)

/-- What is accepted through these states is accepted behind buffers. -/
theorem ready_buffered {size : ℕ} (hsize : 464 ≤ size) {xs : List Byte} {o : TokScan McReqCore}
    {s : McReqState} (h : memcacheReq.machine.Accepts Ready (scan gets s n [] ks) xs o) {m : ℕ}
    (hm : m ≤ size) :
    (memcacheReq.machine.buffered size).Accepts (memcacheReq.machine.Safe size)
      (scan gets s n [] ks, m) xs o := by
  refine ByteMachine.Accepts.buffered_rel (R := Alike) (fun hR _ => hR.more) (fun hR _ => hR.done)
    (fun hR _ hmov htok _ => hR.reread hmov htok) (by omega) (.refl (mcHeld_nil rfl)) h hm ?_
  intro _ _ a b _ _ hready hab _ htok
  obtain ⟨hmov, hlen⟩ := ready_movable hready hab htok
  exact ⟨hmov, Nat.lt_of_le_of_lt hlen (by rw [memcacheMaxKeyLength]; omega)⟩

/-- **A request is accepted behind buffers.** -/
theorem accepts (q : Retrieval) {size : ℕ} (hsize : 464 ≤ size) :
    (memcacheReq.machine.buffered size).Accepts (memcacheReq.machine.Safe size)
      (memcacheReq.machine.init, 0) q.encode q.out := by
  obtain ⟨gets, keys, trailing, keys_ne, length_pos, length_le, plain⟩ := q
  obtain ⟨e, keys, rfl⟩ := List.exists_cons_of_ne_nil keys_ne
  have hcut : encode ⟨gets, e :: keys, trailing, keys_ne, length_pos, length_le, plain⟩ =
      (name gets ++ [SP]) ++ ((List.replicate e.1 SP ++ e.2) ++ (words keys ++ eol trailing)) := by
    simp [encode, words]
  -- the name is at the start of the first mbuf
  have hname : (name gets ++ [SP]).length ≤ 5 := by cases gets <;> decide
  have hfirst : (memcacheReq.machine.buffered size).Leads (memcacheReq.machine.Safe size)
      (memcacheReq.machine.init, 0) (name gets ++ [SP]) _ :=
    (ByteMachine.leads_of_run (run_name gets)).buffered_room (by omega)
  have hword : memcacheReq.machine.Leads Ready (scan gets .spacesBeforeKey 1 [] [])
      (List.replicate e.1 SP ++ e.2) (scan gets .key 1 e.2 []) :=
    leads_key (.inl rfl) e.1 (length_pos e (by simp)) (length_le e (by simp)) fun x hx =>
      ⟨(plain e (by simp) x hx).1, (plain e (by simp) x hx).2.1⟩
  have hrest := accepts_words gets keys trailing (fun e' he => length_pos e' (by simp [he]))
    (fun e' he => length_le e' (by simp [he])) (fun e' he => plain e' (by simp [he])) 1 e.2 []
    (length_pos e (by simp)) (length_le e (by simp))
  rw [hcut]
  refine .of_leads hfirst (ready_buffered hsize ?_ (by omega))
  rw [out, List.length_cons, Nat.add_comm keys.length, ← Nat.add_assoc]
  exact .of_leads hword hrest

theorem outView_eq (q : Retrieval) : mcOutView q.encode q.out = q.view := by
  simp [mcOutView, out, view, scan]

end Retrieval

/-- **Retrieval requests are found in the stream however it is cut, if and only if no read brings
the number of bytes received of a message to a multiple of `2 ^ 32`**: each is reported once, at its
line feed, with its type and its keys in order. -/
theorem retrievals_framed_iff {size : ℕ} (hsize : 464 ≤ size) (hmax : size < 2 ^ 32)
    {qs : List Retrieval} {chunks : List (List Byte)}
    (hstream : chunks.flatten = qs.flatMap Retrieval.encode) :
    FramedAs memcacheParseReq size Retrieval.encode (fun m q => mcReqView m.mhdr m.regs = q.view)
        chunks qs ↔
      ∀ x ∈ (recvRun memcacheParseReq size chunks).reads, wrap32 x ≠ 0 := by
  refine framedAs_iff (memcacheReq.sim memcacheReq_laws size) (by omega) hmax Retrieval.out
    (fun q _ => q.accepts hsize) (fun m q hm => congrArg McReqView.bytes hm) ?_ hstream
  intro m q _ hdelivered
  exact (mcReqView_eq hdelivered.bytes hdelivered.out).trans q.outView_eq

theorem plain_of_all {keys : List (ℕ × List Byte)}
    (h : (keys.all fun e => e.2.all fun x => x != SP && x != CR && x != LF) = true) :
    ∀ e ∈ keys, ∀ x ∈ e.2, x ≠ SP ∧ x ≠ CR ∧ x ≠ LF := by
  intro e he x hx
  have hx := List.all_eq_true.1 (List.all_eq_true.1 h e he) x hx
  simpa [and_assoc] using hx

/-- `gets a  bc`, with a blank at the end. -/
def getsTwo : Retrieval where
  gets := true
  keys := [(0, str "a"), (1, str "bc")]
  trailing := 1
  keys_ne := by decide
  length_pos := by decide
  length_le := by decide
  plain := plain_of_all (by decide)

/-- Two requests that come in three pieces. -/
theorem retrievals_framed_getsTwo :
    FramedAs memcacheParseReq 464 Retrieval.encode (fun m q => mcReqView m.mhdr m.regs = q.view)
      [getsTwo.encode.take 6, getsTwo.encode.drop 6 ++ getsTwo.encode.take 3, getsTwo.encode.drop 3]
      [getsTwo, getsTwo] :=
  (retrievals_framed_iff (by decide) (by decide) (by decide +kernel)).2 (by decide +kernel)

/-- `get k`, with `2 ^ 32` blanks at the end of the line. -/
def longRetrieval : Retrieval where
  gets := false
  keys := [(0, str "k")]
  trailing := 2 ^ 32
  keys_ne := by decide
  length_pos := by decide
  length_le := by decide
  plain := plain_of_all (by decide)

theorem longRetrieval_length : 2 ^ 32 < longRetrieval.encode.length := by
  rw [Retrieval.encode, Retrieval.eol, List.length_append, List.length_append, List.length_append,
    List.length_append, List.length_replicate]
  change 2 ^ 32 < _ + (_ + (2 ^ 32 + 1 + 1))
  omega

/-- **A long line is lost** when its first `2 ^ 32` bytes come in one chunk. -/
theorem not_framedAs_longRetrieval :
    ¬ FramedAs memcacheParseReq 464 Retrieval.encode (fun m q => mcReqView m.mhdr m.regs = q.view)
      [longRetrieval.encode.take (2 ^ 32), longRetrieval.encode.drop (2 ^ 32)] [longRetrieval] :=
  not_framedAs_of_length (memcacheReq.sim memcacheReq_laws 464) (by decide) (by decide)
    (longRetrieval.accepts (by decide)) (fun _ _ hm => congrArg McReqView.bytes hm)
    longRetrieval_length

end CacheProxy
