/-
**Error replies.**

An error reply is a line that begins with a minus sign.  Its first word decides its type.  The
parser reads the word up to a blank or a carriage return and then looks for the carriage return that
ends the line; if the word ended with the carriage return, that one has been read already, and the
parser runs on to the carriage return of the next reply.

Main definitions:

* `errorReply`, `firstWord` — an error reply, and the word that decides its type.

Main results:

* `errorReply_reported` — **an error reply is reported at its own line feed exactly if there is a
  blank in it**;
* `errorReply_swallows` — an error reply of one word, and the reply that it swallows;
* `errorReply_longWord` — a word that is too long.
-/

import CacheProxy.FirstFrame
import CacheProxy.RedisReply

namespace CacheProxy

/-- The reply `-text`. -/
def errorReply (text : List Byte) : List Byte := 45 :: (text ++ [CR, LF])

/-- The text up to the first blank. -/
def firstWord (text : List Byte) : List Byte := text.takeWhile (· != 32)

theorem firstWord_append (text : List Byte) : ∃ rest, text = firstWord text ++ rest ∧
    (32 ∉ text ∧ rest = [] ∨ ∃ line, rest = 32 :: line) := by
  refine ⟨text.dropWhile (· != 32), (List.takeWhile_append_dropWhile).symm, ?_⟩
  induction text with
  | nil => exact .inl ⟨by simp, rfl⟩
  | cons x xs ih =>
    by_cases hx : x = 32
    · subst hx
      exact .inr ⟨xs, by simp⟩
    · rw [List.dropWhile_cons_of_pos (by simpa using hx)]
      rcases ih with ⟨hno, hnil⟩ | hline
      · exact .inl ⟨by simp [hno, Ne.symm hx], hnil⟩
      · exact .inr hline

theorem ne_of_mem_firstWord {text : List Byte} {x : Byte} (hx : x ∈ firstWord text) : x ≠ 32 := by
  have h := List.all_takeWhile (p := (· != 32)) (l := text)
  rw [List.all_eq_true] at h
  simpa using h x hx

/-! ### The machine -/

/-- Behind the minus sign and the word. -/
def inWord (w : List Byte) : TokScan RspCore where
  core := { state := .error, type := .rspRedisError }
  tok := 45 :: w

/-- Behind the word, in the state `s`. -/
def behindWord (w : List Byte) (s : RspState) : TokScan RspCore where
  core := { state := s, type := redisErrorType .rspRedisError (45 :: w) }

theorem leads_word (xs : List Byte) : ∀ w, (∀ x ∈ xs, x ≠ 32 ∧ x ≠ CR) →
    redisRsp.machine.Leads (fun _ => True) (inWord w) xs (inWord (w ++ xs)) := by
  induction xs with
  | nil =>
    intro w _
    rw [List.append_nil]
    rfl
  | cons x xs ih =>
    intro w hxs
    have hx := hxs x (by simp)
    have hact : redisRsp.act (inWord w).core (inWord w).opened x = (inWord w).core.stays := by
      change RspCore.errorAct _ (some (45 :: w)) x = _
      rw [RspCore.errorAct, if_neg (by simp [hx])]
    have hstep : redisRsp.machine.step (inWord w) x = .more (inWord (w ++ [x])) :=
      TokenParser.machine_step_next hact
    have hrest := ih (w ++ [x]) fun y hy => hxs y (by simp [hy])
    rw [List.append_assoc, List.singleton_append] at hrest
    exact .cons trivial hstep hrest

/-- The minus sign, the first word and what ends it. -/
theorem leads_firstWord {w : List Byte} {d : Byte} (hw : ∀ x ∈ w, x ≠ 32 ∧ x ≠ CR)
    (hd : d = 32 ∨ d = CR) :
    redisRsp.machine.Leads (fun _ => True) redisRsp.machine.init (45 :: (w ++ [d]))
      (behindWord w .runtoCrlf) := by
  have hfirst : redisRsp.machine.step redisRsp.machine.init 45 = .more (inWord []) := by decide
  have hact : redisRsp.act (inWord w).core (inWord w).opened d =
      (behindWord w .error).core.closes .runtoCrlf := by
    change RspCore.errorAct _ (some (45 :: w)) d = _
    rw [RspCore.errorAct, if_pos hd]
    rfl
  have hlast : redisRsp.machine.step (inWord w) d = .more (behindWord w .runtoCrlf) :=
    TokenParser.machine_step_next hact
  refine .cons trivial hfirst (.trans (leads_word w [] hw) ?_)
  exact .single trivial hlast

/-- The rest of the line. -/
theorem leads_line (w xs : List Byte) (hxs : ∀ x ∈ xs, x ≠ CR) :
    redisRsp.machine.Leads (fun a => redisRsp.machine.token a = []) (behindWord w .runtoCrlf) xs
      (behindWord w .runtoCrlf) := by
  induction xs with
  | nil => rfl
  | cons x xs ih =>
    have hact : redisRsp.act (behindWord w .runtoCrlf).core (behindWord w .runtoCrlf).opened x =
        (behindWord w .runtoCrlf).core.stays := if_neg (hxs x (by simp))
    have hstep : redisRsp.machine.step (behindWord w .runtoCrlf) x = .more
      (behindWord w .runtoCrlf) :=
      TokenParser.machine_step_next hact
    exact .cons rfl hstep (ih fun y hy => hxs y (by simp [hy]))

/-- The end of the line. -/
theorem accepts_crlf (w : List Byte) :
    redisRsp.machine.Accepts (fun a => redisRsp.machine.token a = []) (behindWord w .runtoCrlf)
      [CR, LF]
      (behindWord w .almostDone) := by
  have hcr : redisRsp.machine.step (behindWord w .runtoCrlf) CR = .more
    (behindWord w .almostDone) := rfl
  have hlf : redisRsp.machine.step (behindWord w .almostDone) LF = .done
    (behindWord w .almostDone) := rfl
  exact ⟨rfl, .inl ⟨_, hcr, .last rfl hlf⟩⟩

/-- **What is accepted**: a word that is shorter than a buffer, a blank or a carriage return, and a
line up to a carriage return and a line feed. -/
theorem accepts_error {size : ℕ} {w xs : List Byte} {d : Byte} (hw : ∀ x ∈ w, x ≠ 32 ∧ x ≠ CR)
    (hd : d = 32 ∨ d = CR) (hxs : ∀ x ∈ xs, x ≠ CR) (hsize : w.length + 1 < size) :
    (redisRsp.machine.buffered size).Accepts (redisRsp.machine.Safe size) (redisRsp.machine.init, 0)
      (45 :: (w ++ [d]) ++ (xs ++ [CR, LF])) (behindWord w .almostDone) := by
  have hlen : 0 + (45 :: (w ++ [d])).length ≤ size := by
    simp only [List.length_cons, List.length_append, List.length_nil]
    omega
  refine .of_leads ((leads_firstWord hw hd).buffered_room hlen) ?_
  exact .buffered_closed (.of_leads (leads_line w xs hxs) (accepts_crlf w)) (by omega) hlen

/-! ### The parser -/

/-- **An error reply whose first word is shorter than an mbuf is reported at its own line feed**,
with the type of its first word, **exactly if there is a blank in its text**, whatever follows it
and however the stream is cut into chunks. -/
theorem errorReply_reported {size : ℕ} {text : List Byte} (htext : ∀ x ∈ text, x ≠ CR ∧ x ≠ LF)
    (hword : (45 :: firstWord text).length < size)
    (hshort : (errorReply text).length + size + 2 ≤ 2 ^ 32) (more : List Byte) :
    (∀ chunks : List (List Byte), chunks.flatten = errorReply text ++ more →
      ReportedFirst redisParseRsp size (errorReply text)
        (fun m => m.regs.type = redisErrorType .rspRedisError (45 :: firstWord text)) chunks) ↔
      32 ∈ text := by
  obtain ⟨rest, hcut, hrest⟩ := firstWord_append text
  have hw : ∀ x ∈ firstWord text, x ≠ 32 ∧ x ≠ CR := fun x hx =>
    ⟨ne_of_mem_firstWord hx, (htext x (by rw [hcut]; simp [hx])).1⟩
  rw [List.length_cons] at hword
  rcases hrest with ⟨hno, rfl⟩ | ⟨line, rfl⟩
  · -- the carriage return of the reply ends the word; the next one ends the message
    refine iff_of_false (fun h => ?_) hno
    rw [List.append_nil] at hcut
    have hacc := accepts_error hw (.inr rfl) (show ∀ x ∈ [LF], x ≠ CR by simp [LF, CR]) hword
    have hframe : 45 :: (firstWord text ++ [CR]) ++ ([LF] ++ [CR, LF]) =
        errorReply text ++ [CR, LF] := by
      rw [errorReply, ← hcut]
      simp
    rw [hframe] at hacc
    have hup := recvRun_firstUpTo (f := (errorReply text ++ [CR, LF], _))
      (redisParseRsp_sim size) hacc
      (by omega) (by simp only [List.length_append, List.length_cons, List.length_nil]; omega)
      (show _ ++ [] = [errorReply text].flatten ++ [CR, LF] by simp)
    obtain ⟨m, ms, hm, -⟩ := (h [errorReply text, more] (by simp) [errorReply text] [more] rfl).2
      (by simp)
    rcases hup with ⟨-, hgood⟩ | ⟨hle, -⟩
    · rw [List.forall₂_nil_right_iff.1 hgood.delivered] at hm
      cases hm
    · simp at hle
  · refine iff_of_true (fun chunks hchunks => ?_) (by rw [hcut]; simp)
    have hline : ∀ x ∈ line, x ≠ CR := fun x hx => (htext x (by rw [hcut]; simp [hx])).1
    have hacc := accepts_error hw (.inl rfl) hline hword
    have hframe : 45 :: (firstWord text ++ [32]) ++ (line ++ [CR, LF]) = errorReply text := by
      conv_rhs => rw [errorReply, hcut]
      simp
    rw [hframe] at hacc
    refine recvRun_first (f := (errorReply text, _)) (redisParseRsp_sim size) hacc (by omega)
      (by simp only; omega) (fun m hm => ?_) hchunks
    obtain ⟨k, rfl, hk⟩ := hm.out.core
    exact congrArg RspCore.type hk

/-- An error reply with two words and the reply behind it, in three chunks. -/
theorem errorReply_reported_twoWords :
    ReportedFirst redisParseRsp 464 (errorReply (str "ERR no"))
      (fun m => m.regs.type = redisErrorType .rspRedisError (45 :: firstWord (str "ERR no")))
      [str "-ER", str "R no" ++ [CR], [LF] ++ str "+OK" ++ [CR, LF]] := by
  have hall : ((str "ERR no").all fun x => decide (x ≠ CR ∧ x ≠ LF)) = true := by decide
  have htext : ∀ x ∈ str "ERR no", x ≠ CR ∧ x ≠ LF := by
    intro x hx
    simpa using List.all_eq_true.1 hall x hx
  exact (errorReply_reported htext (by decide) (by decide) (str "+OK" ++ [CR, LF])).2 (by decide) _
    (by decide)

/-- **An error reply of one word swallows the reply behind it**: both are reported as one
message. -/
theorem errorReply_swallows :
    (recvRun redisParseRsp 464 [errorReply (str "ERR"), str "+OK" ++ [CR, LF]]).received.map
        (fun m => (m.bytes, m.regs.type)) =
      [(errorReply (str "ERR") ++ (str "+OK" ++ [CR, LF]), .rspRedisErrorErr)] := by
  decide +kernel

set_option maxRecDepth 10000 in
/-- **A word that fills an mbuf with its minus sign is rejected**: one byte less is the limit. -/
theorem errorReply_longWord :
    (recvRun redisParseRsp 464 [errorReply (List.replicate 463 65 ++ str " x")]).status = .error ∧
      (recvRun redisParseRsp 464 [errorReply (List.replicate 462 65 ++ str " x")]).status =
        .ok := by
  decide +kernel

end CacheProxy
