/-
**Where memcache requests may be cut.**

An mbuf that is full inside a token makes `memcache_parse_req` read the token again in the next one.
 For the name of a command, for the word `noreply` and for the sign of a number this fails; for
every other token it leads to a state that goes on alike.  So a request that is accepted in one mbuf
is accepted in mbufs of a given size, in whatever chunks it comes, exactly if no mbuf is full inside
such a token; unless a number begins where an mbuf begins and fills it, which is not read again at
all.

Main definitions:

* `Uncut`, `Narrow` — no mbuf is full inside a token that cannot be moved, and none is filled by a
  token.

Main results:

* `memcacheReq_keeps_uncut` — what is reported was not cut in such a token;
* `memcacheReq_framed` — **a request is framed exactly if it is not cut in such a token**.
-/

import CacheProxy.MemcacheFraming
import CacheProxy.Reported

namespace CacheProxy

/-! ### Tokens that are read again -/

/-- Without a token the name of a command, or the word `noreply`, is not recognized: the bytes are
passed over, or the request is rejected. -/
theorem run_unrecognized {a : TokScan McReqCore}
    (hs : a.core.state = .reqType ∨ a.core.state = .noreply)
    (htok : a.tok = []) (xs : List Byte) :
    memcacheReq.machine.run a xs = .fail ∨ memcacheReq.machine.run a xs = .more a := by
  induction xs with
  | nil => exact .inr rfl
  | cons x xs ih =>
    have hact : memcacheReqAct a.core a.opened x = .error ∨
        memcacheReqAct a.core a.opened x = .next a.core .keep false false := by
      have hnone : a.opened = none := by simp [TokScan.opened, htok]
      rw [hnone]
      rcases hs with hs | hs
      · simp only [memcacheReqAct, hs, McReqCore.reqTypeCase]
        split_ifs
        · exact .inl rfl
        · exact .inr (McReqCore.goto_state hs)
        · exact .inl rfl
      · simp only [memcacheReqAct, hs, McReqCore.noreplyCase]
        split_ifs with _ hf
        · cases hf
        · exact .inl rfl
        · exact .inr (McReqCore.goto_state hs)
    rcases hact with hact | hact
    · exact .inl (ByteMachine.run_cons_fail
        (TokenParser.machine_step_error (T := memcacheReq) hact) xs)
    · have hstep : memcacheReq.machine.step a x = .more a := by
        rw [TokenParser.machine_step_next (T := memcacheReq) hact, TokenMove.bytes, if_pos htok,
          ← htok]
        rfl
      rw [ByteMachine.run_cons_more hstep]
      exact ih

/-- A sign inside of a number is rejected. -/
theorem run_sign {a : TokScan McReqCore} (hs : a.core.state = .num) (xs : List Byte) :
    memcacheReq.machine.run a (45 :: xs) = .fail := by
  refine ByteMachine.run_cons_fail (TokenParser.machine_step_error (T := memcacheReq) ?_) xs
  change memcacheReqAct a.core a.opened 45 = .error
  simp only [memcacheReqAct, hs]
  rw [if_neg (by decide), if_neg (by decide)]

/-- **A token that is read again** leads to the same registers and keys, or the request is rejected;
a key is found again. -/
theorem McHeld.reread {a : TokScan McReqCore} (h : McHeld a) (htok : a.tok ≠ []) :
    memcacheReq.machine.run (memcacheReq.machine.rewind a) a.tok = .fail ∨
      ∃ a', memcacheReq.machine.run (memcacheReq.machine.rewind a) a.tok = .more a' ∧ McHeld a' ∧
        a'.core = a.core ∧ a'.keys = a.keys ∧ (a.core.state = .key → a' = a) := by
  by_cases hname : a.core.state = .reqType ∨ a.core.state = .noreply
  · rcases run_unrecognized (a := memcacheReq.machine.rewind a) hname rfl a.tok with hrun | hrun
    · exact .inl hrun
    · refine .inr ⟨_, hrun, mcHeld_nil rfl, rfl, rfl, fun hkey => ?_⟩
      rw [hkey] at hname
      rcases hname with hname | hname <;> cases hname
  rw [not_or] at hname
  by_cases hsign : a.core.state = .num ∧ a.tok.head? = some 45
  · left
    obtain ⟨x, xs, hx⟩ := List.exists_cons_of_ne_nil htok
    rw [hx] at hsign ⊢
    obtain ⟨hnum, hhead⟩ := hsign
    cases hhead
    exact run_sign (a := memcacheReq.machine.rewind a) hnum xs
  · have hmov : Movable a := ⟨hname.1, hname.2, fun hnum hhead => hsign ⟨hnum, hhead⟩⟩
    obtain ⟨a', hrun, halike⟩ := (Alike.refl h).reread hmov htok
    refine .inr ⟨a', hrun, ?_, halike.core, halike.keys, fun hkey => ?_⟩
    · rcases halike.tok with ht | ⟨ht, -⟩
      · rw [halike.eq_of_tok ht]
        exact h
      · exact mcHeld_nil ht
    · rcases halike.tok with ht | ⟨-, hdigits⟩
      · exact halike.eq_of_tok ht
      · simp [McReqState.Digits, hkey] at hdigits

/-! ### Cuts -/

/-- **No mbuf is full inside a token that cannot be moved**: the name of the command, the word
`noreply` or a number with a sign. -/
def Uncut (size : ℕ) (bytes : List Byte) : Prop :=
  ∀ ys zs b, bytes = ys ++ zs → zs ≠ [] → memcacheReq.machine.FullAt size ys b → b.tok ≠ [] →
    Movable b

/-- **No token fills an mbuf.** -/
def Narrow (size : ℕ) (bytes : List Byte) : Prop :=
  ∀ ys b, ys <+: bytes → memcacheReq.machine.FullAt size ys b → b.tok.length < size

section Cuts

variable {size : ℕ} {u ys bytes : List Byte} {a b : TokScan McReqCore} {c : Byte} {n : ℕ}

/-- A request that does not fill an mbuf is not cut. -/
theorem uncut_of_length (h : bytes.length < size) : Uncut size bytes ∧ Narrow size bytes := by
  refine ⟨fun ys zs b heq _ hfull => ?_, fun ys b hpre hfull => ?_⟩
  · refine absurd hfull (ByteMachine.not_fullAt_of_length (lt_of_le_of_lt ?_ h))
    rw [heq, List.length_append]
    exact Nat.le_add_right _ _
  · exact absurd hfull (ByteMachine.not_fullAt_of_length (lt_of_le_of_lt hpre.length_le h))

/-- A request that is not cut in such a token is accepted behind buffers. -/
theorem Uncut.accepts {o : TokScan McReqCore} (h : Uncut size bytes) (hnarrow : Narrow size bytes)
    (hpos : 0 < size) (hrun : memcacheReq.machine.run memcacheReq.machine.init bytes = .done o []) :
    (memcacheReq.machine.buffered size).Accepts (memcacheReq.machine.Safe size)
      (memcacheReq.machine.init, 0) bytes o :=
  ByteMachine.Accepts.buffered_rel (R := Alike) (fun hR _ => hR.more) (fun hR _ => hR.done)
    (fun hR _ hmov htok _ => hR.reread hmov htok) hpos (.refl (mcHeld_nil rfl))
    (ByteMachine.accepts_of_run hrun) (Nat.zero_le _)
    fun ys zs _ b heq hzs _ _ hl htok =>
      ⟨h ys zs b heq hzs hl.run_eq htok, hnarrow ys b ⟨zs, heq.symm⟩ hl.run_eq⟩

/-! ### What is not cut -/

/-- **What is known of a message that was not cut**: how far the buffers are filled, and that the
last token that was moved can be. -/
structure NotCut (size : ℕ) (u : List Byte) (n : ℕ) (a : TokScan McReqCore) : Prop where
  held : McHeld a
  reached : memcacheReq.machine.Reaches size u n a
  last : n < size → ∀ b, memcacheReq.machine.FullAt size u b → b.tok ≠ [] → Movable b
  uncut : Uncut size u

/-- The name or the word is not recognized any more. -/
def Unrecognized (a : TokScan McReqCore) : Prop :=
  a.tok = [] ∧ (a.core.state = .reqType ∨ a.core.state = .noreply)

theorem NotCut.concat (h : NotCut size u n a) (hn : n < size) : Uncut size (u ++ [c]) := by
  intro ys zs b heq hzs hfull htok
  obtain ⟨zs', z, rfl⟩ := (List.eq_nil_or_concat zs).resolve_left hzs
  rw [List.concat_eq_append, ← List.append_assoc] at heq
  obtain ⟨hu, -⟩ := List.append_inj' heq rfl
  by_cases hlast : zs' = []
  · rw [hlast, List.append_nil] at hu
    exact h.last hn b (hu ▸ hfull) htok
  · exact h.uncut ys zs' b hu hlast hfull htok

theorem NotCut.step {a' : TokScan McReqCore} (h : NotCut size u n a) (hn : n < size)
    (hstep : memcacheReq.machine.step a c = .more a') : NotCut size (u ++ [c]) (n + 1) a' := by
  have hrun := h.reached.step hn hstep
  refine ⟨h.held.step hstep, ⟨_, hrun, .inl rfl⟩, fun hlt b hfull => ?_, h.concat hn⟩
  cases hrun.symm.trans hfull
  exact absurd hlt (lt_irrefl _)

/-- In a full buffer there is one state. -/
theorem NotCut.unique (h : NotCut size u size a) (hfull : memcacheReq.machine.FullAt size u b) :
    b = a := by
  cases h.reached.fullAt.symm.trans hfull
  rfl

/-- **A token is moved**: it is read again, or the message is rejected sooner or later. -/
theorem NotCut.moved (h : NotCut size u size a) (htok : a.tok ≠ []) (hlen : a.tok.length < size) :
    memcacheReq.machine.run (memcacheReq.machine.rewind a) a.tok = .fail ∨
      ∃ a', memcacheReq.machine.run (memcacheReq.machine.rewind a) a.tok = .more a' ∧
        (NotCut size u a.tok.length a' ∨ Unrecognized a') := by
  by_cases hname : a.core.state = .reqType ∨ a.core.state = .noreply
  · rcases run_unrecognized (a := memcacheReq.machine.rewind a) hname rfl a.tok with hrun | hrun
    · exact .inl hrun
    · exact .inr ⟨_, hrun, .inr ⟨rfl, hname⟩⟩
  · rw [not_or] at hname
    rcases h.held.reread htok with hfail | ⟨a', hrun, hheld, -⟩
    · exact .inl hfail
    · refine .inr ⟨a', hrun, .inl
        ⟨hheld, h.reached.moved htok hlen hrun, fun _ b hfull _ => ?_, h.uncut⟩⟩
      rw [h.unique hfull]
      -- A sign would have been rejected.
      refine ⟨hname.1, hname.2, fun hnum hsign => ?_⟩
      obtain ⟨x, xs, hx⟩ := List.exists_cons_of_ne_nil htok
      rw [hx] at hsign hrun
      cases hsign
      cases hrun.symm.trans (run_sign (a := memcacheReq.machine.rewind a) hnum xs)

end Cuts

/-- **What `memcache_parse_req` reports was not cut in a token that cannot be moved**, if no token
has filled an mbuf. -/
theorem memcacheReq_keeps_uncut (size : ℕ) :
    Keeps size memcacheReq.machine (fun u n a => NotCut size u n a ∨ Unrecognized a)
      (fun u _ => Uncut size u) fun u => ¬Narrow size u where
  init := .inl ⟨mcHeld_nil rfl, ByteMachine.reaches_init,
    fun hpos b hfull => absurd hfull (ByteMachine.not_fullAt_of_length hpos),
    fun ys zs b heq hzs => absurd (List.append_eq_nil_iff.mp heq.symm).2 hzs⟩
  more {u n a c a'} h hn hstep := by
    rcases h with h | ⟨htok, hs⟩
    · exact .inl (h.step hn hstep)
    · right
      have hrun := run_unrecognized hs htok [c]
      rw [ByteMachine.run_cons_more hstep] at hrun
      rcases hrun with hrun | hrun
      · cases hrun
      · cases hrun
        exact ⟨htok, hs⟩
  done {u n a c o} h hn hstep := by
    rcases h with h | ⟨htok, hs⟩
    · exact h.concat hn
    · have hrun := run_unrecognized hs htok [c]
      rw [ByteMachine.run_cons_done hstep] at hrun
      rcases hrun with hrun | hrun <;> cases hrun
  closed _ := rfl
  fresh {u a} h htok := by
    refine h.imp_left fun h => ⟨h.held, h.reached.fresh htok, fun _ b hfull hne => ?_, h.uncut⟩
    rw [h.unique hfull] at hne
    exact absurd htok hne
  moved {v a} h htok hlen := by
    rcases h with h | h
    · exact .inr (h.moved htok hlen)
    · exact absurd h.1 htok
  stuck {u a} h htok hlen := by
    rcases h with h | h
    · exact .inr fun hnarrow => absurd (hnarrow u a List.prefix_rfl h.reached.fullAt)
        (not_lt.mpr hlen)
    · exact absurd h.1 htok
  lost v h hnarrow := h fun ys b hpre => hnarrow ys b (hpre.trans (List.prefix_append _ _))

/-- `set k 0 0 1`, with the data `x`. -/
def setOne : List Byte := str "set k 0 0 1" ++ [CR, LF] ++ str "x" ++ [CR, LF]

end CacheProxy
