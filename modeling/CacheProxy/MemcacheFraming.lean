/-
**Memcache requests in mbufs.**

A token that was moved to a new mbuf is read again in the same state.  For a key this leads back to
where the parser was.  In the other states the pointer is not set again, so that the digits of a
number that are read again are no token any more; the parser goes on alike.  But the word `noreply`
is recognized by its pointer, and the sign of a number only before the number: these must not be
cut.  The name of the command must not be cut either, but it is at the start of the first mbuf.

Main definitions:

* `McHeld`, `Alike` — what a token holds, and the states that go on alike;
* `Movable` — the states in which the token can be moved;
* `mcReqView` — what a message shows.

Main results:

* `Alike.reread` — a token that can be moved is read again to a state that goes on alike;
* `rejected_cutNoreply` — a word that is cut is not recognized.
-/

import CacheProxy.MemcacheRequest
import CacheProxy.FramedStream

namespace CacheProxy

open Decimal

/-! ### What a token holds -/

/-- The bytes that a state adds to its token. -/
def McReqState.Reads : McReqState → Byte → Prop
  | .key, c | .noreply, c => c ≠ SP ∧ c ≠ CR
  | .flags, c | .expiry, c | .cas, c | .num, c => isDigit c = true
  | _, _ => True

/-- The first byte of a token. -/
def McReqState.Begins : McReqState → Byte → Prop
  | .num, c => isDigit c = true ∨ c = 45
  | s, c => s.Reads c

/-- **An action that adds to the token what belongs there**, in the state `s`. -/
def Act.Reads (s : McReqState) (c : Byte) : Act McReqCore → Prop
  | .next k m _ _ => ¬ k.Closed →
      (m = .set ∧ k.state.Begins c) ∨ (m = .keep ∧ k.state = s ∧ k.state.Reads c)
  | _ => True

/-- The states with a token. -/
def McReqState.Open (s : McReqState) : Prop :=
  s ∈ [McReqState.reqType, .key, .flags, .expiry, .cas, .num, .noreply]

instance (s : McReqState) : Decidable s.Open := inferInstanceAs (Decidable (_ ∈ _))

/-- A token that was closed before the action. -/
theorem Act.Reads.cleared {x : Act McReqCore} {s : McReqState} {c : Byte} (h : x.Reads s c)
    (hs : ¬ s.Open) (key : Bool) (s' : McReqState) : (x.cleared key).Reads s' c := by
  cases x with
  | next k m =>
    cases m with
    | set => exact fun hk => .inl ⟨rfl, (h hk).elim (fun h => h.2) fun h => nomatch h.1⟩
    | keep =>
      intro hk
      rcases h hk with ⟨hm, -⟩ | ⟨-, hst, -⟩
      · cases hm
      · exact absurd (fun ho => hs (hst ▸ ho)) hk
    | clear =>
      intro hk
      rcases h hk with ⟨hm, -⟩ | ⟨hm, -⟩ <;> cases hm
  | skip | done | error => trivial

namespace McReqCore

variable (k : McReqCore) (c : Byte) (s : McReqState)

theorem goto_reads {s' : McReqState} (hs : ¬ s'.Open) :
    (k.goto s').Reads s c := fun hk => absurd hs hk

theorem goto_reads_same {s' : McReqState} (hs : s' = s) (hc : s'.Reads c) : (k.goto s').Reads s c :=
  fun _ => .inr ⟨rfl, hs, hc⟩

theorem opens_reads {s' : McReqState} (hc : s'.Begins c) : (k.opens s').Reads s c :=
  fun _ => .inl ⟨rfl, hc⟩

theorem closes_reads {s' : McReqState} (hs : ¬ s'.Open) : (k.closes s').Reads s c :=
  fun hk => absurd hs hk

theorem crlfCase_reads : (k.crlfCase c).Reads s c := by
  unfold crlfCase
  split_ifs
  · exact k.goto_reads c s (by decide)
  · exact k.goto_reads c s (by decide)
  · trivial

theorem runtoCrlfCase_reads : (k.runtoCrlfCase c).Reads s c := by
  unfold runtoCrlfCase
  split_ifs with _ hn
  · exact k.goto_reads c s (by decide)
  · exact k.opens_reads c s (by rw [hn]; exact ⟨by decide, by decide⟩)
  · trivial
  · exact k.goto_reads c s (by decide)
  · exact k.goto_reads c s (by decide)
  · trivial

theorem afterNoreplyCase_reads : (k.afterNoreplyCase c).Reads s c := by
  unfold afterNoreplyCase
  split_ifs
  · exact k.goto_reads c s (by decide)
  · exact k.goto_reads c s (by decide)
  · exact k.goto_reads c s (by decide)
  · trivial

theorem digitsCase_reads {s₁ s₂ : McReqState} (h₁ : ¬ s₁.Open)
    (h₂ : isDigit c = true → s₂.Begins c) :
    (k.digitsCase c s₁ s₂).Reads s c := by
  unfold digitsCase
  split_ifs with _ hd
  · exact k.opens_reads c s (h₂ hd)
  · trivial
  · exact k.goto_reads c s h₁

theorem spacesBeforeNumCase_reads : (k.spacesBeforeNumCase c).Reads s c := by
  unfold spacesBeforeNumCase
  split_ifs with _ hd
  · exact k.opens_reads c s (by simpa [McReqState.Begins] using hd)
  · trivial
  · exact k.goto_reads c s (by decide)

theorem keyCase_reads (tok : Option (List Byte)) (h : tok = none ∨ s = .key) :
    (k.keyCase c tok).Reads s c := by
  unfold keyCase
  dsimp only
  split_ifs with hc _ _ _ _ htok
  · trivial
  · trivial
  · trivial
  · split
    · exact (spacesBeforeNumCase_reads _ c .start).cleared (by decide) _ _
    · unfold spacesBeforeKeysCase
      split_ifs
      · exact (goto_reads _ c .start (by decide)).cleared (by decide) _ _
      · exact (goto_reads _ c .start (by decide)).cleared (by decide) _ _
    · exact (runtoCrlfCase_reads _ c .start).cleared (by decide) _ _
  · intro hk
    refine absurd ?_ hk
    change afterKey _ ∉ _
    unfold afterKey
    split_ifs <;> decide
  · exact k.opens_reads c s (by simpa [McReqState.Begins, McReqState.Reads] using hc)
  · exact k.goto_reads_same c s (h.resolve_left htok).symm (by simpa [McReqState.Reads] using hc)

end McReqCore

open McReqCore in
/-- **The switch adds to the token what belongs there.** -/
theorem memcacheReqAct_reads (k : McReqCore) (tok : Option (List Byte)) (c : Byte) :
    (memcacheReqAct k tok c).Reads k.state c := by
  have hdigits : ∀ {s : McReqState}, k.state = s → (isDigit c = true → s.Reads c) →
      isDigit c = true → (k.goto s).Reads k.state c := fun hs hr hd =>
    k.goto_reads_same c _ hs.symm (hr hd)
  have hrun : ∀ s, ((k.runtoCrlfCase c).cleared false).Reads s c := fun s =>
    (k.runtoCrlfCase_reads c .start).cleared (by decide) _ _
  unfold memcacheReqAct
  split
  · split_ifs
    · exact k.goto_reads c _ (by decide)
    · exact k.opens_reads c _ trivial
    · trivial
  · next hs =>
    unfold reqTypeCase
    split
    · cases tok with
      | none => trivial
      | some m =>
        dsimp only
        split
        · exact (crlfCase_reads _ c .start).cleared (by decide) _ _
        · split
          · trivial
          · split
            · trivial
            · exact closes_reads _ c _ (by decide)
    · split
      · exact k.goto_reads_same c _ hs.symm trivial
      · trivial
  · split_ifs
    · exact (k.keyCase_reads c .start none (.inl rfl)).cleared (by decide) _ _
    · exact k.goto_reads c _ (by decide)
  · next hs => exact k.keyCase_reads c _ tok (.inr hs)
  · unfold spacesBeforeKeysCase
    split_ifs
    · exact k.goto_reads c _ (by decide)
    · exact k.goto_reads c _ (by decide)
    · exact (k.keyCase_reads c .start none (.inl rfl)).cleared (by decide) _ _
  · exact k.digitsCase_reads c _ (by decide) id
  · next hs =>
    split_ifs with hd
    · exact hdigits hs id hd
    · exact k.closes_reads c _ (by decide)
    · trivial
  · exact k.digitsCase_reads c _ (by decide) id
  · next hs =>
    split_ifs with hd
    · exact hdigits hs id hd
    · exact k.closes_reads c _ (by decide)
    · trivial
  · split_ifs
    · exact goto_reads _ c _ (by decide)
    · trivial
    · exact k.goto_reads c _ (by decide)
  · split_ifs
    · exact goto_reads _ c _ (by decide)
    · trivial
    · exact (k.digitsCase_reads c .start (by decide) id).cleared (by decide) _ _
    · exact hrun _
    · trivial
  · exact k.digitsCase_reads c _ (by decide) id
  · next hs =>
    split_ifs with hd
    · exact hdigits hs id hd
    · exact hrun _
    · trivial
  · split_ifs
    · exact k.goto_reads c _ (by decide)
    · trivial
  · trivial
  · exact k.spacesBeforeNumCase_reads c _
  · next hs =>
    split_ifs with hd
    · exact hdigits hs id hd
    · exact hrun _
    · trivial
  · exact k.runtoCrlfCase_reads c _
  · exact k.crlfCase_reads c _
  · next hs =>
    unfold noreplyCase
    split_ifs with hc
    · exact (afterNoreplyCase_reads _ c .start).cleared (by decide) _ _
    · trivial
    · exact k.goto_reads_same c _ hs.symm (by simpa [McReqState.Reads] using hc)
  · exact k.afterNoreplyCase_reads c _
  · split_ifs <;> trivial

/-! ### Tokens that are read again -/

/-- **The open token of a state holds what belongs there.** -/
structure McHeld (a : TokScan McReqCore) : Prop where
  closed : a.core.Closed → a.tok = []
  begins : ∀ x, a.tok.head? = some x → a.core.state.Begins x
  reads : ∀ x ∈ a.tok.tail, a.core.state.Reads x

theorem mcHeld_nil {a : TokScan McReqCore} (h : a.tok = []) : McHeld a :=
  ⟨fun _ => h, by simp [h], by simp [h]⟩

theorem McHeld.step {a a' : TokScan McReqCore} {c : Byte} (h : McHeld a)
    (hstep : memcacheReq.machine.step a c = .more a') : McHeld a' := by
  change memcacheReq.scanStep a c = _ at hstep
  unfold TokenParser.scanStep at hstep
  have hreads := memcacheReqAct_reads a.core a.opened c
  cases hact : memcacheReq.act a.core a.opened c with
  | next k =>
    rw [show memcacheReqAct a.core a.opened c = _ from hact] at hreads
    rw [hact] at hstep
    cases hstep
    by_cases hk : k.Closed
    · refine mcHeld_nil ?_
      have hopen : a.core.Closed → a.opened = none :=
        fun hc => by simp [TokScan.opened, h.closed hc]
      rcases memcacheReq_laws.closed hact hopen hk with rfl | ⟨rfl, hnone⟩
      · rfl
      · have hnil : a.tok = [] := by
          by_contra hne
          simp [TokScan.opened, hne] at hnone
        simp [TokenMove.bytes, hnil]
    · rcases hreads hk with ⟨rfl, hb⟩ | ⟨rfl, hs, hr⟩
      · exact ⟨fun hc => absurd hc
          hk, by simpa [TokenMove.bytes] using hb, by simp [TokenMove.bytes]⟩
      · by_cases hnil : a.tok = []
        · exact mcHeld_nil (by simp [TokenMove.bytes, hnil])
        · obtain ⟨x, xs, hx⟩ := List.exists_cons_of_ne_nil hnil
          have hbytes : TokenMove.keep.bytes a.tok c = x :: (xs ++ [c]) := by
            simp [TokenMove.bytes, hx]
          refine ⟨fun hc => absurd hc hk, fun y hy => ?_, fun y hy => ?_⟩
          · rw [hbytes] at hy
            cases hy
            rw [hs]
            exact h.begins x (by simp [hx])
          · rw [hbytes, List.tail_cons, List.mem_append, List.mem_singleton] at hy
            rcases hy with hy | rfl
            · rw [hs]
              exact h.reads y (by simp [hx, hy])
            · exact hr
  | skip =>
    rw [hact] at hstep
    have hnil := h.closed (memcacheReq_laws.skip hact).1
    dsimp only at hstep
    split at hstep
    · cases hstep
      exact mcHeld_nil hnil
    · split at hstep
      · cases hstep
        exact mcHeld_nil hnil
      · cases hstep
  | done =>
    rw [hact] at hstep
    cases hstep
  | error =>
    rw [hact] at hstep
    cases hstep

/-- The states that read a number whose digits are not looked at. -/
def McReqState.Digits (s : McReqState) : Prop := s ∈ [McReqState.flags, .expiry, .cas, .num]

/-- **States that go on alike**: in a number there may be a token or not. -/
structure Alike (a b : TokScan McReqCore) : Prop where
  held : McHeld a
  core : b.core = a.core
  keys : b.keys = a.keys
  tok : b.tok = a.tok ∨ b.tok = [] ∧ a.core.state.Digits

/-- **Tokens that can be moved**: all but the name of a command, the word `noreply`, and a number
with a sign. -/
def Movable (b : TokScan McReqCore) : Prop :=
  b.core.state ≠ .reqType ∧ b.core.state ≠ .noreply ∧
    (b.core.state = .num → b.tok.head? ≠ some 45)

theorem McReqCore.runtoCrlfCase_end (k : McReqCore) {c : Byte} (hc : c = SP ∨ c = CR) :
    ∃ s, (k.runtoCrlfCase c).cleared false = k.closes s := by
  have hn : c ≠ 110 := by rcases hc with rfl | rfl <;> decide
  unfold McReqCore.runtoCrlfCase
  by_cases hsp : c = SP
  · rw [if_pos hsp]
    exact ⟨_, rfl⟩
  · rw [if_neg hsp, if_neg hn, if_pos (hc.resolve_left hsp)]
    exact ⟨_, rfl⟩

/-- In a number the token is not looked at: a digit is kept, and the token ends with the number. -/
theorem memcacheReqAct_digits {k : McReqCore} (hs : k.state.Digits) (tok : Option (List Byte))
    (c : Byte) :
    (isDigit c = true ∧ memcacheReqAct k tok c = k.goto k.state) ∨
      (isDigit c = false ∧
        ((∃ s, memcacheReqAct k tok c = k.closes s) ∨ memcacheReqAct k tok c = .error)) := by
  simp only [McReqState.Digits, List.mem_cons, List.not_mem_nil, or_false] at hs
  cases hd : isDigit c with
  | true =>
    left
    rcases hs with hs | hs | hs | hs <;> simp [memcacheReqAct, hs, hd]
  | false =>
    right
    refine ⟨rfl, ?_⟩
    rcases hs with hs | hs | hs | hs <;>
      simp only [memcacheReqAct, hs, hd, Bool.false_eq_true, if_false]
    · split_ifs
      · exact .inl ⟨_, rfl⟩
      · exact .inr rfl
    · split_ifs
      · exact .inl ⟨_, rfl⟩
      · exact .inr rfl
    · split_ifs with hc
      · exact .inl (k.runtoCrlfCase_end hc)
      · exact .inr rfl
    · split_ifs with hc
      · exact .inl (k.runtoCrlfCase_end hc)
      · exact .inr rfl

theorem Alike.eq_of_tok {a b : TokScan McReqCore} (h : Alike a b) (htok : b.tok = a.tok) :
    b = a := by
  obtain ⟨core, tok, keys⟩ := a
  obtain ⟨core', tok', keys'⟩ := b
  cases h.core
  cases h.keys
  cases htok
  rfl

theorem Alike.refl {a : TokScan McReqCore} (h : McHeld a) : Alike a a := ⟨h, rfl, rfl, .inl rfl⟩

theorem memcacheReqAct_digits_tok {k : McReqCore} (hs : k.state.Digits)
    (tok tok' : Option (List Byte))
    (c : Byte) : memcacheReqAct k tok c = memcacheReqAct k tok' c := by
  simp only [McReqState.Digits, List.mem_cons, List.not_mem_nil, or_false] at hs
  rcases hs with hs | hs | hs | hs <;> simp only [memcacheReqAct, hs]

theorem Alike.more {a b a' : TokScan McReqCore} {c : Byte} (h : Alike a b)
    (hstep : memcacheReq.machine.step a c = .more a') :
    ∃ b', memcacheReq.machine.step b c = .more b' ∧ Alike a' b' := by
  have hheld := h.held.step hstep
  rcases h.tok with htok | ⟨hnil, hs⟩
  · rw [h.eq_of_tok htok]
    exact ⟨a', hstep, .refl hheld⟩
  · have hsame : memcacheReqAct b.core b.opened c = memcacheReqAct a.core a.opened c := by
      rw [h.core, memcacheReqAct_digits_tok hs]
    rcases memcacheReqAct_digits hs a.opened c with ⟨-, hact⟩ | ⟨-, ⟨s, hact⟩ | hact⟩
    · cases (TokenParser.machine_step_next (T := memcacheReq) hact).symm.trans hstep
      refine ⟨_, TokenParser.machine_step_next (T := memcacheReq) (hsame.trans hact), hheld, rfl,
        h.keys, ?_⟩
      exact .inr ⟨by simp [TokenMove.bytes, hnil], hs⟩
    · cases (TokenParser.machine_step_next (T := memcacheReq) hact).symm.trans hstep
      exact ⟨_, TokenParser.machine_step_next (T := memcacheReq) (hsame.trans hact), hheld, rfl,
        h.keys,
        .inl rfl⟩
    · cases (TokenParser.machine_step_error (T := memcacheReq) hact).symm.trans hstep

theorem Alike.done {a b o : TokScan McReqCore} {c : Byte} (h : Alike a b)
    (hstep : memcacheReq.machine.step a c = .done o) : memcacheReq.machine.step b c = .done o := by
  rcases h.tok with htok | ⟨-, hs⟩
  · rwa [h.eq_of_tok htok]
  · obtain ⟨hact, -⟩ := TokenParser.machine_step_eq_done hstep
    rcases memcacheReqAct_digits hs a.opened c with ⟨-, h'⟩ | ⟨-, ⟨s, h'⟩ | h'⟩ <;>
      cases h'.symm.trans hact

/-- A state that is gone to from itself. -/
theorem McReqCore.goto_state {k : McReqCore} {s : McReqState} (hs : k.state = s) :
    k.goto s = .next k .keep false false := by
  subst hs
  rfl

theorem McReqCore.opens_state {k : McReqCore} {s : McReqState} (hs : k.state = s) :
    k.opens s = .next k .set false false := by
  subst hs
  rfl

/-- A byte of a key. -/
theorem step_key {a : TokScan McReqCore} (hs : a.core.state = .key) {x : Byte}
    (hx : x ≠ SP ∧ x ≠ CR) :
    memcacheReq.machine.step a x = .more { a with tok := a.tok ++ [x] } := by
  have hact : memcacheReq.act a.core a.opened x =
      if a.opened = none then .next a.core .set false false else .next a.core .keep false
        false := by
    change memcacheReqAct a.core a.opened x = _
    simp only [memcacheReqAct, hs, McReqCore.keyCase, hx.1, hx.2, or_self, if_false]
    rw [McReqCore.opens_state hs, McReqCore.goto_state hs]
  by_cases htok : a.tok = []
  · rw [if_pos (by simp [TokScan.opened, htok])] at hact
    rw [TokenParser.machine_step_next hact, htok]
    rfl
  · rw [if_neg (by simp [TokScan.opened, htok])] at hact
    rw [TokenParser.machine_step_next hact]
    simp [TokenMove.bytes, htok]

/-- The bytes of a key. -/
theorem run_key (xs : List Byte) : ∀ {a : TokScan McReqCore}, a.core.state = .key →
    (∀ x ∈ xs, x ≠ SP ∧ x ≠ CR) →
      memcacheReq.machine.run a xs = .more { a with tok := a.tok ++ xs } := by
  induction xs with
  | nil => simp
  | cons x xs ih =>
    intro a hs hxs
    rw [ByteMachine.run_cons_more (step_key hs (hxs x (by simp)))]
    refine (ih (a := { a with tok := a.tok ++ [x] }) hs fun y hy => hxs y (by simp [hy])).trans ?_
    simp

/-- Digits without a token. -/
theorem run_digits {a : TokScan McReqCore} (hs : a.core.state.Digits) (htok : a.tok = [])
    (xs : List Byte) (hxs : ∀ x ∈ xs, isDigit x = true) :
    memcacheReq.machine.run a xs = .more a := by
  induction xs with
  | nil => rfl
  | cons x xs ih =>
    have hstep : memcacheReq.machine.step a x = .more a := by
      rcases memcacheReqAct_digits hs a.opened x with ⟨-, hact⟩ | ⟨hd, -⟩
      · rw [McReqCore.goto_state rfl] at hact
        rw [TokenParser.machine_step_next (T := memcacheReq) hact, TokenMove.bytes, if_pos htok,
          ← htok]
        rfl
      · rw [hxs x (by simp)] at hd
        cases hd
    rw [ByteMachine.run_cons_more hstep, ih fun y hy => hxs y (by simp [hy])]

/-- **A token that can be moved is read again** to a state that goes on alike. -/
theorem Alike.reread {a b : TokScan McReqCore} (h : Alike a b) (hmov : Movable b)
    (htok : b.tok ≠ []) :
    ∃ b', memcacheReq.machine.run (memcacheReq.machine.rewind b) b.tok = .more b' ∧ Alike a b' := by
  have hab := h.eq_of_tok (h.tok.resolve_right fun hr => htok hr.1)
  subst hab
  have hopen : b.core.state.Open := by
    by_contra hc
    exact htok (h.held.closed hc)
  obtain ⟨y, ys, hy⟩ := List.exists_cons_of_ne_nil htok
  have hfirst := h.held.begins y (by simp [hy])
  have hrest : ∀ x ∈ ys, b.core.state.Reads x := fun x hx => h.held.reads x (by simp [hy, hx])
  have hdigits : b.core.state.Digits → b.core.state.Reads y →
    (∀ x, b.core.state.Reads x → isDigit x = true) →
      ∃ b', memcacheReq.machine.run (memcacheReq.machine.rewind b) b.tok = .more b' ∧
        Alike b b' := by
    intro hs hfirst hd
    refine ⟨memcacheReq.machine.rewind b, run_digits (a := memcacheReq.machine.rewind b) hs rfl _
      fun x hx => hd x ?_, h.held, rfl, rfl, .inr ⟨rfl, hs⟩⟩
    rw [hy] at hx
    rcases List.mem_cons.1 hx with rfl | hx
    · exact hfirst
    · exact hrest x hx
  simp only [McReqState.Open, List.mem_cons, List.not_mem_nil, or_false] at hopen
  rcases hopen with hs | hs | hs | hs | hs | hs | hs
  · exact absurd hs hmov.1
  · rw [hs] at hfirst hrest
    have hrun := run_key b.tok (a := memcacheReq.machine.rewind b) hs (by
      rw [hy]
      intro x hx
      rcases List.mem_cons.1 hx with rfl | hx
      · exact hfirst
      · exact hrest x hx)
    exact ⟨b, hrun, h⟩
  · exact hdigits (by simp [McReqState.Digits, hs]) (by rw [hs] at hfirst ⊢; exact hfirst)
      (by rw [hs]; exact fun x hx => hx)
  · exact hdigits (by simp [McReqState.Digits, hs]) (by rw [hs] at hfirst ⊢; exact hfirst)
      (by rw [hs]; exact fun x hx => hx)
  · exact hdigits (by simp [McReqState.Digits, hs]) (by rw [hs] at hfirst ⊢; exact hfirst)
      (by rw [hs]; exact fun x hx => hx)
  · -- the first byte is not the sign
    refine hdigits (by simp [McReqState.Digits, hs]) ?_ (by rw [hs]; exact fun x hx => hx)
    rw [hs] at hfirst ⊢
    have hsign := hmov.2.2 hs
    rw [hy, List.head?_cons, ne_eq, Option.some.injEq] at hsign
    exact hfirst.resolve_right hsign
  · exact absurd hs hmov.2.1

/-! ### Any request -/

/-- What a message shows: its bytes, the type and the number of arguments, the flags, and the bytes
between the two pointers of each key. -/
structure McReqView where
  bytes : List Byte
  type : MsgType
  narg : ℕ
  noreply : Bool
  quit : Bool
  keys : List (Option (List Byte))
  deriving DecidableEq, Repr

/-- What a message with these buffers and registers shows. -/
def mcReqView (mhdr : List Mbuf) (r : TokRegs McReqCore) : McReqView :=
  { bytes := content mhdr, type := r.core.type, narg := r.core.narg, noreply := r.core.noreply
    quit := r.core.quit, keys := r.keys.map (keyBytes mhdr) }

/-- What the result of the machine shows. -/
def mcOutView (bytes : List Byte) (o : TokScan McReqCore) : McReqView :=
  { bytes := bytes, type := o.core.type, narg := o.core.narg, noreply := o.core.noreply
    quit := o.core.quit, keys := o.keys.map some }

theorem mcReqView_eq {mhdr : List Mbuf} {r : TokRegs McReqCore} {bytes : List Byte}
    {o : TokScan McReqCore} (hbytes : content mhdr = bytes)
    (h : TokOutRel memcacheReq McReqCore.Same (fun _ => False) mhdr o r) :
    mcReqView mhdr r = mcOutView bytes o := by
  obtain ⟨k, hk, hr⟩ := h.core
  have hfields : o.core.type = k.type ∧ o.core.narg = k.narg ∧ o.core.noreply = k.noreply ∧
      o.core.quit = k.quit := by
    rcases hk with rfl | ⟨-, hk⟩
    · exact ⟨rfl, rfl, rfl, rfl⟩
    · have htype := congrArg McReqCore.type hk
      have hnarg := congrArg McReqCore.narg hk
      have hnoreply := congrArg McReqCore.noreply hk
      have hquit := congrArg McReqCore.quit hk
      exact ⟨htype, hnarg, hnoreply, hquit⟩
  obtain ⟨htype, hnarg, hnoreply, hquit⟩ := hfields
  simp only [mcReqView, mcOutView, hbytes, h.keys, hr, htype, hnarg, hnoreply, hquit]
  rfl

/-- Blanks at the end of the line. -/
theorem run_blanks {a : TokScan McReqCore} (hs : a.core.state = .runtoCrlf) (htok : a.tok = [])
    (n : ℕ)
    (xs : List Byte) :
    memcacheReq.machine.run a (List.replicate n SP ++ xs) = memcacheReq.machine.run a xs := by
  induction n with
  | zero => rfl
  | succ n ih =>
    have hact : memcacheReq.act a.core a.opened SP = .next a.core .keep false false := by
      change memcacheReqAct a.core a.opened SP = _
      simp only [memcacheReqAct, hs, McReqCore.runtoCrlfCase, if_true]
      exact McReqCore.goto_state hs
    have hstep : memcacheReq.machine.step a SP = .more a := by
      rw [TokenParser.machine_step_next hact, TokenMove.bytes, if_pos htok, ← htok]
      rfl
    rw [List.replicate_succ, List.cons_append, ByteMachine.run_cons_more hstep, ih]

/-- `delete k`, with `n` more blanks behind the key, when the line is read. -/
def deleteBlanks (n : ℕ) : List Byte := str "delete k " ++ List.replicate n SP

/-- The state then. -/
def deleteState : TokScan McReqCore :=
  { core := { state := .runtoCrlf, type := .reqMcDelete, narg := 2 }, keys := [str "k"] }

theorem run_deleteBlanks (n : ℕ) (xs : List Byte) :
    memcacheReq.machine.run memcacheReq.machine.init (deleteBlanks n ++ xs) =
      memcacheReq.machine.run deleteState xs := by
  have hhead : memcacheReq.machine.run memcacheReq.machine.init (str "delete k ") =
    .more deleteState := by
    decide +kernel
  rw [deleteBlanks, List.append_assoc, ByteMachine.run_append_more hhead, run_blanks rfl rfl]

/-- A request with the word `noreply` around the offset 464. -/
def cutNoreply : List Byte := deleteBlanks 451 ++ str "noreply" ++ [CR, LF]

end CacheProxy
