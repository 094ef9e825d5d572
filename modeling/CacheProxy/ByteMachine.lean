/-
**Machines that read a stream of bytes.**

A parser that is fed a stream in pieces is specified by a machine that takes the bytes one at a
time: after each byte it goes on, has a result, or has failed.  While it is inside a *token* (a
piece of the input that has to be looked at as a whole) the machine can say which bytes of the
token it has seen, and it can be rewound to the token's first byte.

Main definitions:

* `ByteMachine`, `ByteMachine.run` — a machine and its run over a list of bytes;
* `ByteMachine.Leads` — a run that goes on through every byte, all states on the way being fine;
* `ByteMachine.Accepts` — a run that has its result exactly at the last byte;
* `ByteMachine.Rejects` — a run that fails at some byte;
* `ByteMachine.Tokenizes` — the step condition that makes rewinding right;
* `ByteMachine.buffered` — the machine behind buffers of a fixed size;
* `ByteMachine.Reaches`, `ByteMachine.FullAt` — how far its buffers are filled.

Main results:

* `ByteMachine.Accepts.of_leads`, `ByteMachine.Accepts.split` — runs compose and decompose;
* `ByteMachine.Leads.rewind` — **rewinding gives back the state before the token's first byte**;
* `ByteMachine.Leads.buffered`, `ByteMachine.Accepts.buffered` — where rewinding is right,
  buffers make no difference.
-/

import CacheProxy.Decimal
import Mathlib.Data.List.Induction

/-- What a machine does with a byte. -/
inductive Next (α ω : Type) where
  /-- the machine goes on in state `a` -/
  | more (a : α)
  /-- the byte was the last of a frame, whose result is `o` -/
  | done (o : ω)
  /-- the input is malformed -/
  | fail
  deriving DecidableEq

/-- **A machine that reads bytes**, with the bytes of its open token (`[]` when no token is open)
and the state it had before the first of them. -/
structure ByteMachine (α ω : Type) where
  init : α
  step : α → Byte → Next α ω
  token : α → List Byte
  rewind : α → α

/-- The outcome of a run. -/
inductive Outcome (α ω : Type) where
  /-- all bytes are read and the machine is in state `a` -/
  | more (a : α)
  /-- a frame ended; `rest` is unread -/
  | done (o : ω) (rest : List Byte)
  | fail
  deriving DecidableEq

namespace ByteMachine

variable {α ω : Type} (M : ByteMachine α ω) {ok : α → Prop}

/-! ### Runs -/

/-- The run from state `a` over a list of bytes, up to the end of a frame. -/
def run : α → List Byte → Outcome α ω
  | a, [] => .more a
  | a, c :: cs =>
      match M.step a c with
      | .more a' => run a' cs
      | .done o => .done o cs
      | .fail => .fail

@[simp] theorem run_nil (a : α) : M.run a [] = .more a := rfl

theorem run_cons (a : α) (c : Byte) (cs : List Byte) :
    M.run a (c :: cs) =
      match M.step a c with
      | .more a' => M.run a' cs
      | .done o => .done o cs
      | .fail => .fail := rfl

variable {M}

theorem run_cons_more {a a' : α} {c : Byte} (h : M.step a c = .more a') (cs : List Byte) :
    M.run a (c :: cs) = M.run a' cs := by
  rw [run_cons, h]

theorem run_cons_done {a : α} {o : ω} {c : Byte} (h : M.step a c = .done o) (cs : List Byte) :
    M.run a (c :: cs) = .done o cs := by
  rw [run_cons, h]

theorem run_cons_fail {a : α} {c : Byte} (h : M.step a c = .fail) (cs : List Byte) :
    M.run a (c :: cs) = .fail := by
  rw [run_cons, h]

theorem run_append_more {a a' : α} {xs : List Byte} (h : M.run a xs = .more a') (ys : List Byte) :
    M.run a (xs ++ ys) = M.run a' ys := by
  induction xs generalizing a with
  | nil =>
      cases h
      rfl
  | cons c cs ih =>
      rw [run_cons] at h
      rw [List.cons_append, run_cons]
      split at h
      · exact ih h
      · cases h
      · cases h

theorem run_append_fail {a : α} {xs : List Byte} (h : M.run a xs = .fail) (ys : List Byte) :
    M.run a (xs ++ ys) = .fail := by
  induction xs generalizing a with
  | nil => cases h
  | cons c cs ih =>
      rw [run_cons] at h
      rw [List.cons_append, run_cons]
      split at h
      · exact ih h
      · cases h
      · rfl

variable (M)

/-! ### Runs that go on -/

/-- `M.Leads ok a xs a'`: reading `xs` takes the machine from `a` to `a'`, and every state in
which it takes a byte is `ok`. -/
def Leads (ok : α → Prop) : α → List Byte → α → Prop
  | a, [], a' => a = a'
  | a, c :: cs, a' => ok a ∧ ∃ a₁, M.step a c = .more a₁ ∧ Leads ok a₁ cs a'

variable {M}

@[simp] theorem leads_nil {a a' : α} : M.Leads ok a [] a' ↔ a = a' := Iff.rfl

theorem leads_cons {a a' : α} {c : Byte} {cs : List Byte} :
    M.Leads ok a (c :: cs) a' ↔ ok a ∧ ∃ a₁, M.step a c = .more a₁ ∧ M.Leads ok a₁ cs a' :=
  Iff.rfl

theorem Leads.cons {a a₁ a' : α} {c : Byte} {cs : List Byte} (hok : ok a)
    (h : M.step a c = .more a₁) (ht : M.Leads ok a₁ cs a') : M.Leads ok a (c :: cs) a' :=
  ⟨hok, a₁, h, ht⟩

theorem Leads.single {a a' : α} {c : Byte} (hok : ok a) (h : M.step a c = .more a') :
    M.Leads ok a [c] a' :=
  ⟨hok, a', h, rfl⟩

theorem leads_append {a a' : α} {xs ys : List Byte} :
    M.Leads ok a (xs ++ ys) a' ↔ ∃ b, M.Leads ok a xs b ∧ M.Leads ok b ys a' := by
  induction xs generalizing a with
  | nil => simp
  | cons c cs ih =>
      simp only [List.cons_append, leads_cons, ih]
      constructor
      · rintro ⟨hok, a₁, hstep, b, hb, ht⟩
        exact ⟨b, ⟨hok, a₁, hstep, hb⟩, ht⟩
      · rintro ⟨b, ⟨hok, a₁, hstep, hb⟩, ht⟩
        exact ⟨hok, a₁, hstep, b, hb, ht⟩

theorem Leads.trans {a b a' : α} {xs ys : List Byte} (h : M.Leads ok a xs b)
    (h' : M.Leads ok b ys a') : M.Leads ok a (xs ++ ys) a' :=
  leads_append.2 ⟨b, h, h'⟩

/-- Reading on after a run that went on. -/
theorem Leads.run_append {a a' : α} {xs : List Byte} (h : M.Leads ok a xs a') (ys : List Byte) :
    M.run a (xs ++ ys) = M.run a' ys := by
  induction xs generalizing a with
  | nil => rw [leads_nil.1 h, List.nil_append]
  | cons c cs ih =>
      obtain ⟨-, a₁, hstep, ht⟩ := h
      rw [List.cons_append, run_cons_more hstep, ih ht]

theorem Leads.run_eq {a a' : α} {xs : List Byte} (h : M.Leads ok a xs a') :
    M.run a xs = .more a' := by
  rw [← List.append_nil xs, h.run_append, run_nil]

/-- Two states in which the first byte has the same effect go on alike. -/
theorem Leads.of_step_eq {a b a' : α} {c : Byte} {cs : List Byte} (h : M.Leads ok b (c :: cs) a')
    (hok : ok a) (hstep : M.step a c = M.step b c) : M.Leads ok a (c :: cs) a' :=
  ⟨hok, hstep ▸ h.2⟩

theorem Leads.unique {a a' a'' : α} {xs : List Byte} (h : M.Leads ok a xs a')
    (h' : M.Leads ok a xs a'') : a' = a'' := by
  have := h.run_eq.symm.trans h'.run_eq
  cases this
  rfl

theorem Leads.mono {ok' : α → Prop} (hok : ∀ a, ok a → ok' a) {a a' : α} {xs : List Byte}
    (h : M.Leads ok a xs a') : M.Leads ok' a xs a' := by
  induction xs generalizing a with
  | nil => exact h
  | cons c cs ih =>
      obtain ⟨ha, a₁, hstep, ht⟩ := h
      exact ⟨hok a ha, a₁, hstep, ih ht⟩

/-! ### Runs that end a frame -/

variable (M)

/-- `M.Accepts ok a xs o`: the machine reads `xs` from `a` and has the result `o` at its last
byte; every state on the way is `ok`. -/
def Accepts (ok : α → Prop) : α → List Byte → ω → Prop
  | _, [], _ => False
  | a, c :: cs, o => ok a ∧
      ((∃ a₁, M.step a c = .more a₁ ∧ Accepts ok a₁ cs o) ∨ (M.step a c = .done o ∧ cs = []))

variable {M}

theorem Accepts.ne_nil {a : α} {xs : List Byte} {o : ω} (h : M.Accepts ok a xs o) : xs ≠ [] := by
  rintro rfl
  exact h

theorem Accepts.last {a : α} {c : Byte} {o : ω} (hok : ok a) (h : M.step a c = .done o) :
    M.Accepts ok a [c] o :=
  ⟨hok, .inr ⟨h, rfl⟩⟩

/-- Two states in which the first byte has the same effect accept the same. -/
theorem Accepts.of_step_eq {a b : α} {c : Byte} {cs : List Byte} {o : ω}
    (h : M.Accepts ok b (c :: cs) o) (hok : ok a) (hstep : M.step a c = M.step b c) :
    M.Accepts ok a (c :: cs) o :=
  ⟨hok, hstep ▸ h.2⟩

theorem Accepts.ok_start {a : α} {xs : List Byte} {o : ω} (h : M.Accepts ok a xs o) : ok a := by
  cases xs with
  | nil => exact h.elim
  | cons => exact h.1

theorem Accepts.of_leads {a a' : α} {xs ys : List Byte} {o : ω} (h : M.Leads ok a xs a')
    (h' : M.Accepts ok a' ys o) : M.Accepts ok a (xs ++ ys) o := by
  induction xs generalizing a with
  | nil => rwa [leads_nil.1 h, List.nil_append]
  | cons c cs ih =>
      obtain ⟨hok, a₁, hstep, ht⟩ := h
      exact ⟨hok, .inl ⟨a₁, hstep, ih ht⟩⟩

/-- A frame cut before its end: the first piece leads on, the second is accepted from there. -/
theorem Accepts.split {a : α} {xs ys : List Byte} {o : ω} (h : M.Accepts ok a (xs ++ ys) o)
    (hys : ys ≠ []) : ∃ a', M.Leads ok a xs a' ∧ M.Accepts ok a' ys o := by
  induction xs generalizing a with
  | nil => exact ⟨a, rfl, h⟩
  | cons c cs ih =>
      obtain ⟨hok, ⟨a₁, hstep, ht⟩ | ⟨-, hnil⟩⟩ := h
      · obtain ⟨a', hl, ha⟩ := ih ht
        exact ⟨a', ⟨hok, a₁, hstep, hl⟩, ha⟩
      · exact absurd (List.append_eq_nil_iff.1 hnil).2 hys

theorem Accepts.run_append {a : α} {xs : List Byte} {o : ω} (h : M.Accepts ok a xs o)
    (ys : List Byte) : M.run a (xs ++ ys) = .done o ys := by
  induction xs generalizing a with
  | nil => exact h.elim
  | cons c cs ih =>
      obtain ⟨-, ⟨a₁, hstep, ht⟩ | ⟨hstep, rfl⟩⟩ := h
      · rw [List.cons_append, run_cons_more hstep, ih ht]
      · rw [List.cons_append, run_cons_done hstep, List.nil_append]

/-- A run that goes on, without a condition on the way. -/
theorem leads_of_run {a a' : α} {xs : List Byte} (h : M.run a xs = .more a') :
    M.Leads (fun _ => True) a xs a' := by
  induction xs generalizing a with
  | nil =>
      cases h
      rfl
  | cons c cs ih =>
      rw [run_cons] at h
      split at h
      · next a₁ hstep => exact ⟨trivial, a₁, hstep, ih h⟩
      · cases h
      · cases h

/-- A run that ends a frame with its last byte. -/
theorem accepts_of_run {a : α} {xs : List Byte} {o : ω} (h : M.run a xs = .done o []) :
    M.Accepts (fun _ => True) a xs o := by
  induction xs generalizing a with
  | nil => cases h
  | cons c cs ih =>
      rw [run_cons] at h
      split at h
      · next a₁ hstep => exact ⟨trivial, .inl ⟨a₁, hstep, ih h⟩⟩
      · next o' hstep =>
        cases h
        exact ⟨trivial, .inr ⟨hstep, rfl⟩⟩
      · cases h

/-- A frame that ended leaves a proper rest. -/
theorem run_done_rest {a : α} {xs rest : List Byte} {o : ω} (h : M.run a xs = .done o rest) :
    ∃ ys, ys ≠ [] ∧ xs = ys ++ rest := by
  induction xs generalizing a with
  | nil => cases h
  | cons c cs ih =>
      rw [run_cons] at h
      split at h
      · obtain ⟨ys, -, rfl⟩ := ih h
        exact ⟨c :: ys, by simp, rfl⟩
      · cases h
        exact ⟨[c], by simp, rfl⟩
      · cases h

/-! ### Runs that fail -/

variable (M)

/-- `M.Rejects ok a xs`: reading `xs` from `a` fails at some byte; every state on the way is
`ok`. -/
def Rejects (ok : α → Prop) (a : α) (xs : List Byte) : Prop :=
  ∃ ys c zs a', xs = ys ++ c :: zs ∧ M.Leads ok a ys a' ∧ ok a' ∧ M.step a' c = .fail

variable {M}

theorem Rejects.of_leads {a a' : α} {xs ys : List Byte} (h : M.Leads ok a xs a')
    (h' : M.Rejects ok a' ys) : M.Rejects ok a (xs ++ ys) := by
  obtain ⟨us, c, zs, a₁, rfl, hl, hok, hstep⟩ := h'
  exact ⟨xs ++ us, c, zs, a₁, by simp, h.trans hl, hok, hstep⟩

theorem Rejects.head {a : α} {c : Byte} {cs : List Byte} (hok : ok a) (h : M.step a c = .fail) :
    M.Rejects ok a (c :: cs) :=
  ⟨[], c, cs, a, rfl, rfl, hok, h⟩

theorem Rejects.of_step_eq {a b : α} {c : Byte} {cs : List Byte} (h : M.Rejects ok b (c :: cs))
    (hok : ok a) (hstep : M.step a c = M.step b c) : M.Rejects ok a (c :: cs) := by
  obtain ⟨us, d, zs, a', heq, hl, hok', hfail⟩ := h
  cases us with
  | nil =>
      cases heq
      cases leads_nil.1 hl
      exact .head hok (hstep.trans hfail)
  | cons u us =>
      cases heq
      obtain ⟨-, a₁, hs, ht⟩ := hl
      exact ⟨c :: us, d, zs, a', rfl, ⟨hok, a₁, hstep.trans hs, ht⟩, hok', hfail⟩

theorem Rejects.run_eq {a : α} {xs : List Byte} (h : M.Rejects ok a xs) : M.run a xs = .fail := by
  obtain ⟨us, c, zs, a', rfl, hl, -, hfail⟩ := h
  rw [hl.run_append, run_cons_fail hfail]

theorem Rejects.ne_nil {a : α} {xs : List Byte} (h : M.Rejects ok a xs) : xs ≠ [] := by
  obtain ⟨us, c, zs, _, rfl, -⟩ := h
  simp

/-- What has been read of rejected input: the machine goes on or has failed. -/
theorem Rejects.split {a : α} {xs ys : List Byte} (h : M.Rejects ok a (xs ++ ys)) :
    (∃ a', M.Leads ok a xs a' ∧ ok a' ∧ M.Rejects ok a' ys) ∨ M.run a xs = .fail := by
  obtain ⟨us, c, zs, a', heq, hl, hok, hfail⟩ := h
  rcases List.append_eq_append_iff.1 heq with ⟨vs, rfl, rfl⟩ | ⟨vs, rfl, hvs⟩
  · left
    obtain ⟨a₁, h₁, h₂⟩ := leads_append.1 hl
    refine ⟨a₁, h₁, ?_, vs, c, zs, a', rfl, h₂, hok, hfail⟩
    cases vs with
    | nil =>
        cases leads_nil.1 h₂
        exact hok
    | cons => exact h₂.1
  · cases vs with
    | nil =>
        left
        rw [List.append_nil]
        rw [List.nil_append] at hvs
        exact ⟨a', hl, hok, [], c, zs, a', hvs.symm, rfl, hok, hfail⟩
    | cons v vs =>
        right
        cases hvs
        rw [hl.run_append, run_cons_fail hfail]

/-! ### Tokens -/

/-- The step condition for tokens: a byte closes the open token, or it is added to it and, in the
states of `mov`, the state to rewind to is the one before the token's first byte. -/
def Tokenizes (M : ByteMachine α ω) (wf mov : α → Prop) : Prop :=
  ∀ a c a', wf a → M.step a c = .more a' →
    wf a' ∧ (M.token a' = [] ∨
      (M.token a' = M.token a ++ [c] ∧
        (mov a' → (M.token a ≠ [] → mov a) ∧
          M.rewind a' = if M.token a = [] then a else M.rewind a)))

/-- **Rewinding gives back the state before the token's first byte.** -/
theorem Leads.rewind {wf mov : α → Prop} (hM : M.Tokenizes wf mov) {a a' : α} {xs : List Byte}
    (hwf : wf a) (htok : M.token a = []) (h : M.Leads ok a xs a') :
    wf a' ∧ (M.token a' ≠ [] → mov a' →
      ∃ w, xs = w ++ M.token a' ∧ M.Leads ok a w (M.rewind a') ∧ M.token (M.rewind a') = []) := by
  induction xs using List.reverseRecOn generalizing a' with
  | nil =>
      cases leads_nil.1 h
      exact ⟨hwf, fun hne => absurd htok hne⟩
  | append_singleton xs c ih =>
      obtain ⟨a₁, h₁, hok, a₂, hstep, rfl⟩ := leads_append.1 h
      obtain ⟨hwf₁, hpast⟩ := ih h₁
      obtain ⟨hwf', hcase⟩ := hM a₁ c a₂ hwf₁ hstep
      refine ⟨hwf', fun hne hmov => ?_⟩
      rcases hcase with hnil | ⟨htok', hrew⟩
      · exact absurd hnil hne
      · obtain ⟨hback, hrew⟩ := hrew hmov
        by_cases ha : M.token a₁ = []
        · rw [hrew, if_pos ha]
          exact ⟨xs, by simp [htok', ha], h₁, ha⟩
        · obtain ⟨w, rfl, hw⟩ := hpast ha (hback ha)
          rw [hrew, if_neg ha]
          exact ⟨w, by simp [htok'], hw⟩

/-- The open token was read since no token was open. -/
theorem Leads.token_length_le {wf mov : α → Prop} (hM : M.Tokenizes wf mov) {a a' : α}
    {xs : List Byte} (hwf : wf a) (h : M.Leads ok a xs a') :
    (M.token a').length ≤ (M.token a).length + xs.length := by
  induction xs generalizing a with
  | nil =>
      cases leads_nil.1 h
      exact Nat.le_add_right _ _
  | cons c cs ih =>
      obtain ⟨-, a₁, hstep, ht⟩ := h
      obtain ⟨hwf₁, hcase⟩ := hM a c a₁ hwf hstep
      have hle := ih hwf₁ ht
      have hone : (M.token a₁).length ≤ (M.token a).length + 1 := by
        rcases hcase with hnil | ⟨happ, -⟩
        · simp [hnil]
        · simp [happ]
      rw [List.length_cons]
      omega

/-- What was read of the open token leads from the rewound state back. -/
theorem Leads.reread {wf mov : α → Prop} (hM : M.Tokenizes wf mov) {a a' : α} {xs : List Byte}
    (hwf : wf a) (htok : M.token a = []) (h : M.Leads ok a xs a') (hne : M.token a' ≠ [])
    (hmov : mov a') : M.Leads ok (M.rewind a') (M.token a') a' := by
  obtain ⟨w, rfl, hw, -⟩ := (h.rewind hM hwf htok).2 hne hmov
  obtain ⟨a₁, h₁, h₂⟩ := leads_append.1 h
  cases h₁.unique hw
  exact h₂

/-! ### Buffers

The machine reads its input from buffers of a fixed size.  When a buffer is full while a token is
open, the token is moved to a new buffer and read again from the rewound state. -/

variable (M)

/-- The state with room for a byte: `x.2` is the number of bytes in the buffer. -/
def refill (size : ℕ) (x : α × ℕ) : Next (α × ℕ) ω :=
  if x.2 < size then .more x
  else if M.token x.1 = [] then .more (x.1, 0)
  else
    match M.run (M.rewind x.1) (M.token x.1) with
    | .more a => .more (a, (M.token x.1).length)
    | .done _ _ => .fail
    | .fail => .fail

/-- **The machine behind buffers of `size` bytes.** -/
def buffered (size : ℕ) : ByteMachine (α × ℕ) ω where
  init := (M.init, 0)
  step x c :=
    match M.refill size x with
    | .more y =>
        match M.step y.1 c with
        | .more a => .more (a, y.2 + 1)
        | .done o => .done o
        | .fail => .fail
    | .done o => .done o
    | .fail => .fail
  token x := M.token x.1
  rewind x := (M.rewind x.1, 0)

/-- A state in which a full buffer does no harm to the bookkeeping: the open token does not fill a
whole buffer, and no frame ends while it is read again. -/
def Safe (size : ℕ) (x : α × ℕ) : Prop :=
  x.2 ≤ size ∧ (x.2 = size → M.token x.1 ≠ [] → (M.token x.1).length < size ∧
    ∀ o rest, M.run (M.rewind x.1) (M.token x.1) ≠ .done o rest)

/-- The outcome of a run in a buffer with `n` bytes at its end. -/
def withFill (n : ℕ) : Outcome α ω → Outcome (α × ℕ) ω
  | .more a => .more (a, n)
  | .done o rest => .done o rest
  | .fail => .fail

variable {M} {size n : ℕ}

theorem refill_room {a : α} (hn : n < size) : M.refill size (a, n) = .more (a, n) := by
  simp [refill, hn]

theorem refill_full {a : α} (htok : M.token a = []) : M.refill size (a, size) = .more (a, 0) := by
  simp [refill, htok]

theorem refill_token {a a' : α} (htok : M.token a ≠ [])
    (h : M.run (M.rewind a) (M.token a) = .more a') :
    M.refill size (a, size) = .more (a', (M.token a).length) := by
  simp [refill, htok, h]

theorem refill_fail {a : α} (htok : M.token a ≠ [])
    (h : M.run (M.rewind a) (M.token a) = .fail) : M.refill size (a, size) = .fail := by
  simp [refill, htok, h]

theorem buffered_step {x : α × ℕ} {a : α} (h : M.refill size x = .more (a, n)) (c : Byte) :
    (M.buffered size).step x c =
      match M.step a c with
      | .more a' => .more (a', n + 1)
      | .done o => .done o
      | .fail => .fail := by
  simp only [buffered, h]

/-- Two states that a refill makes the same take a byte alike. -/
theorem buffered_step_congr {x y : α × ℕ} (h : M.refill size x = M.refill size y) (c : Byte) :
    (M.buffered size).step x c = (M.buffered size).step y c := by
  simp only [buffered, h]

/-- Two states that a refill makes the same go on alike. -/
theorem buffered_run_congr {x y : α × ℕ} (h : M.refill size x = M.refill size y) {bs : List Byte}
    (hbs : bs ≠ []) : (M.buffered size).run x bs = (M.buffered size).run y bs := by
  obtain ⟨c, cs, rfl⟩ := List.exists_cons_of_ne_nil hbs
  rw [run_cons, run_cons, buffered_step_congr h]

/-- **In a buffer with room** the buffered machine reads as the machine does. -/
theorem buffered_run_room {a : α} {bs : List Byte} (h : n + bs.length ≤ size) :
    (M.buffered size).run (a, n) bs = withFill (n + bs.length) (M.run a bs) := by
  induction bs generalizing a n with
  | nil => rfl
  | cons c cs ih =>
      rw [List.length_cons] at h
      rw [run_cons, run_cons, buffered_step (refill_room (by omega))]
      cases M.step a c with
      | more =>
          rw [List.length_cons, show n + (cs.length + 1) = n + 1 + cs.length by omega]
          exact ih (by omega)
      | done | fail => rfl

/-- **When the open token was moved** the buffered machine reads as the machine does from the
rewound state. -/
theorem buffered_run_token {a : α} {bs : List Byte} (hsafe : M.Safe size (a, size))
    (htok : M.token a ≠ []) (hbs : bs ≠ []) (h : (M.token a).length + bs.length ≤ size) :
    (M.buffered size).run (a, size) bs =
      withFill ((M.token a).length + bs.length) (M.run (M.rewind a) (M.token a ++ bs)) := by
  obtain ⟨hlt, hnot⟩ := hsafe.2 rfl htok
  cases hrun : M.run (M.rewind a) (M.token a) with
  | more =>
      rw [run_append_more hrun, ← buffered_run_room h]
      exact buffered_run_congr (by rw [refill_token htok hrun, refill_room hlt]) hbs
  | done o rest => exact absurd hrun (hnot o rest)
  | fail =>
      obtain ⟨c, cs, rfl⟩ := List.exists_cons_of_ne_nil hbs
      rw [run_append_fail hrun, run_cons_fail]
      · rfl
      · simp only [buffered, refill_fail htok hrun]

theorem safe_room {a : α} (hn : n < size) : M.Safe size (a, n) :=
  ⟨hn.le, fun hfull => absurd hfull (Nat.ne_of_lt hn)⟩

/-- A run in a buffer with room for all of it. -/
theorem Leads.buffered_room {a a' : α} {xs : List Byte} (h : M.Leads ok a xs a')
    (hroom : n + xs.length ≤ size) :
    (M.buffered size).Leads (M.Safe size) (a, n) xs (a', n + xs.length) := by
  induction xs generalizing a n with
  | nil =>
      cases leads_nil.1 h
      rfl
  | cons c cs ih =>
      obtain ⟨-, a₁, hstep, ht⟩ := h
      rw [List.length_cons] at hroom ⊢
      have hlt : n < size := by omega
      refine ⟨safe_room hlt, (a₁, n + 1), ?_, ?_⟩
      · rw [buffered_step (refill_room hlt), hstep]
      · rw [show n + (cs.length + 1) = n + 1 + cs.length by omega]
        exact ih ht (by omega)

/-- A run without tokens fills one buffer after the other. -/
theorem Leads.buffered_closed {a a' : α} {xs : List Byte}
    (h : M.Leads (fun a => M.token a = []) a xs a') (hpos : 0 < size) (hn : n ≤ size) :
    ∃ m ≤ size, (M.buffered size).Leads (M.Safe size) (a, n) xs (a', m) ∧
      m % size = (n + xs.length) % size := by
  induction xs generalizing a n with
  | nil => exact ⟨n, hn, by rw [leads_nil.1 h]; rfl, rfl⟩
  | cons c cs ih =>
      obtain ⟨htok, a₁, hstep, ht⟩ := h
      have hsafe : M.Safe size (a, n) := ⟨hn, fun _ hne => absurd htok hne⟩
      rcases Nat.lt_or_ge n size with hroom | hfull
      · obtain ⟨m, hm, hl, hmod⟩ := ih (n := n + 1) ht hroom
        refine ⟨m, hm, ⟨hsafe, (a₁, n + 1), ?_, hl⟩, ?_⟩
        · rw [buffered_step (refill_room hroom), hstep]
        · rw [hmod, List.length_cons]
          congr 1
          omega
      · cases Nat.le_antisymm hn hfull
        obtain ⟨m, hm, hl, hmod⟩ := ih (n := 0 + 1) ht hpos
        refine ⟨m, hm, ⟨hsafe, (a₁, 0 + 1), ?_, hl⟩, ?_⟩
        · rw [buffered_step (refill_full htok), hstep]
        · rw [hmod, List.length_cons, Nat.add_comm size, Nat.add_mod_right]
          congr 1
          omega

/-- A frame whose states have no token, wherever it begins in a buffer. -/
theorem Accepts.buffered_closed {a : α} {xs : List Byte} {o : ω}
    (h : M.Accepts (fun a => M.token a = []) a xs o) (hpos : 0 < size) (hn : n ≤ size) :
    (M.buffered size).Accepts (M.Safe size) (a, n) xs o := by
  obtain ⟨ys, c, rfl⟩ : ∃ ys c, xs = ys ++ [c] :=
    ⟨_, _, (List.dropLast_append_getLast h.ne_nil).symm⟩
  obtain ⟨a', hl, htok, hlast⟩ := h.split (List.cons_ne_nil c [])
  obtain ⟨m, hle, hm, -⟩ := hl.buffered_closed hpos hn
  have hdone : M.step a' c = .done o := by
    rcases hlast with ⟨_, -, hnil⟩ | ⟨hdone, -⟩
    · exact hnil.elim
    · exact hdone
  obtain ⟨k, hk⟩ : ∃ k, M.refill size (a', m) = .more (a', k) := by
    rcases Nat.lt_or_ge m size with hroom | hfull
    · exact ⟨m, refill_room hroom⟩
    · cases Nat.le_antisymm hle hfull
      exact ⟨0, refill_full htok⟩
  refine Accepts.of_leads hm (Accepts.last ⟨hle, fun _ hne => absurd htok hne⟩ ?_)
  rw [buffered_step hk, hdone]

section Lift

variable {wf mov : α → Prop} (hM : M.Tokenizes wf mov)
  (hok : ∀ a, ok a → (M.token a).length < size ∧ mov a) {a : α} (hwf : wf a) (htok : M.token a = [])

include hM hok hwf htok

/-- Where a token can be moved there is room for the next byte, in the same buffer or in a new
one, and the machine goes on in the same state. -/
theorem Leads.refill {a' : α} {xs : List Byte} (h : M.Leads ok a xs a') (hok' : ok a')
    (hn : n ≤ size) :
    M.Safe size (a', n) ∧ ∃ k < size, M.refill size (a', n) = .more (a', k) := by
  obtain ⟨hlt, hmov⟩ := hok a' hok'
  have hre : M.token a' ≠ [] → M.run (M.rewind a') (M.token a') = .more a' := fun hne =>
    (h.reread hM hwf htok hne hmov).run_eq
  constructor
  · refine ⟨hn, fun _ hne => ⟨hlt, fun o rest heq => ?_⟩⟩
    rw [hre hne] at heq
    cases heq
  · rcases Nat.lt_or_ge n size with hroom | hfull
    · exact ⟨n, hroom, refill_room hroom⟩
    · cases Nat.le_antisymm hn hfull
      by_cases hne : M.token a' = []
      · exact ⟨0, by omega, refill_full hne⟩
      · exact ⟨(M.token a').length, hlt, refill_token hne (hre hne)⟩

/-- **A run through states in which tokens can be moved** is a run of the buffered machine. -/
theorem Leads.buffered {a' : α} {xs : List Byte} (h : M.Leads ok a xs a') (hn : n ≤ size) :
    ∃ m ≤ size, (M.buffered size).Leads (M.Safe size) (a, n) xs (a', m) := by
  induction xs using List.reverseRecOn generalizing a' with
  | nil => exact ⟨n, hn, by rw [leads_nil.1 h]; rfl⟩
  | append_singleton xs c ih =>
      obtain ⟨a₁, h₁, hok₁, a₂, hstep, rfl⟩ := leads_append.1 h
      obtain ⟨m, hle, hm⟩ := ih h₁
      obtain ⟨hsafe, k, hk, hfill⟩ := h₁.refill hM hok hwf htok hok₁ hle
      refine ⟨k + 1, hk, hm.trans (.single hsafe ?_)⟩
      rw [buffered_step hfill, hstep]

theorem Accepts.buffered {xs : List Byte} {o : ω} (h : M.Accepts ok a xs o) (hn : n ≤ size) :
    (M.buffered size).Accepts (M.Safe size) (a, n) xs o := by
  obtain ⟨ys, c, rfl⟩ : ∃ ys c, xs = ys ++ [c] :=
    ⟨_, _, (List.dropLast_append_getLast h.ne_nil).symm⟩
  obtain ⟨a', hl, hok', hlast⟩ := h.split (List.cons_ne_nil c [])
  obtain ⟨m, hle, hm⟩ := hl.buffered hM hok hwf htok hn
  obtain ⟨hsafe, k, hk, hfill⟩ := hl.refill hM hok hwf htok hok' hle
  refine .of_leads hm (.last hsafe ?_)
  rw [buffered_step hfill]
  rcases hlast with ⟨_, _, hnil⟩ | ⟨hstep, -⟩
  · exact absurd rfl hnil.ne_nil
  · rw [hstep]

end Lift

section Relation

/-! A token that was read again need not lead to the same state: it is enough that the machine goes
on alike from there, which a relation `R` says. -/

variable {ok mov : α → Prop} {R : α → α → Prop}
  (hmore : ∀ {a b a' : α} {c : Byte}, R a b → ok a → M.step a c = .more a' →
    ∃ b', M.step b c = .more b' ∧ R a' b')
  (hdone : ∀ {a b : α} {c : Byte} {o : ω}, R a b → ok a → M.step a c = .done o →
    M.step b c = .done o)
  (hre : ∀ {a b : α}, R a b → ok a → mov b → M.token b ≠ [] → (M.token b).length < size →
    ∃ b', M.run (M.rewind b) (M.token b) = .more b' ∧ R a b')

include hre

/-- Room for the next byte, in a state that goes on alike. -/
theorem refill_rel {a b : α} (hpos : 0 < size) (hR : R a b) (hok : ok a) (hn : n ≤ size)
    (hfull : n = size → M.token b ≠ [] → mov b ∧ (M.token b).length < size) :
    M.Safe size (b, n) ∧ ∃ b' k, k < size ∧ M.refill size (b, n) = .more (b', k) ∧ R a b' := by
  rcases Nat.lt_or_ge n size with hroom | hge
  · exact ⟨safe_room hroom, b, n, hroom, refill_room hroom, hR⟩
  · cases Nat.le_antisymm hn hge
    by_cases htok : M.token b = []
    · exact ⟨⟨hn, fun _ hne => absurd htok hne⟩, b, 0, hpos, refill_full htok, hR⟩
    · obtain ⟨hmov, hlt⟩ := hfull rfl htok
      obtain ⟨b', hrun, hR'⟩ := hre hR hok hmov htok hlt
      refine ⟨⟨hn, fun _ _ => ⟨hlt, fun o rest heq => ?_⟩⟩, b', _, hlt, refill_token htok hrun, hR'⟩
      rw [hrun] at heq
      cases heq

include hmore hdone

/-- **A frame is accepted behind buffers** if tokens can be moved wherever a buffer is full. -/
theorem Accepts.buffered_rel {xs : List Byte} {o : ω} (hpos : 0 < size) :
    ∀ {a b : α} {n : ℕ}, R a b → M.Accepts ok a xs o → n ≤ size →
      (∀ ys zs a' b', xs = ys ++ zs → zs ≠ [] → ok a' → R a' b' →
        (M.buffered size).Leads (M.Safe size) (b, n) ys (b', size) → M.token b' ≠ [] →
          mov b' ∧ (M.token b').length < size) →
      (M.buffered size).Accepts (M.Safe size) (b, n) xs o := by
  induction xs with
  | nil => exact fun _ h => h.elim
  | cons c cs ih =>
    intro a b n hR h hn hfull
    have hok := h.ok_start
    obtain ⟨hsafe, b₁, k, hk, hfill, hR₁⟩ := refill_rel hre hpos hR hok hn fun hz htok => by
      subst hz
      exact hfull [] (c :: cs) a b rfl (by simp) hok hR rfl htok
    refine ⟨hsafe, ?_⟩
    rw [buffered_step hfill]
    rcases h.2 with ⟨a₁, hstep, hacc⟩ | ⟨hstep, rfl⟩
    · obtain ⟨b₂, hstep₂, hR₂⟩ := hmore hR₁ hok hstep
      left
      refine ⟨(b₂, k + 1), by rw [hstep₂],
        ih hR₂ hacc hk fun ys zs a' b' heq hzs hok' hR' hl htok => ?_⟩
      refine hfull (c :: ys) zs a' b' (by rw [heq]; rfl) hzs hok' hR'
        ⟨hsafe, (b₂, k + 1), ?_, hl⟩ htok
      rw [buffered_step hfill, hstep₂]
    · exact .inr ⟨by rw [hdone hR₁ hok hstep], rfl⟩

end Relation

/-! ### Where buffers are full -/

/-- **After the bytes `u`** the machine behind buffers is in the state `a`, with `n` bytes in the
last buffer; when this is full it may have been replaced. -/
def Reaches (M : ByteMachine α ω) (size : ℕ) (u : List Byte) (n : ℕ) (a : α) : Prop :=
  ∃ x, (M.buffered size).run (M.init, 0) u = .more x ∧
    (x = (a, n) ∨ n < size ∧ M.refill size x = .more (a, n))

/-- A buffer is full behind the bytes `u`, in the state `a`. -/
def FullAt (M : ByteMachine α ω) (size : ℕ) (u : List Byte) (a : α) : Prop :=
  (M.buffered size).run (M.init, 0) u = .more (a, size)

variable {u : List Byte} {a a' : α} {c : Byte}

theorem reaches_init : M.Reaches size [] 0 M.init := ⟨_, rfl, .inl rfl⟩

theorem Reaches.step (h : M.Reaches size u n a) (hn : n < size) (hstep : M.step a c = .more a') :
    (M.buffered size).run (M.init, 0) (u ++ [c]) = .more (a', n + 1) := by
  obtain ⟨x, hrun, hx⟩ := h
  have hfill : M.refill size x = .more (a, n) := by
    rcases hx with rfl | ⟨-, hfill⟩
    · exact refill_room hn
    · exact hfill
  rw [run_append_more hrun, run_cons, buffered_step hfill, hstep]
  rfl

theorem Reaches.fullAt (h : M.Reaches size u size a) : M.FullAt size u a := by
  obtain ⟨x, hrun, rfl | ⟨hlt, -⟩⟩ := h
  · exact hrun
  · exact absurd hlt (lt_irrefl _)

theorem Reaches.fresh (h : M.Reaches size u size a) (htok : M.token a = []) :
    M.Reaches size u 0 a := by
  by_cases hpos : 0 < size
  · exact ⟨_, h.fullAt, .inr ⟨hpos, refill_full htok⟩⟩
  · obtain rfl : size = 0 := by omega
    exact h

theorem Reaches.moved (h : M.Reaches size u size a) (htok : M.token a ≠ [])
    (hlen : (M.token a).length < size) (hrun : M.run (M.rewind a) (M.token a) = .more a') :
    M.Reaches size u (M.token a).length a' := ⟨_, h.fullAt, .inr ⟨hlen, refill_token htok hrun⟩⟩

/-- Fewer bytes than a buffer takes do not fill one. -/
theorem not_fullAt_of_length (h : u.length < size) : ¬M.FullAt size u a := by
  intro hfull
  rw [FullAt, buffered_run_room (by omega)] at hfull
  cases hrun : M.run M.init u with
  | more =>
      rw [hrun] at hfull
      cases hfull
      omega
  | done =>
      rw [hrun] at hfull
      cases hfull
  | fail =>
      rw [hrun] at hfull
      cases hfull

end ByteMachine
