/-
**Parsers that keep a token.**

A line protocol is parsed one byte at a time.  The parser has a switch over its state, a pointer
`token` to the first byte of what it is reading, which it sets, keeps or clears at each byte, the
pointers to the keys it has found, and a pointer `mark` to a token that a later step needs; only
bytes that are not looked at are passed over in one go.  What it does at a byte depends on its other
registers, the *core*, and on the bytes of the open token.

Such a parser is given by the action at each byte.  The action has two readings: on offsets into a
buffer, which is the parser of the source, and on bytes, which is a byte machine.  The first
simulates the second, whatever the actions are.

Main definitions:

* `Act`, `TokenParser` — an action, and the actions of a parser;
* `TokenParser.parser`, `TokenParser.machine` — the two readings;
* `TokenParser.Laws` — what the actions have to respect;
* `TokRelAt` — registers that stand for a state of the machine.

Main results:

* `TokenParser.step_sim` — one iteration of the loop;
* `TokenParser.sim` — **the parser simulates the machine**.
-/

import CacheProxy.Framing
import CacheProxy.Scanner

namespace CacheProxy

/-! ### Actions -/

/-- What happens to the pointer `token`. -/
inductive TokenMove where
  | keep
  | set
  | clear
  deriving DecidableEq, Repr

/-- The pointer behind the byte at `p`. -/
def TokenMove.offset (m : TokenMove) (token : Option ℕ) (p : ℕ) : Option ℕ :=
  match m with
  | .keep => token
  | .set => some p
  | .clear => none

/-- The open token behind the byte `c`. -/
def TokenMove.bytes (m : TokenMove) (tok : List Byte) (c : Byte) : List Byte :=
  match m with
  | .keep => if tok = [] then [] else tok ++ [c]
  | .set => [c]
  | .clear => []

/-- **What a parser does at a byte.** -/
inductive Act (κ : Type) where
  /-- go on with the next byte; `key` says that the open token is a key, `mark` that it is marked -/
  | next (core : κ) (move : TokenMove) (key mark : Bool)
  /-- pass over `n` bytes, of which `left` counts the rest, and look at the byte behind them -/
  | skip (n : ℕ) (left : ℕ → κ) (got : Byte → Option κ)
  | done
  | error

/-- **A parser**, given by its actions.  The second argument of `act` are the bytes of the open
token, `none` if there is none. -/
structure TokenParser (κ : Type) where
  init : κ
  act : κ → Option (List Byte) → Byte → Act κ
  /-- the registers when an open token is moved -/
  rewind : κ → κ
  /-- the registers when the message is complete -/
  finish : κ → κ

/-- The registers of a parser: pointers are offsets into the last mbuf. -/
structure TokRegs (κ : Type) where
  core : κ
  token : Option ℕ := none
  keys : List KeyPos := []
  mark : Option (ℕ × ℕ) := none
  deriving DecidableEq, Repr

/-- The state of the machine: the open token and the keys are bytes. -/
structure TokScan (κ : Type) where
  core : κ
  tok : List Byte := []
  keys : List (List Byte) := []
  deriving DecidableEq, Repr

/-- The open token, if there is one. -/
def TokScan.opened {κ : Type} (a : TokScan κ) : Option (List Byte) :=
  if a.tok = [] then none else some a.tok

namespace TokenParser

variable {κ : Type} (T : TokenParser κ)

/-- The body of the loop. -/
def step (_ : ℕ) (b : Mbuf) (p : ℕ) (ch : Byte) (r : TokRegs κ) : Flow (TokRegs κ) :=
  match T.act r.core (r.token.map fun t => slice b.data t p) ch with
  | .next core move key mark => .next p
      { core := core
        token := move.offset r.token p
        keys := if key then r.keys ++ [⟨b.id, r.token.getD p, p⟩] else r.keys
        mark := if mark then some (b.id, r.token.getD p) else r.mark }
  | .skip n left got =>
      if b.data.length ≤ p + n then
        .next (b.data.length - 1) { r with core := left (n - (b.data.length - p)) }
      else
        match b.data[p + n]?.bind got with
        | some core => .next (p + n) { r with core := core }
        | none => .error r
  | .done => .done p r
  | .error => .error r

/-- **The parser of the source.** -/
def parser : Parser (TokRegs κ) where
  init := { core := T.init }
  parse := scanParse T.step TokRegs.token
    (fun r => { r with core := T.rewind r.core, token := none })
    (fun r => { r with core := T.finish r.core, token := none })

/-- The step of the machine. -/
def scanStep (a : TokScan κ) (c : Byte) : Next (TokScan κ) (TokScan κ) :=
  match T.act a.core a.opened c with
  | .next core move key _ => .more
      { core := core
        tok := move.bytes a.tok c
        keys := if key then a.keys ++ [a.tok] else a.keys }
  | .skip n left got =>
      if 0 < n then .more { a with core := left (n - 1) }
      else
        match got c with
        | some core => .more { a with core := core }
        | none => .fail
  | .done => .done a
  | .error => .fail

/-- **The byte machine**; its result is the state before the last byte. -/
def machine : ByteMachine (TokScan κ) (TokScan κ) where
  init := { core := T.init }
  step := T.scanStep
  token := TokScan.tok
  rewind a := { a with core := T.rewind a.core, tok := [] }

variable {T} {a : TokScan κ} {c : Byte}

theorem machine_step_next {k : κ} {m : TokenMove} {key mark : Bool}
    (h : T.act a.core a.opened c = .next k m key mark) :
    T.machine.step a c = .more ⟨k, m.bytes a.tok c, if key then a.keys ++ [a.tok] else a.keys⟩ := by
  change T.scanStep a c = _
  rw [scanStep, h]

theorem machine_step_error (h : T.act a.core a.opened c = .error) : T.machine.step a c = .fail := by
  change T.scanStep a c = _
  rw [scanStep, h]

/-- A frame ends only by the action that says so. -/
theorem machine_step_eq_done {o : TokScan κ} (h : T.machine.step a c = .done o) :
    T.act a.core a.opened c = .done ∧ o = a := by
  change T.scanStep a c = _ at h
  unfold scanStep at h
  split at h
  · cases h
  · split at h
    · cases h
    · split at h <;> cases h
  · next hact =>
    cases h
    exact ⟨hact, rfl⟩
  · cases h

end TokenParser

/-! ### What the actions respect -/

/-- Actions that are the same but for registers that are not looked at. -/
def Act.Same {κ : Type} (S : κ → κ → Prop) : Act κ → Act κ → Prop
  | .next k m y x, .next k' m' y' x' => S k k' ∧ m = m' ∧ y = y' ∧ x = x'
  | .skip n l g, .skip n' l' g' =>
      n = n' ∧ (∀ j, S (l j) (l' j)) ∧ ∀ c, Option.Rel S (g c) (g' c)
  | .done, .done => True
  | .error, .error => True
  | _, _ => False

theorem Act.Same.refl {κ : Type} {S : κ → κ → Prop} (hS : ∀ k, S k k) (x : Act κ) : x.Same S x := by
  cases x with
  | next k => exact ⟨hS k, rfl, rfl, rfl⟩
  | skip n left got =>
    refine ⟨rfl, fun j => hS _, fun c => ?_⟩
    cases got c with
    | none => exact .none
    | some k => exact .some (hS k)
  | done => trivial
  | error => trivial

/-- **What the actions of a parser respect.**  `Same` relates cores that go on alike, `Closed` are
the cores without an open token, and `Marked` those for which the open token is marked. -/
structure TokenParser.Laws {κ : Type} (T : TokenParser κ) (Same : κ → κ → Prop)
    (Closed Marked : κ → Prop) : Prop where
  refl : ∀ k, Same k k
  symm : ∀ {k k'}, Same k k' → Same k' k
  trans : ∀ {k k' k''}, Same k k' → Same k' k'' → Same k k''
  act : ∀ {k k'} tok c, Same k k' → (T.act k tok c).Same Same (T.act k' tok c)
  /-- bytes that are passed over can be passed over one by one -/
  skip : ∀ {k tok c n left got}, T.act k tok c = .skip n left got → Closed k ∧ Same k (left n) ∧
    ∀ j, Closed (left j) ∧ ∀ c', (T.act (left j) none c').Same Same (.skip j left got)
  /-- what is passed over is not marked -/
  unmarked_skip : ∀ {k tok c n left got}, T.act k tok c = .skip n left got →
    (∀ k' j, Same k' (left j) → ¬ Marked k') ∧ ∀ c' k' k'', got c' = some k' → Same k'' k' →
    ¬ Marked k''
  closed : ∀ {k tok c k' m key mark}, T.act k tok c = .next k' m key mark →
    (Closed k → tok = none) → Closed k' → m = .clear ∨ m = .keep ∧ tok = none
  /-- a key is complete when the token ends -/
  key : ∀ {k tok c k' m mark}, T.act k tok c = .next k' m true mark → m ≠ .keep
  marked : ∀ {k tok c k' m key mark}, T.act k tok c = .next k' m key mark → Marked k' →
    m = .keep ∧ tok ≠ none ∧ (mark = true ∨ Marked k)
  rewind : ∀ {k k'}, Same k k' → Same (T.rewind k) (T.rewind k')
  unmarked : ∀ k, ¬ Marked (T.rewind k)
  start : ¬ Marked T.init

/-- **The registers `r` of a message with the buffers `pre ++ [b]`, parsed up to offset `p` of `b`,
stand for the state `a`.** -/
structure TokRelAt {κ : Type} (Same : κ → κ → Prop) (Closed Marked : κ → Prop) (pre : List Mbuf)
    (b : Mbuf) (p : ℕ) (a : TokScan κ) (r : TokRegs κ) : Prop where
  fresh : ∀ x ∈ pre, x.id ≠ b.id
  core : Same a.core r.core
  closed : Closed a.core → a.tok = []
  token : r.token = if a.tok = [] then none else some (p - a.tok.length)
  tok_le : a.tok.length ≤ p
  tok_bytes : slice b.data (p - a.tok.length) p = a.tok
  keys : r.keys.map (keyBytes (pre ++ [b])) = a.keys.map some
  keys_le : ∀ k ∈ r.keys, k.mbuf = b.id → k.stop ≤ p - a.tok.length
  mark : Marked a.core → a.tok ≠ [] ∧ r.mark = some (b.id, p - a.tok.length)

/-- The registers of a complete message stand for the state before its last byte. -/
structure TokOutAt {κ : Type} (Same : κ → κ → Prop) (Marked : κ → Prop) (pre : List Mbuf) (b : Mbuf)
    (p : ℕ) (o : TokScan κ) (r : TokRegs κ) : Prop where
  core : Same o.core r.core
  keys : r.keys.map (keyBytes (pre ++ [b])) = o.keys.map some
  keys_le : ∀ k ∈ r.keys, k.mbuf = b.id → k.stop ≤ p
  tok_le : o.tok.length < p
  mark : Marked o.core → r.mark = some (b.id, p - 1 - o.tok.length)

section Steps

variable {κ : Type} {T : TokenParser κ} {Same : κ → κ → Prop} {Closed Marked : κ → Prop}
  {pre : List Mbuf} {b nb : Mbuf} {p : ℕ} {ch : Byte} {a a' : TokScan κ} {r : TokRegs κ}

theorem TokRelAt.opened (h : TokRelAt Same Closed Marked pre b p a r) :
    r.token.map (fun t => slice b.data t p) = a.opened := by
  rw [h.token, TokScan.opened]
  split
  · rfl
  · rw [Option.map_some, h.tok_bytes]

theorem TokRelAt.token_getD (h : TokRelAt Same Closed Marked pre b p a r) :
    r.token.getD p = p - a.tok.length := by
  rw [h.token]
  split
  · next htok => simp [htok]
  · rfl

/-- The key that ends before offset `p`. -/
theorem TokRelAt.key_bytes (h : TokRelAt Same Closed Marked pre b p a r) (hp : p ≤ b.data.length) :
    keyBytes (pre ++ [b]) ⟨b.id, p - a.tok.length, p⟩ = some a.tok := by
  rw [keyBytes_last h.fresh (Nat.sub_le _ _) hp, h.tok_bytes]

/-- **A byte that the parser goes on behind.** -/
theorem TokRelAt.next (h : TokRelAt Same Closed Marked pre b p a r) (hT : T.Laws Same Closed Marked)
    (hch : b.data[p]? = some ch) {k k' : κ} {m : TokenMove} {key mark : Bool}
    (hact : T.act a.core a.opened ch = .next k m key mark) (hsame : Same k k') :
    TokRelAt Same Closed Marked pre b (p + 1)
      { core := k
        tok := m.bytes a.tok ch
        keys := if key then a.keys ++ [a.tok] else a.keys }
      { core := k'
        token := m.offset r.token p
        keys := if key then r.keys ++ [⟨b.id, r.token.getD p, p⟩] else r.keys
        mark := if mark then some (b.id, r.token.getD p) else r.mark } := by
  have hp : p < b.data.length := (List.getElem?_eq_some_iff.1 hch).1
  have hle := h.tok_le
  have hone : slice b.data p (p + 1) = [ch] := by simp [slice_succ (Nat.le_refl p) hch]
  have hmore : slice b.data (p - a.tok.length) (p + 1) = a.tok ++ [ch] := by
    rw [slice_succ (Nat.sub_le _ _) hch, h.tok_bytes]
  have hkeys : ∀ x ∈ (if key then r.keys ++ [⟨b.id, r.token.getD p, p⟩] else r.keys),
      x.mbuf = b.id → x.stop ≤ if key then p else p - a.tok.length := by
    intro x hx hid
    cases key with
    | false => exact h.keys_le x hx hid
    | true =>
      rcases List.mem_append.1 hx with hx | hx
      · have := h.keys_le x hx hid
        simp only [if_true]
        omega
      · simp [List.mem_singleton.1 hx]
  refine
    { fresh := h.fresh
      core := hsame
      closed := fun hcl => ?_
      token := ?_
      tok_le := ?_
      tok_bytes := ?_
      keys := ?_
      keys_le := fun x hx hid => (hkeys x hx hid).trans ?_
      mark := fun hmk => ?_ }
  · have htok : Closed a.core → a.opened = none := fun hc => by simp [TokScan.opened, h.closed hc]
    rcases hT.closed hact htok hcl with rfl | ⟨rfl, hnone⟩
    · rfl
    · have hnil : a.tok = [] := by
        by_contra hne
        simp [TokScan.opened, hne] at hnone
      simp [hnil, TokenMove.bytes]
  · cases m with
    | clear => rfl
    | set => simp [TokenMove.offset, TokenMove.bytes]
    | keep =>
      change r.token = if TokenMove.keep.bytes a.tok ch = [] then none else
        some (p + 1 - (TokenMove.keep.bytes a.tok ch).length)
      by_cases hnil : a.tok = []
      · simp [hnil, h.token, TokenMove.bytes]
      · have hbytes : TokenMove.keep.bytes a.tok ch = a.tok ++ [ch] := if_neg hnil
        rw [hbytes, h.token, if_neg hnil, if_neg (by simp), List.length_append,
          List.length_singleton, Nat.add_sub_add_right]
  · cases m with
    | clear => exact Nat.zero_le _
    | set => simp [TokenMove.bytes]
    | keep =>
      simp only [TokenMove.bytes]
      split
      · exact Nat.zero_le _
      · simpa using hle
  · cases m with
    | clear => simp [TokenMove.bytes]
    | set => simpa [TokenMove.bytes] using hone
    | keep =>
      simp only [TokenMove.bytes]
      split
      · simp
      · rw [List.length_append, List.length_singleton, Nat.add_sub_add_right, hmore]
  · cases key with
    | false => exact h.keys
    | true => simp [h.keys, h.token_getD, h.key_bytes hp.le]
  · cases key with
    | true =>
      cases m with
      | keep => exact absurd rfl (hT.key hact)
      | set => simp [TokenMove.bytes]
      | clear => simp [TokenMove.bytes]
    | false =>
      cases m with
      | clear =>
        simp only [Bool.false_eq_true, if_false, TokenMove.bytes, List.length_nil]
        omega
      | set =>
        simp only [Bool.false_eq_true, if_false, TokenMove.bytes, List.length_singleton]
        omega
      | keep =>
        by_cases hnil : a.tok = []
        · simp [hnil, TokenMove.bytes]
        · simp only [Bool.false_eq_true, if_false, TokenMove.bytes, if_neg hnil, List.length_append,
            List.length_singleton]
          omega
  · obtain ⟨rfl, hopen, hor⟩ := hT.marked hact hmk
    have hnil : a.tok ≠ [] := fun hnil => hopen (by simp [TokScan.opened, hnil])
    simp only [TokenMove.bytes]
    rw [if_neg hnil, List.length_append, List.length_singleton, Nat.add_sub_add_right, h.token_getD]
    refine ⟨by simp, ?_⟩
    split
    · rfl
    · next hf => exact (h.mark (hor.resolve_left hf)).2

/-- Actions that are the same as ones that pass over bytes. -/
theorem Act.Same.skip {S : κ → κ → Prop} {x : Act κ} {n : ℕ} {left : ℕ → κ} {got : Byte → Option κ}
    (h : x.Same S (.skip n left got)) : ∃ left' got', x = .skip n left' got' ∧
      (∀ j, S (left' j) (left j)) ∧ ∀ c, Option.Rel S (got' c) (got c) := by
  cases x with
  | skip m l g =>
    obtain ⟨rfl, hl, hg⟩ := h
    exact ⟨l, g, rfl, hl, hg⟩
  | next | done | error => exact h.elim

/-- What follows from passing over bytes, for a core that goes on alike. -/
theorem TokenParser.Laws.act_skip (hT : T.Laws Same Closed Marked) {k k₀ : κ}
    {tok : Option (List Byte)}
    {c : Byte} {n j : ℕ} {left : ℕ → κ} {got : Byte → Option κ}
    (h : T.act k₀ tok c = .skip n left got) (hk : Same k (left j)) (c' : Byte) :
    ∃ left' got', T.act k none c' = .skip j left' got' ∧ (∀ i, Same (left' i) (left i)) ∧
      ∀ d, Option.Rel Same (got' d) (got d) := by
  obtain ⟨l₁, g₁, h₁, hl₁, hg₁⟩ := ((hT.skip h).2.2 j).2 c' |>.skip
  have hsame := hT.act none c' hk
  rw [h₁] at hsame
  obtain ⟨l₂, g₂, h₂, hl₂, hg₂⟩ := hsame.skip
  refine ⟨l₂, g₂, h₂, fun i => hT.trans (hl₂ i) (hl₁ i), fun d => ?_⟩
  have hd₁ := hg₁ d
  have hd₂ := hg₂ d
  cases hx : g₂ d <;> cases hy : g₁ d <;> cases hz : got d <;> rw [hx, hy] at hd₂ <;>
    rw [hy, hz] at hd₁ <;> cases hd₁ <;> cases hd₂
  · exact .none
  · next h1 h2 => exact .some (hT.trans h2 h1)

/-- **Bytes passed over one by one.** -/
theorem run_skip (hT : T.Laws Same Closed Marked) {k₀ : κ} {tok : Option (List Byte)} {c : Byte}
    {n : ℕ}
    {left : ℕ → κ} {got : Byte → Option κ} (h : T.act k₀ tok c = .skip n left got)
    (xs ys : List Byte) : ∀ {a : TokScan κ} {j : ℕ}, a.tok = [] → Same a.core (left j) →
      xs.length ≤ j → ∃ k, T.machine.run a (xs ++ ys) = T.machine.run { a with core := k } ys ∧
        Same k (left (j - xs.length)) := by
  induction xs with
  | nil =>
    intro a j _ hk _
    exact ⟨a.core, rfl, hk⟩
  | cons x xs ih =>
    intro a j htok hk hle
    obtain ⟨l, g, hact, hl, -⟩ := hT.act_skip h hk x
    rw [List.length_cons] at hle
    have hopen : a.opened = none := by simp [TokScan.opened, htok]
    have hstep : T.machine.step a x = .more { a with core := l (j - 1) } := by
      change T.scanStep a x = _
      rw [TokenParser.scanStep, hopen, hact]
      exact if_pos (by omega)
    obtain ⟨k, hrun, hsame⟩ := ih (a := { a with core := l (j - 1) }) htok (hl (j - 1)) (by omega)
    refine ⟨k, ?_, ?_⟩
    · rw [List.cons_append, ByteMachine.run_cons_more hstep, hrun]
    · rwa [List.length_cons, Nat.add_comm, ← Nat.sub_sub]

/-- The registers behind bytes that were passed over. -/
theorem TokRelAt.passed (h : TokRelAt Same Closed Marked pre b p a r) (htok : a.tok = []) {q : ℕ}
    (hpq : p ≤ q) {k k' : κ} (hsame : Same k k') (hmark : ¬ Marked k) :
    TokRelAt Same Closed Marked pre b q { a with core := k } { r with core := k' } where
  fresh := h.fresh
  core := hsame
  closed := fun _ => htok
  token := by simpa [htok] using h.token
  tok_le := by simp [htok]
  tok_bytes := by simp [htok]
  keys := h.keys
  keys_le := fun x hx hid => by
    have := h.keys_le x hx hid
    simp only [htok, List.length_nil]
    omega
  mark := fun hm => absurd hm hmark

/-- **One iteration of the loop.** -/
theorem TokenParser.step_sim (hT : T.Laws Same Closed Marked) (size : ℕ) (pre : List Mbuf)
    (b : Mbuf) :
    StepSim T.machine (T.step size b) b.data (TokRelAt Same Closed Marked pre b)
      (TokOutAt Same Marked pre b) := by
  intro p ch a r h hch
  have hp : p < b.data.length := (List.getElem?_eq_some_iff.1 hch).1
  have hdrop := drop_eq_cons hch
  have hsame := hT.act a.opened ch h.core
  rw [TokenParser.step, h.opened]
  cases hact : T.act a.core a.opened ch with
  | next k m key mark =>
    rw [hact] at hsame
    cases hact' : T.act r.core a.opened ch with
    | next k' m' key' mark' =>
      rw [hact'] at hsame
      obtain ⟨hk, rfl, rfl, rfl⟩ := hsame
      refine ⟨Nat.le_refl _, hp, _, h.next hT hch hact hk, ?_⟩
      rw [hdrop, ByteMachine.run_cons_more]
      change T.scanStep a ch = _
      rw [TokenParser.scanStep, hact]
    | skip | done | error =>
      rw [hact'] at hsame
      exact hsame.elim
  | skip n left got =>
    rw [hact] at hsame
    cases hact' : T.act r.core a.opened ch with
    | skip n' left' got' =>
      rw [hact'] at hsame
      obtain ⟨rfl, hleft, hgot⟩ := hsame
      obtain ⟨hclosed, hhere, -⟩ := hT.skip hact
      have htok := h.closed hclosed
      have hun := hT.unmarked_skip hact
      dsimp only
      split
      · next hlong =>
        -- all that is in the buffer is passed over
        obtain ⟨k, hrun, hk⟩ := run_skip hT hact (b.data.drop p) [] htok hhere
          (by rw [List.length_drop]; omega)
        rw [List.append_nil] at hrun
        rw [List.length_drop] at hk
        refine ⟨by omega, by omega, { a with core := k }, ?_, ?_⟩
        · rw [Nat.sub_add_cancel (by omega)]
          exact h.passed htok hp.le (hT.trans hk (hleft _)) (hun.1 k _ hk)
        · rw [Nat.sub_add_cancel (by omega), List.drop_length]
          exact hrun
      · next hshort =>
        have hlt : p + n < b.data.length := by omega
        obtain ⟨c, hc⟩ : ∃ c, b.data[p + n]? = some c := ⟨_, List.getElem?_eq_getElem hlt⟩
        obtain ⟨k, hrun, hk⟩ := run_skip hT hact (slice b.data p (p + n))
          (b.data.drop (p + n)) htok hhere
          (by rw [slice_length hlt.le]; omega)
        rw [slice_drop (Nat.le_add_right p n), drop_eq_cons hc] at hrun
        rw [slice_length hlt.le, Nat.add_sub_cancel_left, Nat.sub_self] at hk
        obtain ⟨l, g, hact₁, -, hg⟩ := hT.act_skip hact hk c
        have hopen : ({ a with core := k } : TokScan κ).opened = none := by
          simp [TokScan.opened, htok]
        have hstep : T.machine.step { a with core := k } c =
            match g c with
            | some core => .more { a with core := core }
            | none => .fail := by
          change T.scanStep { a with core := k } c = _
          rw [TokenParser.scanStep, hopen, hact₁]
          rfl
        have hgc := hg c
        have hgc' := hgot c
        rw [hc, Option.bind_some]
        cases hgk : got c with
        | none =>
          rw [hgk] at hgc hgc'
          cases hg1 : g c with
          | some => rw [hg1] at hgc; cases hgc
          | none =>
          cases hg2 : got' c with
          | some => rw [hg2] at hgc'; cases hgc'
          | none =>
            change T.machine.run a (b.data.drop p) = .fail
            rw [hrun, ByteMachine.run_cons_fail (by rw [hstep, hg1])]
        | some k₁ =>
          rw [hgk] at hgc hgc'
          cases hg1 : g c with
          | none => rw [hg1] at hgc; cases hgc
          | some k₂ =>
          cases hg2 : got' c with
          | none => rw [hg2] at hgc'; cases hgc'
          | some k₃ =>
            rw [hg1] at hgc
            rw [hg2] at hgc'
            cases hgc with
            | some h₂ =>
            cases hgc' with
            | some h₃ =>
            refine ⟨Nat.le_add_right _ _, hlt, { a with core := k₂ }, ?_, ?_⟩
            · exact h.passed htok (by omega) (hT.trans h₂ h₃) (hun.2 c k₁ k₂ hgk h₂)
            · rw [hrun, ByteMachine.run_cons_more (by rw [hstep, hg1])]
    | next | done | error =>
      rw [hact'] at hsame
      exact hsame.elim
  | done =>
    rw [hact] at hsame
    cases hact' : T.act r.core a.opened ch with
    | done =>
      have hle := h.tok_le
      refine ⟨hp, a, ?_, h.core, h.keys, fun x hx hid => ?_, by omega, fun hm => ?_⟩
      · rw [hdrop, ByteMachine.run_cons_done]
        change T.scanStep a ch = _
        rw [TokenParser.scanStep, hact]
      · have := h.keys_le x hx hid
        omega
      · exact (h.mark hm).2
    | next | skip | error =>
      rw [hact'] at hsame
      exact hsame.elim
  | error =>
    rw [hact] at hsame
    cases hact' : T.act r.core a.opened ch with
    | error =>
      change T.machine.run a (b.data.drop p) = .fail
      rw [hdrop, ByteMachine.run_cons_fail]
      change T.scanStep a ch = _
      rw [TokenParser.scanStep, hact]
    | next | skip | done =>
      rw [hact'] at hsame
      exact hsame.elim

end Steps

/-! ### Parser calls -/

/-- The registers of a message stand for a state of the machine. -/
def TokRel {κ : Type} (Same : κ → κ → Prop) (Closed Marked : κ → Prop) (mhdr : List Mbuf) (p : ℕ)
    (a : TokScan κ) (r : TokRegs κ) : Prop :=
  ∃ pre b, mhdr = pre ++ [b] ∧ TokRelAt Same Closed Marked pre b p a r

/-- The registers of a complete message: the core, the keys, and the mark, which points to the open
token in the last buffer. -/
structure TokOutRel {κ : Type} (T : TokenParser κ) (Same : κ → κ → Prop) (Marked : κ → Prop)
    (mhdr : List Mbuf) (o : TokScan κ) (r : TokRegs κ) : Prop where
  core : ∃ k, Same o.core k ∧ r.core = T.finish k
  keys : r.keys.map (keyBytes mhdr) = o.keys.map some
  mark : Marked o.core → ∃ b, mhdr.getLast? = some b ∧ o.tok.length < b.data.length ∧
    r.mark = some (b.id, b.data.length - 1 - o.tok.length)

section Calls

variable {κ : Type} {T : TokenParser κ} {Same : κ → κ → Prop} {Closed Marked : κ → Prop} {size : ℕ}
  {pre : List Mbuf} {b nb : Mbuf} {p : ℕ} {a a' : TokScan κ} {r : TokRegs κ}

theorem tokRel_iff :
    TokRel Same Closed Marked (pre ++ [b]) p a r ↔ TokRelAt Same Closed Marked pre b p a r := by
  constructor
  · rintro ⟨pre', b', heq, h⟩
    obtain ⟨rfl, hb⟩ := List.append_inj' heq rfl
    cases hb
    exact h
  · exact fun h => ⟨pre, b, rfl, h⟩

theorem TokenParser.parse_done (hT : T.Laws Same Closed Marked) {o : TokScan κ} {rest : List Byte}
    (hgone : b.gone = []) (h : TokRelAt Same Closed Marked pre b p a r) (hp : p ≤ b.data.length)
    (hrun : T.machine.run a (b.data.drop p) = .done o rest) :
    ∃ r', T.parser.parse size b p r = (.ok, b.data.length - rest.length, r') ∧
      TokOutRel T Same Marked (pre ++ [b.truncate (b.data.length - rest.length)]) o r' := by
  obtain ⟨r', hparse, hout⟩ := scanParse_done TokRegs.token
    (fun r => { r with core := T.rewind r.core, token := none })
    (fun r => { r with core := T.finish r.core, token := none })
    (T.step_sim hT size pre b) h hp hrun
  have hdata : (b.truncate (b.data.length - rest.length)).data =
      b.data.take (b.data.length - rest.length) := Mbuf.truncate_data (by simp [hgone])
  have hlen : (b.truncate (b.data.length - rest.length)).data.length =
      b.data.length - rest.length := by
    rw [hdata, List.length_take]
    omega
  refine ⟨_, hparse, ⟨_, hout.core, rfl⟩, ?_, fun hm => ?_⟩
  · refine keys_replace hout.keys rfl fun k hk hid => ?_
    have hle := hout.keys_le k hk hid
    rw [hlen, hdata]
    exact ⟨hle, slice_take hle⟩
  · refine ⟨_, List.getLast?_concat, ?_, ?_⟩
    · rw [hlen]
      exact hout.tok_le
    · rw [hlen]
      exact hout.mark hm

theorem TokenParser.parse_end (hT : T.Laws Same Closed Marked)
    (h : TokRelAt Same Closed Marked pre b p a r) (hp : p ≤ b.data.length)
    (hrun : T.machine.run a (b.data.drop p) = .more a') :
    ∃ r', TokRelAt Same Closed Marked pre b b.data.length a' r' ∧
      T.parser.parse size b p r =
        if a'.tok ≠ [] ∧ b.data.length = size then
          (.repair, b.data.length - a'.tok.length,
            { r' with core := T.rewind r'.core, token := none })
        else (.again, b.data.length, r') := by
  obtain ⟨r', hrel, hparse⟩ := scanParse_end TokRegs.token
    (fun r => { r with core := T.rewind r.core, token := none })
    (fun r => { r with core := T.finish r.core, token := none })
    (T.step_sim hT size pre b) h hp hrun
  refine ⟨r', hrel, hparse.trans ?_⟩
  by_cases htok : a'.tok = []
  · have hnone : r'.token = none := by rw [hrel.token, if_pos htok]
    simp [hnone, htok]
  · have hsome : r'.token = some (b.data.length - a'.tok.length) := by rw [hrel.token, if_neg htok]
    simp only [hsome, ne_eq, htok, not_false_eq_true, true_and, mbufFull, beq_iff_eq]

/-- The open token is moved: the registers then stand for the rewound state. -/
theorem TokRelAt.moved (hT : T.Laws Same Closed Marked) (hgone : b.gone = [])
    (h : TokRelAt Same Closed Marked pre b b.data.length a r)
    (hne : ∀ x ∈ pre ++ [b], x.id ≠ nb.id) :
    TokRelAt Same Closed Marked (pre ++ [b.truncate (b.data.length - a.tok.length)]) nb 0
      { a with core := T.rewind a.core, tok := [] }
      { r with core := T.rewind r.core, token := none } := by
  have hle := h.tok_le
  have hdata : (b.truncate (b.data.length - a.tok.length)).data =
      b.data.take (b.data.length - a.tok.length) := Mbuf.truncate_data (by simp [hgone])
  have hkeys : r.keys.map (keyBytes (pre ++ [b.truncate (b.data.length - a.tok.length)])) =
      a.keys.map some := by
    refine keys_replace h.keys rfl fun k hk hid => ?_
    have hk' := h.keys_le k hk hid
    rw [hdata]
    refine ⟨?_, slice_take hk'⟩
    rw [List.length_take]
    omega
  have hne' : ∀ x ∈ pre ++ [b.truncate (b.data.length - a.tok.length)], x.id ≠ nb.id := by
    intro x hx
    rcases List.mem_append.1 hx with hx | hx
    · exact hne x (by simp [hx])
    · rw [List.mem_singleton.1 hx]
      exact hne b (by simp)
  exact
    { fresh := hne'
      core := hT.rewind h.core
      closed := fun _ => rfl
      token := rfl
      tok_le := Nat.zero_le _
      tok_bytes := slice_self _ _
      keys := keys_append hkeys [nb]
      keys_le := fun k hk hid => absurd hid (keys_ne hkeys hne' k hk)
      mark := fun hm => absurd hm (hT.unmarked _) }

/-- Outside a token, the registers also stand for the state in a new buffer. -/
theorem TokRel.jump (h : TokRel Same Closed Marked (pre ++ [b]) p a r) (htok : a.tok = [])
    (hne : ∀ x ∈ pre ++ [b], x.id ≠ nb.id) :
    TokRel Same Closed Marked (pre ++ [b] ++ [nb]) 0 a r := by
  rw [tokRel_iff] at h ⊢
  exact
    { fresh := hne
      core := h.core
      closed := h.closed
      token := by simpa [htok] using h.token
      tok_le := by simp [htok]
      tok_bytes := by simp [htok]
      keys := keys_append h.keys [nb]
      keys_le := fun k hk hid => absurd hid (keys_ne h.keys hne k hk)
      mark := fun hm => absurd htok (h.mark hm).1 }

/-- **The parser simulates the machine.** -/
theorem TokenParser.sim (hT : T.Laws Same Closed Marked) (size : ℕ) :
    Simulation size T.parser T.machine (TokRel Same Closed Marked) (TokOutRel T Same Marked) where
  start b := ⟨[], b, rfl,
    { fresh := by simp
      core := hT.refl _
      closed := fun _ => rfl
      token := rfl
      tok_le := Nat.zero_le _
      tok_bytes := slice_self _ _
      keys := rfl
      keys_le := by simp [TokenParser.parser]
      mark := fun hm => absurd hm hT.start }⟩
  grow {pre b p a r} bs h hp := by
    rw [tokRel_iff] at h ⊢
    have hle := h.tok_le
    exact
      { h with
        fresh := h.fresh
        tok_bytes := by rw [mbufCopy_data, slice_append_left hp, h.tok_bytes]
        keys := keys_replace h.keys rfl fun k hk hid => by
          have hk' := h.keys_le k hk hid
          rw [mbufCopy_data, List.length_append]
          exact ⟨by omega, slice_append_left (by omega)⟩
        keys_le := h.keys_le
        mark := h.mark }
  move h htok hne := h.jump htok hne
  parse_done hgone h hp hrun := T.parse_done hT hgone (tokRel_iff.1 h) hp hrun
  parse_fail {pre b} _ _ _ _ h hp hrun :=
    scanParse_fail _ _ _ (T.step_sim hT size pre b) (tokRel_iff.1 h) hp hrun
  parse_more {pre b p a r a'} _ h hp hrun hcase := by
    obtain ⟨r', hrel, hparse⟩ := T.parse_end hT (tokRel_iff.1 h) hp hrun
    refine ⟨r', ?_, tokRel_iff.2 hrel⟩
    rw [hparse, if_neg]
    rintro ⟨htok, hfull⟩
    rcases hcase with hcase | hcase
    · exact htok hcase
    · exact hcase hfull
  parse_repair {pre b p a r a'} hgone h hp hrun htok hfull := by
    obtain ⟨r', hrel, hparse⟩ := T.parse_end hT (tokRel_iff.1 h) hp hrun
    refine ⟨?_, { r' with core := T.rewind r'.core, token := none }, ?_, fun nb _ hne => ?_⟩
    · have := hrel.tok_bytes
      rwa [slice, List.take_length, hfull] at this
    · rw [hparse, if_pos ⟨htok, hfull⟩, hfull]
      rfl
    · have := hrel.moved hT hgone hne
      rw [hfull] at this
      have hcons : pre ++ [b.truncate (size - a'.tok.length), nb] =
          pre ++ [b.truncate (size - a'.tok.length)] ++ [nb] := by simp
      change TokRel Same Closed Marked (pre ++ [b.truncate (size - a'.tok.length), nb]) 0 _ _
      rw [hcons]
      exact tokRel_iff.2 this

end Calls

end CacheProxy
