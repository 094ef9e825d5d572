/-
**The outer loop of a parser.**

The parsers of the source are all one loop over the bytes of the last mbuf, whose body looks at
the byte under the marker `p` and goes on, possibly with the marker moved ahead, finishes the
message, or fails.  Behind the loop they all report `MSG_PARSE_REPAIR` when the buffer is full and
a token is open, and `MSG_PARSE_AGAIN` otherwise.  This module has that loop, generic in its body,
and the argument that carries a relation between the registers and the state of a byte machine
through it.

Main definitions:

* `Flow`, `scan` — what a body does, and the loop;
* `scanParse` — the parser made from a body;
* `StepSim` — the body simulates a machine.

Main results:

* `scan_sim` — **the loop simulates the machine's run**.
-/

import CacheProxy.ByteMachine
import CacheProxy.Receive

namespace CacheProxy

variable {α ω ρ : Type}

/-! ### The loop -/

/-- What the body of the loop does with the byte at `p`. -/
inductive Flow (ρ : Type) where
  /-- `break` out of the switch with the marker at `p`; the loop goes on behind it -/
  | next (p : ℕ) (r : ρ)
  /-- `goto done` with the marker at `p` -/
  | done (p : ℕ) (r : ρ)
  /-- `goto error` -/
  | error (r : ρ)
  deriving DecidableEq

/-- The loop `for (p = r->pos; p < b->last; p++)` over the bytes `data` of the buffer. -/
def scan (step : ℕ → Byte → ρ → Flow ρ) (data : List Byte) : ℕ → ℕ → ρ → Flow ρ
  | 0, p, r => .next p r
  | fuel + 1, p, r =>
      match data[p]? with
      | none => .next p r
      | some ch =>
          match step p ch r with
          | .next p' r' => scan step data fuel (p' + 1) r'
          | .done p' r' => .done p' r'
          | .error r' => .error r'

/-- A parser call: the loop, and what follows it.  `token` reads the open token's offset from the
registers, `close` clears it and `finish` is what `done` does to the registers. -/
def scanParse (step : ℕ → Mbuf → ℕ → Byte → ρ → Flow ρ) (token : ρ → Option ℕ) (close : ρ → ρ)
    (finish : ρ → ρ) (size : ℕ) (b : Mbuf) (pos : ℕ) (r : ρ) : ParseResult × ℕ × ρ :=
  match scan (step size b) b.data (b.data.length - pos) pos r with
  | .next p r' =>
      match token r' with
      | some t => if mbufFull size b then (.repair, t, close r') else (.again, p, r')
      | none => (.again, p, r')
  | .done p r' => (.ok, p + 1, finish r')
  | .error r' => (.error, pos, r')

/-! ### Simulation -/

/-- One iteration at `p`, which does `flow`, against the machine's run from state `a`: the
iteration goes on exactly as the run over the remaining bytes does. -/
def FlowSim (M : ByteMachine α ω) (data : List Byte) (Rel : ℕ → α → ρ → Prop)
    (Out : ℕ → ω → ρ → Prop) (p : ℕ) (a : α) (flow : Flow ρ) : Prop :=
  match flow with
  | .next p' r' => p ≤ p' ∧ p' < data.length ∧
      ∃ a', Rel (p' + 1) a' r' ∧ M.run a (data.drop p) = M.run a' (data.drop (p' + 1))
  | .done p' r' => p' < data.length ∧
      ∃ o, M.run a (data.drop p) = .done o (data.drop (p' + 1)) ∧ Out (p' + 1) o r'
  | .error _ => M.run a (data.drop p) = .fail

/-- **The body simulates the machine** on the bytes `data`, from related registers and states. -/
def StepSim (M : ByteMachine α ω) (step : ℕ → Byte → ρ → Flow ρ) (data : List Byte)
    (Rel : ℕ → α → ρ → Prop) (Out : ℕ → ω → ρ → Prop) : Prop :=
  ∀ p ch a r, Rel p a r → data[p]? = some ch → FlowSim M data Rel Out p a (step p ch r)

/-- The whole loop, which ends with `flow`, against the machine's run over the remaining bytes. -/
def LoopSim (M : ByteMachine α ω) (data : List Byte) (Rel : ℕ → α → ρ → Prop)
    (Out : ℕ → ω → ρ → Prop) (p : ℕ) (a : α) (flow : Flow ρ) : Prop :=
  match flow with
  | .next p' r' => p' = data.length ∧ ∃ a', Rel p' a' r' ∧ M.run a (data.drop p) = .more a'
  | .done p' r' => p' < data.length ∧
      ∃ o, M.run a (data.drop p) = .done o (data.drop (p' + 1)) ∧ Out (p' + 1) o r'
  | .error _ => M.run a (data.drop p) = .fail

section

variable {M : ByteMachine α ω} {Rel : ℕ → α → ρ → Prop} {Out : ℕ → ω → ρ → Prop}

/-- **The loop simulates the machine's run.** -/
theorem scan_sim {step : ℕ → Byte → ρ → Flow ρ} {data : List Byte} (h : StepSim M step data Rel Out)
    {fuel p : ℕ} {a : α} {r : ρ} (hrel : Rel p a r) (hfuel : data.length - p ≤ fuel)
    (hp : p ≤ data.length) : LoopSim M data Rel Out p a (scan step data fuel p r) := by
  induction fuel generalizing p a r with
  | zero =>
      have hend : p = data.length := by omega
      exact ⟨hend, a, hrel, by rw [hend, List.drop_length, ByteMachine.run_nil]⟩
  | succ fuel ih =>
      rw [scan]
      cases hch : data[p]? with
      | none =>
          have hend : p = data.length := by
            have := List.getElem?_eq_none_iff.1 hch
            omega
          exact ⟨hend, a, hrel, by rw [hend, List.drop_length, ByteMachine.run_nil]⟩
      | some ch =>
          have hone := h p ch a r hrel hch
          cases hs : step p ch r with
          | next =>
              rw [hs] at hone
              obtain ⟨hle, hlt, a', hrel', hrun⟩ := hone
              simp only [hs, LoopSim, hrun]
              exact ih hrel' (by omega) hlt
          | done =>
              rw [hs] at hone
              simp only [hs]
              exact hone
          | error =>
              rw [hs] at hone
              simp only [hs]
              exact hone

/-! ### Parser calls -/

variable {step : ℕ → Mbuf → ℕ → Byte → ρ → Flow ρ} {size : ℕ} {b : Mbuf} {p : ℕ} {a a' : α}
  {r : ρ}

theorem scanParse_done (token : ρ → Option ℕ) (close finish : ρ → ρ) {o : ω} {rest : List Byte}
    (h : StepSim M (step size b) b.data Rel Out) (hrel : Rel p a r) (hp : p ≤ b.data.length)
    (hrun : M.run a (b.data.drop p) = .done o rest) :
    ∃ r', scanParse step token close finish size b p r =
        (.ok, b.data.length - rest.length, finish r') ∧
      Out (b.data.length - rest.length) o r' := by
  have hscan := scan_sim h hrel (Nat.le_refl _) hp
  unfold scanParse
  cases hs : scan (step size b) b.data (b.data.length - p) p r with
  | next =>
      rw [hs] at hscan
      obtain ⟨-, a', -, hmore⟩ := hscan
      rw [hmore] at hrun
      cases hrun
  | error =>
      rw [hs] at hscan
      change M.run a (b.data.drop p) = .fail at hscan
      rw [hscan] at hrun
      cases hrun
  | done p' r' =>
      rw [hs] at hscan
      obtain ⟨hlt, o', hdone, hout⟩ := hscan
      rw [hdone] at hrun
      cases hrun
      have hend : b.data.length - (b.data.drop (p' + 1)).length = p' + 1 := by
        rw [List.length_drop]
        omega
      rw [hend]
      exact ⟨r', rfl, hout⟩

theorem scanParse_fail (token : ρ → Option ℕ) (close finish : ρ → ρ)
    (h : StepSim M (step size b) b.data Rel Out) (hrel : Rel p a r) (hp : p ≤ b.data.length)
    (hrun : M.run a (b.data.drop p) = .fail) :
    (scanParse step token close finish size b p r).1 = .error := by
  have hscan := scan_sim h hrel (Nat.le_refl _) hp
  unfold scanParse
  cases hs : scan (step size b) b.data (b.data.length - p) p r with
  | next =>
      rw [hs] at hscan
      obtain ⟨-, a', -, hmore⟩ := hscan
      rw [hmore] at hrun
      cases hrun
  | error => rfl
  | done =>
      rw [hs] at hscan
      obtain ⟨-, o', hdone, -⟩ := hscan
      rw [hdone] at hrun
      cases hrun

/-- A call that reads the buffer to its end. -/
theorem scanParse_end (token : ρ → Option ℕ) (close finish : ρ → ρ)
    (h : StepSim M (step size b) b.data Rel Out) (hrel : Rel p a r) (hp : p ≤ b.data.length)
    (hrun : M.run a (b.data.drop p) = .more a') :
    ∃ r', Rel b.data.length a' r' ∧
      scanParse step token close finish size b p r =
        match token r' with
        | some t =>
            if mbufFull size b then (.repair, t, close r') else (.again, b.data.length, r')
        | none => (.again, b.data.length, r') := by
  have hscan := scan_sim h hrel (Nat.le_refl _) hp
  unfold scanParse
  cases hs : scan (step size b) b.data (b.data.length - p) p r with
  | error =>
      rw [hs] at hscan
      change M.run a (b.data.drop p) = .fail at hscan
      rw [hscan] at hrun
      cases hrun
  | done =>
      rw [hs] at hscan
      obtain ⟨-, o', hdone, -⟩ := hscan
      rw [hdone] at hrun
      cases hrun
  | next p' r' =>
      rw [hs] at hscan
      obtain ⟨rfl, a₁, hrel', hmore⟩ := hscan
      rw [hmore] at hrun
      cases hrun
      exact ⟨r', hrel', rfl⟩

end

end CacheProxy
