/-
**Parsers seen through a part of their registers.**

A parser may keep registers that decide nothing: pointers that later passes read, for instance. 
Seen without them it is another parser.  Where the bodies of the two loops agree at every byte, the
two parsers agree at every call, and a machine that the second simulates is simulated by the first.

Main definitions:

* `Flow.Agrees` — two iterations that do the same;
* `Parser.Seen` — a parser that is another one, seen through a function of its registers.

Main results:

* `scanParse_agrees` — **loops whose bodies agree make parsers that agree**;
* `Simulation.seen` — **a simulation is carried over**.
-/

import CacheProxy.Framing
import CacheProxy.Scanner

namespace CacheProxy

variable {α ω ρ σ : Type}

/-- **Two iterations that do the same**, `π` being what is seen of the registers.  What is left in
the registers by malformed input does not matter. -/
def Flow.Agrees (π : ρ → σ) : Flow ρ → Flow σ → Prop
  | .next p r, .next q s => p = q ∧ π r = s
  | .done p r, .done q s => p = q ∧ π r = s
  | .error _, .error _ => True
  | _, _ => False

/-- Two results of a parser call that are the same in this sense. -/
def ResultAgrees (π : ρ → σ) (x : ParseResult × ℕ × ρ) (y : ParseResult × ℕ × σ) : Prop :=
  x.1 = y.1 ∧ (x.1 ≠ .error → x.2.1 = y.2.1 ∧ π x.2.2 = y.2.2)

/-- **The parser `P` is the parser `Q`**, seen through `π`. -/
structure Parser.Seen (P : Parser ρ) (Q : Parser σ) (π : ρ → σ) : Prop where
  init : π P.init = Q.init
  parse : ∀ size b p r, ResultAgrees π (P.parse size b p r) (Q.parse size b p (π r))

/-- The loops agree if their bodies do. -/
theorem scan_agrees {π : ρ → σ} {data : List Byte} {step : ℕ → Byte → ρ → Flow ρ}
    {step' : ℕ → Byte → σ → Flow σ}
    (h : ∀ p ch r, data[p]? = some ch → (step p ch r).Agrees π (step' p ch (π r))) (fuel : ℕ) :
    ∀ p r, (scan step data fuel p r).Agrees π (scan step' data fuel p (π r)) := by
  induction fuel with
  | zero => exact fun p r => ⟨rfl, rfl⟩
  | succ fuel ih =>
    intro p r
    rw [scan, scan]
    cases hch : data[p]? with
    | none => exact ⟨rfl, rfl⟩
    | some ch =>
      have hone := h p ch r hch
      cases hs : step p ch r with
      | next =>
        cases hs' : step' p ch (π r) with
        | next =>
          rw [hs, hs'] at hone
          obtain ⟨rfl, rfl⟩ := hone
          simp only [hs, hs']
          exact ih _ _
        | done | error =>
          rw [hs, hs'] at hone
          exact hone.elim
      | done =>
        cases hs' : step' p ch (π r) with
        | done =>
          rw [hs, hs'] at hone
          simp only [hs, hs']
          exact hone
        | next | error =>
          rw [hs, hs'] at hone
          exact hone.elim
      | error =>
        cases hs' : step' p ch (π r) with
        | error =>
          simp only [hs, hs']
          trivial
        | next | done =>
          rw [hs, hs'] at hone
          exact hone.elim

/-- **Loops whose bodies agree make parsers that agree.** -/
theorem scanParse_agrees {π : ρ → σ} {step : ℕ → Mbuf → ℕ → Byte → ρ → Flow ρ}
    {step' : ℕ → Mbuf → ℕ → Byte → σ → Flow σ} {token : ρ → Option ℕ} {token' : σ → Option ℕ}
    {close finish : ρ → ρ} {close' finish' : σ → σ} (htoken : ∀ r, token' (π r) = token r)
    (hclose : ∀ r, π (close r) = close' (π r)) (hfinish : ∀ r, π (finish r) = finish' (π r))
    {size : ℕ} {b : Mbuf}
    (h : ∀ p ch r, b.data[p]? = some ch → (step size b p ch r).Agrees π (step' size b p ch (π r)))
    (p : ℕ) (r : ρ) :
    ResultAgrees π (scanParse step token close finish size b p r)
      (scanParse step' token' close' finish' size b p (π r)) := by
  have hscan := scan_agrees h (b.data.length - p) p r
  unfold scanParse
  cases hs : scan (step size b) b.data (b.data.length - p) p r with
  | next p' r' =>
    cases hs' : scan (step' size b) b.data (b.data.length - p) p (π r) with
    | next =>
      rw [hs, hs'] at hscan
      obtain ⟨rfl, rfl⟩ := hscan
      simp only [htoken]
      cases token r' with
      | none => exact ⟨rfl, fun _ => ⟨rfl, rfl⟩⟩
      | some =>
        dsimp only
        split
        · exact ⟨rfl, fun _ => ⟨rfl, hclose r'⟩⟩
        · exact ⟨rfl, fun _ => ⟨rfl, rfl⟩⟩
    | done | error =>
      rw [hs, hs'] at hscan
      exact hscan.elim
  | done p' r' =>
    cases hs' : scan (step' size b) b.data (b.data.length - p) p (π r) with
    | done =>
      rw [hs, hs'] at hscan
      obtain ⟨rfl, rfl⟩ := hscan
      exact ⟨rfl, fun _ => ⟨rfl, hfinish r'⟩⟩
    | next | error =>
      rw [hs, hs'] at hscan
      exact hscan.elim
  | error =>
    cases hs' : scan (step' size b) b.data (b.data.length - p) p (π r) with
    | error => exact ⟨rfl, fun hne => absurd rfl hne⟩
    | next | done =>
      rw [hs, hs'] at hscan
      exact hscan.elim

section

variable {P : Parser ρ} {Q : Parser σ} {π : ρ → σ}

/-- A call of the one parser that is not an error is a call of the other. -/
theorem Parser.Seen.of_parse (h : P.Seen Q π) {size : ℕ} {b : Mbuf} {p : ℕ} {r : ρ}
    {res : ParseResult}
    {q : ℕ} {s : σ} (hne : res ≠ .error) (hparse : Q.parse size b p (π r) = (res, q, s)) :
    ∃ r', P.parse size b p r = (res, q, r') ∧ π r' = s := by
  obtain ⟨hres, hrest⟩ := h.parse size b p r
  rw [hparse] at hres hrest
  obtain ⟨hq, hs⟩ := hrest (by rw [hres]; exact hne)
  exact ⟨(P.parse size b p r).2.2, Prod.ext hres (Prod.ext hq rfl), hs⟩

/-- **A machine that is simulated by what is seen of a parser is simulated by the parser.** -/
theorem Simulation.seen {size : ℕ} {M : ByteMachine α ω} {Rel : List Mbuf → ℕ → α → σ → Prop}
    {Out : List Mbuf → ω → σ → Prop} (sim : Simulation size Q M Rel Out) (h : P.Seen Q π) :
    Simulation size P M (fun mhdr p a r => Rel mhdr p a (π r))
      (fun mhdr o r => Out mhdr o (π r)) where
  start b := by
    rw [h.init]
    exact sim.start b
  grow bs hrel hp := sim.grow bs hrel hp
  move hrel htok hids := sim.move hrel htok hids
  parse_done hgone hrel hp hrun := by
    obtain ⟨s, hparse, hout⟩ := sim.parse_done hgone hrel hp hrun
    obtain ⟨r', hr', rfl⟩ := h.of_parse (by decide) hparse
    exact ⟨r', hr', hout⟩
  parse_fail {_ b p _ r} hgone hrel hp hrun :=
    (h.parse size b p r).1.trans (sim.parse_fail hgone hrel hp hrun)
  parse_more hgone hrel hp hrun htok := by
    obtain ⟨s, hparse, hout⟩ := sim.parse_more hgone hrel hp hrun htok
    obtain ⟨r', hr', rfl⟩ := h.of_parse (by decide) hparse
    exact ⟨r', hr', hout⟩
  parse_repair hgone hrel hp hrun htok hfull := by
    obtain ⟨hdrop, s, hparse, hout⟩ := sim.parse_repair hgone hrel hp hrun htok hfull
    obtain ⟨r', hr', rfl⟩ := h.of_parse (by decide) hparse
    exact ⟨hdrop, r', hr', hout⟩

end

end CacheProxy
