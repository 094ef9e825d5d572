/-
**All invariants of the ledger together.**

`Sound` is the conjunction of the invariants, and every move keeps it.  `Kept` is what a sequence of
moves leaves alone: the messages on hold, and which request a fragment belongs to.

Main results:

* `Sound.move` — the invariants hold after every move;
* `Sound.kept` — what a move leaves alone.
-/

import CacheProxy.LedgerJournal
import CacheProxy.LedgerPrelude
import CacheProxy.LedgerSettled
import CacheProxy.LedgerTree

namespace CacheProxy

open Function (update)
open Ledger

/-- **The invariants of the ledger.** -/
structure Sound (mode : Mode) (hold : ℕ → Prop) (b : Ledger) : Prop where
  queues : Queues b
  links : Links b
  waiting : Waiting hold b
  blank : Blank b
  tree : Tree mode b
  order : Order b
  groups : Groups b
  places : Places b
  parts : Parts b
  counts : Counts b
  settled : Settled mode b
  answered : Answered b
  faults : Faults b
  journal : Journal b
  paired : mode.ample → Paired b
  clock : mode.ticking → Clock mode b
  lines : mode.full → Lines mode b
  ticks : mode.ticking → mode.now ≠ 0
  stray : b.stray = false

/-- **What moves leave alone.** -/
structure Kept (hold : ℕ → Prop) (b b' : Ledger) : Prop where
  fixed : ∀ m, hold m → Fixed m b b'
  noreply : ∀ m, hold m → b'.noreply m = b.noreply m
  bare : ∀ m, hold m → b'.bare m = b.bare m
  fragOwner : ∀ m o, b.fragOwner m = some o → b'.fragOwner m = some o
  fragId : ∀ m o, b.fragOwner m = some o → b'.fragId m = b.fragId m
  frags : ∀ o, b.fragOwner o = some o → b'.frags o = b.frags o

variable {mode : Mode} {hold hold' : ℕ → Prop} {b b' b'' : Ledger} {c m : ℕ}

theorem Kept.refl (hold : ℕ → Prop) (b : Ledger) : Kept hold b b where
  fixed := fun m _ => Fixed.refl m b
  noreply := fun _ _ => rfl
  bare := fun _ _ => rfl
  fragOwner := fun _ _ h => h
  fragId := fun _ _ _ => rfl
  frags := fun _ _ => rfl

theorem Kept.trans (h : Kept hold b b') (h' : Kept hold b' b'') : Kept hold b b'' where
  fixed := fun m hm => (h.fixed m hm).trans (h'.fixed m hm)
  noreply := fun m hm => (h'.noreply m hm).trans (h.noreply m hm)
  bare := fun m hm => (h'.bare m hm).trans (h.bare m hm)
  fragOwner := fun m o ho => h'.fragOwner m o (h.fragOwner m o ho)
  fragId := fun m o ho => (h'.fragId m o (h.fragOwner m o ho)).trans (h.fragId m o ho)
  frags := fun o ho => (h'.frags o (h.fragOwner o o ho)).trans (h.frags o ho)

theorem Kept.mono (h : Kept hold b b') (sub : ∀ m, hold' m → hold m) : Kept hold' b b' where
  fixed := fun m hm => h.fixed m (sub m hm)
  noreply := fun m hm => h.noreply m (sub m hm)
  bare := fun m hm => h.bare m (sub m hm)
  fragOwner := h.fragOwner
  fragId := h.fragId
  frags := h.frags

theorem Move.stray (hmove : Move mode hold b b') : b'.stray = b.stray := by
  cases hmove <;> rfl

/-- A move changes no fragment. -/
theorem Move.groups (hmove : Move mode hold b b') (hg : Groups b) {k o : ℕ}
    (ho : b.fragOwner k = some o) : b'.fragOwner k = some o ∧ b'.fragId k = b.fragId k ∧
      (k = o → b'.frags o = b.frags o) := by
  have hlt := hg.taken k o ho
  have hne : k ≠ b.nextMsg := hlt.ne
  cases hmove with
  | @split c m n bare times seq loose apart owner whole =>
    have hkm : k ≠ m := by
      rintro rfl
      simp [whole] at ho
    have hids : k ∉ List.range' b.nextMsg n := by
      rw [List.mem_range'_1]
      omega
    refine ⟨?_, ?_, ?_⟩
    · simpa only [Ledger.split, Function.update_of_ne hkm, if_neg hids] using ho
    · simp only [Ledger.split, Function.update_of_ne hkm, if_neg hids]
    · rintro rfl
      exact Function.update_of_ne hkm _ _
  | listen | make | auth | select | answer | swallowReply | lose | blame =>
    exact ⟨(Function.update_of_ne hne _ _).trans ho, Function.update_of_ne hne _ _, fun _ => rfl⟩
  | _ => exact ⟨ho, rfl, fun _ => rfl⟩

namespace Sound

/-- **Every move keeps the invariants.** -/
theorem move (h : Sound mode hold b) (hmove : Move mode hold b b') : Sound mode hold b' where
  queues := h.queues.move h.links h.waiting hmove
  links := h.links.move h.queues hmove
  waiting := h.waiting.move h.queues h.links h.blank hmove
  blank := h.blank.move hmove
  tree := h.tree.move h.queues h.links h.waiting hmove
  order := h.order.move h.queues hmove
  groups := h.groups.move hmove
  places := h.places.move h.groups hmove
  parts := h.parts.move h.queues h.groups h.counts hmove
  counts := h.counts.move h.queues h.groups h.parts hmove
  settled := h.settled.move h.queues h.groups hmove
  answered := h.answered.move h.queues h.links hmove
  faults := h.faults.move hmove
  journal := h.journal.move h.answered h.queues hmove
  paired := fun ha => (h.paired ha).move h.queues h.links h.waiting ha hmove
  clock := fun ht => (h.clock ht).move h.queues h.waiting h.blank h.order (h.ticks ht) hmove
  lines := fun hf => (h.lines hf).move h.queues h.waiting hf hmove
  ticks := h.ticks
  stray := hmove.stray.trans h.stray

/-- What a move leaves alone. -/
theorem kept (h : Sound mode hold b) (hmove : Move mode hold b b') : Kept hold b b' where
  fixed := fun _ hm => hmove.fixed h.queues h.links h.waiting (.inl hm)
  noreply := fun _ hm => (hmove.fixed_parsed h.waiting hm).1
  bare := fun _ hm => (hmove.fixed_parsed h.waiting hm).2
  fragOwner := fun _ _ ho => (hmove.groups h.groups ho).1
  fragId := fun _ _ ho => (hmove.groups h.groups ho).2.1
  frags := fun _ ho => (hmove.groups h.groups ho).2.2 rfl

/-- Less is on hold. -/
theorem release (h : Sound mode hold b) (sub : ∀ m, hold' m → hold m) : Sound mode hold' b where
  __ := h
  waiting :=
    { held := fun m hm => h.waiting.held m (sub m hm)
      reading := fun c m hm =>
        ⟨(h.waiting.reading c m hm).1, fun hh => (h.waiting.reading c m hm).2.1 (sub m hh),
          (h.waiting.reading c m hm).2.2⟩ }

/-- More is on hold. -/
theorem keep (h : Sound mode hold b)
    (new : ∀ m, hold' m → b.Unsent m ∧ ∀ c, b.rmsg c ≠ some m) :
    Sound mode hold' b where
  __ := h
  waiting :=
    { held := fun m hm => (new m hm).1
      reading := fun c m hm =>
        ⟨(h.waiting.reading c m hm).1, fun hh => (new m hh).2 c hm,
          (h.waiting.reading c m hm).2.2⟩ }

end Sound

end CacheProxy
