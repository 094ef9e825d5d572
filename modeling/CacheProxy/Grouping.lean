/-
**Lists in groups.**

A list is *grouped* by a label if between two elements with the same label there are only elements
with that label.  Elements with the label `z` belong to no group.  In a grouped list the group of an
element can be found by going from it to both sides as long as the label stays the same.

Main results:

* `Grouped.sublist`, `Grouped.concat`, `Grouped.concat_group` — how grouped lists are made;
* `mem_around` — the elements around `m` with its label are its group.
-/

import Mathlib.Data.List.Nodup
import Mathlib.Data.List.TakeWhile

namespace CacheProxy

variable {α β : Type} {f g : α → β} {z : β} {l l' : List α} {m k : α}

/-- **Grouped lists.** -/
def Grouped (f : α → β) (z : β) (l : List α) : Prop :=
  ∀ x y w, [x, y, w].Sublist l → f x = f w → f x ≠ z → f y = f x

namespace Grouped

theorem sublist (h : Grouped f z l) (hl : l'.Sublist l) : Grouped f z l' :=
  fun x y w hs => h x y w (hs.trans hl)

theorem congr (h : Grouped f z l) (hf : ∀ x ∈ l, g x = f x) : Grouped g z l := by
  intro x y w hs hxw hx
  have hmem : ∀ v ∈ [x, y, w], v ∈ l := fun v hv => hs.subset hv
  rw [hf x (hmem x (by simp)), hf w (hmem w (by simp))] at hxw
  rw [hf x (hmem x (by simp))] at hx ⊢
  rw [hf y (hmem y (by simp))]
  exact h x y w hs hxw hx

/-- Three elements of `l ++ [m]`: all from `l`, or two from `l` and `m`. -/
theorem sublist_concat {x y w : α} (h : [x, y, w].Sublist (l ++ [m])) :
    [x, y, w].Sublist l ∨ [x, y].Sublist l ∧ w = m := by
  obtain ⟨l₁, l₂, heq, h₁, h₂⟩ := List.sublist_append_iff.1 h
  rcases List.sublist_singleton.1 h₂ with rfl | rfl
  · left
    rw [List.append_nil] at heq
    rwa [heq]
  · right
    have : [x, y] ++ [w] = l₁ ++ [m] := heq
    obtain ⟨rfl, hw⟩ := List.append_inj' this rfl
    exact ⟨h₁, by simpa using hw⟩

/-- An element of no group, or of a new one, comes in at the end. -/
theorem concat (h : Grouped f z l) (hm : f m = z ∨ ∀ x ∈ l, f x ≠ f m) :
    Grouped f z (l ++ [m]) := by
  intro x y w hs hxw hx
  rcases sublist_concat hs with hs' | ⟨hs', rfl⟩
  · exact h x y w hs' hxw hx
  · rcases hm with hm | hm
    · exact absurd (hxw.trans hm) hx
    · exact absurd hxw (hm x (hs'.subset List.mem_cons_self))

/-- An element comes in at the end, behind its group. -/
theorem concat_group {before behind : List α} {o : α} (h : Grouped f z (before ++ o :: behind))
    (hm : f m = f o) (hb : ∀ x ∈ behind, f x = f o) :
    Grouped f z (before ++ o :: behind ++ [m]) := by
  intro x y w hs hxw hx
  rcases sublist_concat hs with hs' | ⟨hs', rfl⟩
  · exact h x y w hs' hxw hx
  · rw [hm] at hxw
    obtain ⟨l₁, l₂, heq, h₁, h₂⟩ := List.sublist_append_iff.1 hs'
    rcases l₂.eq_nil_or_concat with rfl | ⟨l₃, v, rfl⟩
    · rw [List.append_nil] at heq
      have hxyo : [x, y, o].Sublist (before ++ o :: behind) :=
        (heq ▸ h₁ : [x, y].Sublist before).append (List.singleton_sublist.2 List.mem_cons_self)
      exact h x y o hxyo hxw hx
    · rw [List.concat_eq_append] at heq h₂
      have : [x] ++ [y] = (l₁ ++ l₃) ++ [v] := by
        rw [List.append_assoc]
        exact heq
      have hy : y = v := by simpa using (List.append_inj' this rfl).2
      subst hy
      rcases List.mem_cons.1 (h₂.subset (List.mem_append_right l₃ List.mem_cons_self)) with rfl | hy
      · exact hxw.symm
      · exact (hb y hy).trans hxw.symm

end Grouped

/-! ### The group of an element -/

/-- An element that a predicate holds for, and for all before it, is in the first stretch. -/
theorem mem_takeWhile {p : α → Bool} (hp : ∀ x y, [x, y].Sublist l → p y = true → p x = true)
    (hk : k ∈ l) (hpk : p k = true) : k ∈ l.takeWhile p := by
  induction l with
  | nil => exact hk
  | cons x l ih =>
    have hx : p x = true := by
      rcases List.mem_cons.1 hk with rfl | hk
      · exact hpk
      · exact hp x k (List.cons_sublist_cons.2 (List.singleton_sublist.2 hk)) hpk
    rw [List.takeWhile_cons_of_pos hx]
    rcases List.mem_cons.1 hk with rfl | hk
    · exact List.mem_cons_self
    · exact List.mem_cons_of_mem _ (ih (fun x y hs => hp x y (hs.cons _)) hk)

variable [DecidableEq α] [DecidableEq β]

/-- The elements next to `m`, to both sides, that have its label. -/
def around (f : α → β) (l : List α) (m : α) : List α :=
  (l.takeWhile (· != m)).reverse.takeWhile (fun x => f x == f m) ++
    (l.dropWhile (· != m)).tail.takeWhile fun x => f x == f m

/-- A list is cut at an element. -/
theorem cut_at (hm : m ∈ l) : ∃ rest, l.dropWhile (· != m) = m :: rest ∧
    l = l.takeWhile (· != m) ++ m :: rest := by
  have hne : l.dropWhile (· != m) ≠ [] := by
    rw [Ne, List.dropWhile_eq_nil_iff]
    intro h
    simpa using h m hm
  obtain ⟨x, rest, hx⟩ := List.exists_cons_of_ne_nil hne
  have hxm : x = m := by
    have := List.head_dropWhile_not (· != m) hne
    simpa [hx] using this
  subst hxm
  exact ⟨rest, hx, by rw [← hx, List.takeWhile_append_dropWhile]⟩

theorem mem_of_mem_around (hk : k ∈ around f l m) : k ∈ l := by
  rcases List.mem_append.1 hk with hk | hk
  · exact (List.takeWhile_sublist _).subset
      (List.mem_reverse.1 ((List.takeWhile_sublist _).subset hk))
  · exact (List.dropWhile_sublist _).subset
      (List.mem_of_mem_tail ((List.takeWhile_sublist _).subset hk))

/-- **The elements around `m` with its label are its group.** -/
theorem mem_around (h : Grouped f z l) (hn : l.Nodup) (hm : m ∈ l) (hz : f m ≠ z) :
    k ∈ around f l m ↔ k ∈ l ∧ k ≠ m ∧ f k = f m := by
  obtain ⟨rest, hdrop, hl⟩ := cut_at hm
  have hbefore : m ∉ l.takeWhile (· != m) := fun hmem => by
    simpa using List.mem_takeWhile_imp hmem
  have hrest : m ∉ rest := by
    rw [hl, List.nodup_append] at hn
    exact (List.nodup_cons.1 hn.2.1).1
  rw [around, hdrop, List.tail_cons, List.mem_append]
  constructor
  · rintro (hk | hk)
    · have hk' := (List.takeWhile_sublist _).subset hk
      rw [List.mem_reverse] at hk'
      refine ⟨(List.takeWhile_sublist _).subset hk', ?_, by simpa using List.mem_takeWhile_imp hk⟩
      rintro rfl
      exact hbefore hk'
    · have hk' := (List.takeWhile_sublist _).subset hk
      refine ⟨by rw [hl]; simp [hk'], ?_, by simpa using List.mem_takeWhile_imp hk⟩
      rintro rfl
      exact hrest hk'
  · rintro ⟨hk, hkm, hf⟩
    rw [hl, List.mem_append, List.mem_cons] at hk
    rw [hl] at h
    rcases hk with hk | rfl | hk
    · refine .inl (mem_takeWhile (fun x y hs hy => ?_) (List.mem_reverse.2 hk) (by simpa using hf))
      have hs' : [y, x, m].Sublist (l.takeWhile (· != m) ++ m :: rest) := by
        have := List.reverse_sublist.2 hs
        rw [List.reverse_reverse] at this
        exact this.append (List.singleton_sublist.2 List.mem_cons_self)
      have hy' : f y = f m := by simpa using hy
      simpa [hy'] using h y x m hs' hy' (hy' ▸ hz)
    · exact absurd rfl hkm
    · refine .inr (mem_takeWhile (fun x y hs hy => ?_) hk (by simpa using hf))
      have hs' : [m, x, y].Sublist (l.takeWhile (· != m) ++ m :: rest) :=
        (List.cons_sublist_cons.2 hs).trans (List.sublist_append_right _ _)
      have hy' : f y = f m := by simpa using hy
      simpa using h m x y hs' hy'.symm hz

/-! ### Counting -/

omit [DecidableEq β] in
theorem countP_update_of_notMem {p : α → Bool} (hm : m ∉ l) (v : Bool) :
    l.countP (Function.update p m v) = l.countP p := by
  refine List.countP_congr fun x hx => ?_
  rw [Function.update_of_ne]
  rintro rfl
  exact hm hx

omit [DecidableEq β] in
theorem countP_update_true {p : α → Bool} (hn : l.Nodup) (hm : m ∈ l) (hp : p m = false) :
    l.countP (Function.update p m true) = l.countP p + 1 := by
  induction l with
  | nil => cases hm
  | cons x l ih =>
    rw [List.nodup_cons] at hn
    by_cases hx : x = m
    · subst hx
      rw [List.countP_cons, List.countP_cons, countP_update_of_notMem hn.1, Function.update_self]
      simp [hp]
    · have hml : m ∈ l := (List.mem_cons.1 hm).resolve_left (Ne.symm hx)
      rw [List.countP_cons, List.countP_cons, ih hn.2 hml, Function.update_of_ne hx]
      omega

end CacheProxy
