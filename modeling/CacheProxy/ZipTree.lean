/-
**Coloured trees with a hole.**

A binary tree of red and black nodes is taken apart at one of its subtrees: what is left is a
*hole*, the list of the nodes above the subtree with what hangs on their other sides, and filling
the hole gives the tree back.  Algorithms that walk up from a node and repair the tree there are
described by what they do to the subtree and to the hole, and both sides of a node are treated at
once: `Shape.mk d` puts its first subtree on the side `d`.

Main definitions:

* `Shape`, `Hole`, `Hole.plug` — trees, holes and filling a hole;
* `Shape.inorder`, `Shape.occ`, `Hole.occ` — the nodes in order, and how often a node occurs;
* `Shape.Height`, `Shape.Sober`, `Shape.RedBlack` — equal black heights, no red node with a red
  child, and both with a black root;
* `Hole.Fits` — the colour and the black height of what a hole can be filled with.

Main results:

* `Hole.Fits.plug`, `Shape.RedBlack.fits` — **a filled hole is a red-black tree exactly if what
  fills it fits**;
* `Hole.inorder_congr` — the order of the nodes outside a hole does not depend on what fills it.
-/
import Mathlib.Data.List.Basic
import Mathlib.Tactic.Ring

namespace CacheProxy

/-! ### Sides and colours -/

/-- A side of a node. -/
inductive Side
  | left
  | right
  deriving DecidableEq, Repr

/-- The other side. -/
def Side.opp : Side → Side
  | left => right
  | right => left

@[simp] theorem Side.opp_opp (d : Side) : d.opp.opp = d := by
  cases d <;> rfl

theorem Side.eq_or_opp (d d' : Side) : d' = d ∨ d' = d.opp := by
  cases d <;> cases d' <;> simp [Side.opp]

/-- The colour of a node. -/
inductive Color
  | black
  | red
  deriving DecidableEq, Repr

/-- What a node adds to the black height. -/
def Color.weight : Color → ℕ
  | black => 1
  | red => 0

@[simp] theorem Color.weight_black : Color.black.weight = 1 := rfl

@[simp] theorem Color.weight_red : Color.red.weight = 0 := rfl

theorem Color.ne_red {c : Color} : c ≠ .red ↔ c = .black := by
  cases c <;> simp

/-! ### Trees -/

/-- **A binary tree of coloured nodes**, which have numbers. -/
inductive Shape
  | nil
  | node (c : Color) (i : ℕ) (l r : Shape)
  deriving DecidableEq, Repr

namespace Shape

variable {d : Side} {c : Color} {i : ℕ} {a b t : Shape} {n : ℕ}

/-- A node with `a` on the side `d` and `b` on the other. -/
def mk (d : Side) (c : Color) (i : ℕ) (a b : Shape) : Shape :=
  match d with
  | .left => node c i a b
  | .right => node c i b a

@[simp] theorem mk_opp (d : Side) (c : Color) (i : ℕ) (a b : Shape) :
  mk d.opp c i a b = mk d c i b a := by
  cases d <;> rfl

/-- Every tree with a node is one, seen from either side. -/
theorem exists_mk (d : Side) (ht : t ≠ nil) : ∃ c i a b, t = mk d c i a b := by
  cases t with
  | nil => exact absurd rfl ht
  | node c i l r =>
      cases d with
      | left => exact ⟨c, i, l, r, rfl⟩
      | right => exact ⟨c, i, r, l, rfl⟩

theorem mk_ne_nil : mk d c i a b ≠ nil := by
  cases d <;> exact Shape.noConfusion

/-- The nodes from left to right. -/
def inorder : Shape → List ℕ
  | nil => []
  | node _ i l r => l.inorder ++ i :: r.inorder

/-- How often a node occurs. -/
def occ : Shape → ℕ → ℕ
  | nil, _ => 0
  | node _ i l r, j => (if i = j then 1 else 0) + l.occ j + r.occ j

@[simp] theorem occ_nil (j : ℕ) : nil.occ j = 0 := rfl

@[simp] theorem occ_mk (j : ℕ) : (mk d c i a b).occ j =
  (if i = j then 1 else 0) + a.occ j + b.occ j := by
  cases d
  · rfl
  · exact Nat.add_right_comm _ _ _

theorem count_inorder (t : Shape) (j : ℕ) : t.inorder.count j = t.occ j := by
  induction t with
  | nil => rfl
  | node c i l r ihl ihr =>
      rw [inorder, occ, List.count_append, List.count_cons, ihl, ihr]
      simp only [beq_iff_eq]
      omega

/-- The number of nodes. -/
def size : Shape → ℕ
  | nil => 0
  | node _ _ l r => l.size + r.size + 1

theorem length_inorder (t : Shape) : t.inorder.length = t.size := by
  induction t with
  | nil => rfl
  | node c i l r ihl ihr =>
      rw [inorder, List.length_append, List.length_cons, ihl, ihr, size]
      omega

@[simp] theorem size_mk : (mk d c i a b).size = a.size + b.size + 1 := by
  cases d
  · rfl
  · exact congrArg (· + 1) (Nat.add_comm b.size a.size)

/-- The colour of the root; an empty tree is black. -/
def color : Shape → Color
  | nil => .black
  | node c _ _ _ => c

@[simp] theorem color_nil : nil.color = .black := rfl

@[simp] theorem color_mk : (mk d c i a b).color = c := by
  cases d <;> rfl

theorem ne_nil_of_red (h : t.color = .red) : t ≠ nil := by
  rintro rfl
  cases h

/-- A red tree has a red node. -/
theorem exists_red (d : Side) (h : t.color = .red) : ∃ i a b, t = mk d .red i a b := by
  obtain ⟨c, i, a, b, rfl⟩ := exists_mk d (ne_nil_of_red h)
  rw [color_mk] at h
  exact ⟨i, a, b, by rw [h]⟩

/-- **The black height**: every way down meets `n` black nodes. -/
def Height : Shape → ℕ → Prop
  | nil, n => n = 0
  | node c _ l r, n => ∃ k, n = k + c.weight ∧ l.Height k ∧ r.Height k

@[simp] theorem height_nil : nil.Height n ↔ n = 0 := Iff.rfl

theorem height_mk : (mk d c i a b).Height n ↔ ∃ k, n = k + c.weight ∧ a.Height k ∧ b.Height k := by
  cases d
  · rfl
  · constructor
    · rintro ⟨k, hk, hb, ha⟩
      exact ⟨k, hk, ha, hb⟩
    · rintro ⟨k, hk, ha, hb⟩
      exact ⟨k, hk, hb, ha⟩

@[simp] theorem height_mk_red : (mk d .red i a b).Height n ↔ a.Height n ∧ b.Height n := by
  rw [height_mk]
  constructor
  · rintro ⟨k, rfl, h⟩
    exact h
  · intro h
    exact ⟨n, rfl, h⟩

@[simp] theorem height_mk_black : (mk d .black i a b).Height (n + 1) ↔ a.Height n ∧ b.Height n := by
  rw [height_mk]
  constructor
  · rintro ⟨k, hk, h⟩
    obtain rfl : n = k := Nat.succ.inj hk
    exact h
  · intro h
    exact ⟨n, rfl, h⟩

/-- **No red node has a red child.** -/
def Sober : Shape → Prop
  | nil => True
  | node c _ l r => (c = .red → l.color = .black ∧ r.color = .black) ∧ l.Sober ∧ r.Sober

@[simp] theorem sober_nil : nil.Sober := trivial

theorem sober_mk : (mk d c i a b).Sober ↔
    (c = .red → a.color = .black ∧ b.color = .black) ∧ a.Sober ∧ b.Sober := by
  cases d
  · rfl
  · constructor
    · rintro ⟨hc, hb, ha⟩
      exact ⟨fun h => (hc h).symm, ha, hb⟩
    · rintro ⟨hc, ha, hb⟩
      exact ⟨fun h => (hc h).symm, hb, ha⟩

@[simp] theorem sober_mk_black : (mk d .black i a b).Sober ↔ a.Sober ∧ b.Sober := by
  simp [sober_mk]

@[simp] theorem sober_mk_red : (mk d .red i a b).Sober ↔
    (a.color = .black ∧ b.color = .black) ∧ a.Sober ∧ b.Sober := by
  simp [sober_mk]

/-- **A red-black tree.** -/
structure RedBlack (t : Shape) : Prop where
  /-- the root is black -/
  root : t.color = .black
  /-- no red node has a red child -/
  sober : t.Sober
  /-- all ways down have the same number of black nodes -/
  height : ∃ n, t.Height n

/-- The tree with a black root. -/
def blacken : Shape → Shape
  | nil => nil
  | node _ i l r => node .black i l r

@[simp] theorem blacken_nil : nil.blacken = nil := rfl

@[simp] theorem blacken_mk : (mk d c i a b).blacken = mk d .black i a b := by
  cases d <;> rfl

theorem blacken_of_black (h : t.color = .black) : t.blacken = t := by
  cases t with
  | nil => rfl
  | node =>
      cases h
      rfl

theorem inorder_blacken (t : Shape) : t.blacken.inorder = t.inorder := by
  cases t <;> rfl

theorem color_blacken (t : Shape) : t.blacken.color = .black := by
  cases t <;> rfl

theorem Sober.blacken (h : t.Sober) : t.blacken.Sober := by
  cases t with
  | nil => trivial
  | node => exact ⟨fun h => (nomatch h), h.2⟩

/-- A tree with a black root, if everything else is in order. -/
theorem RedBlack.of_blacken (hh : t.Height n) (hs : t.blacken.Sober) : t.blacken.RedBlack := by
  refine ⟨t.color_blacken, hs, ?_⟩
  cases t with
  | nil => exact ⟨n, hh⟩
  | node =>
      obtain ⟨k, -, h⟩ := hh
      exact ⟨k + 1, k, rfl, h⟩

/-- A red root that is made black. -/
theorem Height.blacken (h : t.Height n) (ht : t.color = .red) : t.blacken.Height (n + 1) := by
  cases t with
  | nil => cases ht
  | node =>
      cases ht
      obtain ⟨k, hk, h⟩ := h
      exact ⟨k, congrArg (· + 1) hk, h⟩

/-- The order of the nodes depends on their order in the subtrees only. -/
theorem inorder_mk_congr {a' b' : Shape} (c' : Color) (ha : a.inorder = a'.inorder)
    (hb : b.inorder = b'.inorder) : (mk d c i a b).inorder = (mk d c' i a' b').inorder := by
  cases d <;> simp [mk, inorder, ha, hb]

end Shape

/-! ### Holes -/

/-- **A tree with a hole**, from the hole upwards: the node above it with the side of the hole, its
colour and what is on its other side. -/
inductive Hole
  | top
  | under (d : Side) (c : Color) (i : ℕ) (s : Shape) (up : Hole)

namespace Hole

variable {P Q : Hole} {t t' : Shape} {c : Color} {n : ℕ}

/-- The hole is filled. -/
def plug : Hole → Shape → Shape
  | top, t => t
  | under d c i s up, t => up.plug (.mk d c i t s)

theorem plug_ne_nil (P : Hole) (ht : t ≠ .nil) : P.plug t ≠ .nil := by
  induction P generalizing t with
  | top => exact ht
  | under d c i s up ih => exact ih Shape.mk_ne_nil

/-- How often a node occurs outside the hole. -/
def occ : Hole → ℕ → ℕ
  | top, _ => 0
  | under _ _ i s up, j => (if i = j then 1 else 0) + s.occ j + up.occ j

theorem occ_plug (P : Hole) (t : Shape) (j : ℕ) : (P.plug t).occ j = t.occ j + P.occ j := by
  induction P generalizing t with
  | top => rfl
  | under d c i s up ih =>
      rw [plug, ih, Shape.occ_mk, occ]
      omega

/-- The number of nodes above the hole. -/
def depth : Hole → ℕ
  | top => 0
  | under _ _ _ _ up => up.depth + 1

theorem depth_le (P : Hole) (t : Shape) : P.depth + t.size ≤ (P.plug t).size := by
  induction P generalizing t with
  | top => exact (Nat.zero_add _).le
  | under d c i s up ih =>
      refine le_trans ?_ (ih (.mk d c i t s))
      rw [depth, Shape.size_mk]
      omega

/-- The nodes outside a hole keep their order. -/
theorem inorder_congr (P : Hole) (h : t.inorder = t'.inorder) :
    (P.plug t).inorder = (P.plug t').inorder := by
  induction P generalizing t t' with
  | top => exact h
  | under d c i s up ih => exact ih (Shape.inorder_mk_congr c h rfl)

/-- The nodes before and behind a hole. -/
theorem inorder_plug (P : Hole) : ∃ l r, ∀ u : Shape, (P.plug u).inorder = l ++ u.inorder ++ r := by
  induction P with
  | top => exact ⟨[], [], fun u => (List.append_nil _).symm⟩
  | under d c i s up ih =>
      obtain ⟨l, r, h⟩ := ih
      cases d with
      | left => exact ⟨l, i :: s.inorder ++ r, fun u => by simp [plug, h, Shape.mk, Shape.inorder]⟩
      | right => exact ⟨l ++ s.inorder ++ [i], r,
          fun u => by simp [plug, h, Shape.mk, Shape.inorder]⟩

/-- A hole in what fills a hole. -/
def append : Hole → Hole → Hole
  | top, P => P
  | under d c i s up, P => under d c i s (up.append P)

theorem plug_append (Q P : Hole) (t : Shape) : (Q.append P).plug t = P.plug (Q.plug t) := by
  induction Q generalizing t with
  | top => rfl
  | under d c i s up ih => exact ih _

theorem depth_append (Q P : Hole) : (Q.append P).depth = Q.depth + P.depth := by
  induction Q with
  | top => exact (Nat.zero_add _).symm
  | under d c i s up ih =>
      rw [append, depth, depth, ih]
      omega

theorem occ_append (Q P : Hole) (j : ℕ) : (Q.append P).occ j = Q.occ j + P.occ j := by
  induction Q with
  | top => exact (Nat.zero_add _).symm
  | under d c i s up ih =>
      rw [append, occ, occ, ih]
      omega

/-- **What a hole can be filled with**: a tree with a root of colour `c` and black height `n`. -/
def Fits : Hole → Color → ℕ → Prop
  | top, c, _ => c = .black
  | under _ c' _ s up, c, n =>
      s.Height n ∧ s.Sober ∧ (c' = .red → c = .black ∧ s.color = .black) ∧
        up.Fits c' (n + c'.weight)

/-- What a red tree fits into, a black tree fits into. -/
theorem Fits.toBlack (h : P.Fits c n) : P.Fits .black n := by
  cases P with
  | top => rfl
  | under => exact ⟨h.1, h.2.1, fun hc => ⟨rfl, (h.2.2.1 hc).2⟩, h.2.2.2⟩

/-- **A hole that is filled with what fits is a red-black tree.** -/
theorem Fits.plug (h : P.Fits t.color n) (hh : t.Height n) (hs : t.Sober) :
    (P.plug t).RedBlack := by
  induction P generalizing t n with
  | top => exact ⟨h, hs, n, hh⟩
  | under d c' i s up ih =>
      obtain ⟨hsh, hss, hred, hup⟩ := h
      refine ih (n := n + c'.weight) ?_ ?_ ?_
      · rw [Shape.color_mk]
        exact hup
      · exact Shape.height_mk.2 ⟨n, rfl, hh, hsh⟩
      · exact Shape.sober_mk.2 ⟨hred, hs, hss⟩

/-- What fits does not depend on the numbers of the nodes. -/
theorem Fits.rename {d : Side} {c' : Color} {i : ℕ} {s : Shape}
    (h : (Q.append (under d c' i s P)).Fits c n) (j : ℕ) :
    (Q.append (under d c' j s P)).Fits c n := by
  induction Q generalizing c n with
  | top => exact h
  | under e c₁ k s' up ih => exact ⟨h.1, h.2.1, h.2.2.1, ih h.2.2.2⟩

end Hole

/-- The place of a node in a tree. -/
theorem Shape.exists_place {t : Shape} {x : ℕ} (h : t.occ x ≠ 0) :
    ∃ P c l r, t = Hole.plug P (.node c x l r) := by
  induction t with
  | nil => exact absurd rfl h
  | node c i l r ihl ihr =>
      rw [Shape.occ] at h
      by_cases hi : i = x
      · exact ⟨.top, c, l, r, by rw [hi]; rfl⟩
      · rw [if_neg hi] at h
        by_cases hl : l.occ x = 0
        · obtain ⟨P, c', l', r', rfl⟩ := ihr (by omega)
          exact ⟨P.append (.under .right c i l .top), c', l', r', by rw [Hole.plug_append]; rfl⟩
        · obtain ⟨P, c', l', r', rfl⟩ := ihl hl
          exact ⟨P.append (.under .left c i r .top), c', l', r', by rw [Hole.plug_append]; rfl⟩

/-- **What fills a hole in a red-black tree fits.** -/
theorem Shape.RedBlack.fits {P : Hole} {t : Shape} (h : (P.plug t).RedBlack) :
    ∃ n, P.Fits t.color n ∧ t.Height n ∧ t.Sober := by
  induction P generalizing t with
  | top =>
      obtain ⟨n, hn⟩ := h.height
      exact ⟨n, h.root, hn, h.sober⟩
  | under d c i s up ih =>
      obtain ⟨n, hfit, hh, hs⟩ := ih h
      obtain ⟨k, rfl, ht, hsh⟩ := Shape.height_mk.1 hh
      obtain ⟨hred, hts, hss⟩ := Shape.sober_mk.1 hs
      rw [Shape.color_mk] at hfit
      exact ⟨k, ⟨hsh, hss, hred, hfit⟩, ht, hts⟩

end CacheProxy
