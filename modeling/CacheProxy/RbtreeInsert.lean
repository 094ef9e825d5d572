/-
**Insertion into the red-black tree of timeouts.**

`rbtree_insert` goes down from the root to an empty place, puts the new node there in red, and goes
up again while the parent of the node it is at is red.  The loop is at a red node that fits into its
hole except for its colour; every turn moves it two nodes up, or ends it after at most two
rotations.

Main definitions:

* `KeySorted` — nodes in the order of their keys;
* `Tidy` — a red-black tree of its keys is in memory.

Main results:

* `Shape.At.descend` — the first loop finds the place of the key;
* `Holds.insertFixup` — **the second loop ends**, with a red-black tree of the same nodes;
* `Tidy.insert` — what `rbtree_insert` does.
-/
import CacheProxy.Rbtree

namespace CacheProxy

namespace Holds

variable {g : Ground} {st : RbTree} {P up : Hole} {t z s u : Shape} {d dp : Side} {c : Color}
  {i p q k n : ℕ}

/-- **The loop ends below a black node.** -/
theorem insertFixup_done (h : Holds g st (.under d .black i s up) t) (ht : t ≠ .nil) (fuel : ℕ) :
    RbTree.insertFixup (fuel + 1) st (t.ptr g.sen) = some st := by
  rw [RbTree.insertFixup, if_neg]
  rintro ⟨-, hred⟩
  rw [h.parent ht] at hred
  have := (zip.1 h).isRed
  rw [Shape.ptr_mk, Shape.color_mk] at this
  exact nomatch this.1 hred

/-- The end of a turn: the parent comes in the place of the grandparent. -/
theorem insertTurn (h : Holds g st (.under d .red q s (.under d .black k u up)) t) (ht : t ≠ .nil) :
    Holds g (st.insertTurn d (t.ptr g.sen)).1 (.under d .black q (.mk d .red k s u) up) t := by
  have hq : ∀ {c c' : Color} {st : RbTree}, Holds g st (.under d c q s (.under d c' k u up)) t →
      (st.mem (t.ptr g.sen)).parent = q ∧ (st.mem q).parent = k := by
    intro c c' st h
    refine ⟨h.parent ht, ?_⟩
    have := (zip.1 h).parent Shape.mk_ne_nil
    rwa [Shape.ptr_mk] at this
  have h₁ := zip.2 ((zip.1 h).setColor .black)
  have h₂ := zip.2 (zip.2 ((zip.1 (zip.1 h₁)).setColor .red))
  unfold RbTree.insertTurn
  dsimp only
  rw [(hq h).1, RbTree.rbtreeBlack, (hq h₁).1, (hq h₁).2, RbTree.rbtreeRed, (hq h₂).1, (hq h₂).2]
  have h₃ := zip.1 (zip.1 h₂)
  rw [← Shape.mk_opp, ← Shape.mk_opp d _ q] at h₃
  have h₄ := h₃.rotate
  rw [Shape.mk_opp, Shape.mk_opp] at h₄
  exact zip.2 h₄

/-- The grandparent of a node. -/
theorem grand {c' : Color} (h : Holds g st (.under dp c p s (.under d c' k u up)) t) :
    (st.mem p).parent = k := by
  have := (zip.1 h).parent Shape.mk_ne_nil
  rwa [Shape.ptr_mk] at this

/-- The uncle of a node. -/
theorem uncle {c' : Color} (h : Holds g st (.under dp c p s (.under d c' k u up)) t) :
    (st.mem k).link d.opp = u.ptr g.sen ∧ (st.rbtreeIsRed (u.ptr g.sen) ↔ u.color = .red) :=
  ⟨(zip.1 (zip.1 h)).far, (zip_far.2 (zip.1 (zip.1 h))).isRed⟩

/-- **A turn with a red uncle**: colours change, and the loop goes on from the grandparent. -/
theorem insertCase_red (h : Holds g st (.under dp .red p s (.under d .black k u up)) z)
    (hz : z ≠ .nil)
    (hu : u.color = .red) :
    Holds g (st.insertCase d (z.ptr g.sen)).1 up (.mk d .red k (.mk dp .black p z s) u.blacken) ∧
      (st.insertCase d (z.ptr g.sen)).2 = k := by
  have hcase : st.insertCase d (z.ptr g.sen) =
      (((st.rbtreeBlack p).rbtreeBlack (u.ptr g.sen)).rbtreeRed k, k) := by
    unfold RbTree.insertCase
    dsimp only
    rw [h.parent hz, h.grand, h.uncle.1, if_pos (h.uncle.2.2 hu)]
  rw [hcase]
  refine ⟨?_, rfl⟩
  obtain ⟨iu, ua, ub, rfl⟩ := Shape.exists_red d hu
  rw [Shape.ptr_mk, Shape.blacken_mk]
  have h₁ := zip.1 ((zip.1 h).setColor .black)
  have h₂ := zip_far.1 ((zip_far.2 h₁).setColor .black)
  exact h₂.setColor .red

/-- **A turn with a black uncle**: after at most two rotations there is a black node in the place of
the grandparent, and the loop is below it. -/
theorem insertCase_black (h : Holds g st (.under dp .red p s (.under d .black k u up)) z)
    (hz : z.color = .red) (hu : u.color = .black) (hs : s.color = .black) (hhz : z.Height n)
    (hhs : s.Height n) (hhu : u.Height n) (hsz : z.Sober) (hss : s.Sober) (hsu : u.Sober) :
    ∃ q r t, Holds g (st.insertCase d (z.ptr g.sen)).1 (.under d .black q r up) t ∧
      (st.insertCase d (z.ptr g.sen)).2 = t.ptr g.sen ∧ t ≠ .nil ∧
      (Shape.mk d .black q t r).Height (n + 1) ∧ (Shape.mk d .black q t r).Sober ∧
      (Shape.mk d .black q t r).inorder = (Shape.mk d .black k (.mk dp .red p z s) u).inorder := by
  have hz0 := Shape.ne_nil_of_red hz
  have hcase : st.insertCase d (z.ptr g.sen) =
      if z.ptr g.sen = (st.mem p).link d.opp then RbTree.insertTurn d (RbTree.rotate d st p) p
      else RbTree.insertTurn d st (z.ptr g.sen) := by
    unfold RbTree.insertCase
    dsimp only
    rw [h.parent hz0, h.grand, h.uncle.1, if_neg (by rw [h.uncle.2, hu]; simp)]
  rw [hcase]
  rcases d.eq_or_opp dp with rfl | rfl
  · -- the node is outside: one rotation
    have hne : z.ptr g.sen ≠ (st.mem p).link dp.opp := by
      rw [(zip.1 h).far]
      exact h.ptr_ne (.inl hz0)
    rw [if_neg hne]
    refine ⟨p, .mk dp .red k s u, z, h.insertTurn hz0, rfl, hz0, ?_, ?_, ?_⟩
    · simp [hhz, hhs, hhu]
    · simp [hsz, hss, hsu, hs, hu]
    · cases dp <;> simp [Shape.mk, Shape.inorder]
  · -- the node is inside: it is turned outside first
    rw [if_pos (zip.1 h).near.symm]
    obtain ⟨iz, za, zb, rfl⟩ := Shape.exists_red d hz
    have h₁ := zip.1 h
    rw [Shape.mk_opp] at h₁
    have h₂ := zip.2 h₁.rotate
    rw [Shape.height_mk_red] at hhz
    rw [Shape.sober_mk_red] at hsz
    have hne : Shape.mk d .red p s za ≠ .nil := Shape.ne_nil_of_red Shape.color_mk
    have h₃ := h₂.insertTurn hne
    rw [Shape.ptr_mk] at h₃
    refine ⟨iz, .mk d .red k zb u, .mk d .red p s za, h₃, (Shape.ptr_mk ..).symm, hne, ?_, ?_, ?_⟩
    · simp [hhz, hhs, hhu]
    · simp [hsz, hss, hsu, hs, hu]
    · cases d <;> simp [Shape.mk, Shape.inorder, Side.opp]

/-- **The second loop of `rbtree_insert` ends**, and leaves a red-black tree once its root is black,
with the nodes in the same order. -/
theorem insertFixup {fuel : ℕ} (h : Holds g st P z) (hz : z.color = .red) (hfit : P.Fits .black n)
    (hh : z.Height n) (hs : z.Sober) (hfuel : P.depth < fuel) :
    ∃ st' t, RbTree.insertFixup fuel st (z.ptr g.sen) = some st' ∧ Holds g st' .top t ∧ t ≠ .nil ∧
      t.inorder = (P.plug z).inorder ∧ t.blacken.RedBlack := by
  induction fuel using Nat.strong_induction_on generalizing st P z n with
  | _ fuel ih =>
  obtain ⟨fuel, rfl⟩ : ∃ k, fuel = k + 1 := ⟨fuel - 1, by omega⟩
  have hz0 := Shape.ne_nil_of_red hz
  cases P with
  | top =>
      refine ⟨st, z, ?_, h, hz0, rfl, Shape.RedBlack.of_blacken hh hs.blacken⟩
      have hroot : z.ptr g.sen = st.root := h.hole.symm
      rw [RbTree.insertFixup, if_neg]
      exact fun hno => hno.1 hroot
  | under dp cp p s up =>
      obtain ⟨hsh, hss, hred, hup⟩ := hfit
      cases cp with
      | black =>
          refine ⟨st, _, h.insertFixup_done hz0 fuel, unzip.2 h, Hole.plug_ne_nil _ hz0, rfl, ?_⟩
          have hfit : (Hole.under dp .black p s up).Fits z.color n :=
            ⟨hsh, hss, fun h => (nomatch h), hup⟩
          have hrb := hfit.plug hh hs
          rwa [Shape.blacken_of_black hrb.root]
      | red =>
          cases up with
          | top => cases hup
          | under d cg k u up =>
              have hup : (Hole.under d cg k u up).Fits .red n := hup
              obtain ⟨huh, hus, hgred, hup⟩ := hup
              obtain rfl : cg = .black := by
                cases cg with
                | black => rfl
                | red => exact (nomatch (hgred rfl).1)
              have hstep : RbTree.insertFixup (fuel + 1) st (z.ptr g.sen) =
                  RbTree.insertFixup fuel (st.insertCase d (z.ptr g.sen)).1
                    (st.insertCase d (z.ptr g.sen)).2 := by
                have hside := (zip.1 h).side_eq (.inl (Shape.ne_nil_of_red Shape.color_mk))
                rw [Shape.ptr_mk] at hside
                have hpred := (zip.1 h).isRed.2 Shape.color_mk
                rw [Shape.ptr_mk] at hpred
                rw [RbTree.insertFixup, h.parent hz0, if_pos ⟨h.ne_root, hpred⟩]
                dsimp only
                rw [h.grand, hside]
              rw [hstep]
              rw [Hole.depth, Hole.depth] at hfuel
              rcases hu : u.color with _ | _
              · obtain ⟨q, r, t, ht, hnode, ht0, hht, hst, hord⟩ :=
                  h.insertCase_black hz hu (hred rfl).2
                  hh hsh huh hs hss hus
                obtain ⟨fuel, rfl⟩ : ∃ k, fuel = k + 1 := ⟨fuel - 1, by omega⟩
                refine ⟨_, _, by rw [hnode]; exact ht.insertFixup_done ht0 fuel, unzip.2 ht,
                  Hole.plug_ne_nil _ ht0,
                  up.inorder_congr hord, ?_⟩
                have hfit : up.Fits (Shape.mk d .black q t r).color (n + 1) := by
                  rw [Shape.color_mk]
                  exact hup
                have hrb := hfit.plug hht hst
                rw [Shape.blacken_of_black]
                · exact hrb
                · exact hrb.root
              · obtain ⟨ht, hnode⟩ := h.insertCase_red hz0 hu
                have hub : u.blacken.Height (n + 1) ∧ u.blacken.Sober := by
                  obtain ⟨iu, ua, ub, rfl⟩ := Shape.exists_red d hu
                  rw [Shape.height_mk_red] at huh
                  rw [Shape.sober_mk_red] at hus
                  rw [Shape.blacken_mk]
                  simp [huh, hus]
                obtain ⟨st', t, hrun, hst', ht0, hord, hrb⟩ := ih fuel (by omega) ht Shape.color_mk
                  hup (by simp [hub, hh, hsh]) (by simp [hub, hs, hss, Shape.color_blacken])
                    (by omega)
                refine ⟨st', t, ?_, hst', ht0, ?_, hrb⟩
                · rw [hnode]
                  rwa [Shape.ptr_mk] at hrun
                · rw [hord]
                  exact up.inorder_congr
                    (Shape.inorder_mk_congr _ (Shape.inorder_mk_congr _ rfl rfl)
                    u.inorder_blacken)

/-! ### The place of a new node -/

/-- A new node is put into an empty place. -/
theorem link {x : ℕ} (h : Holds g st (.under d c i s up) .nil)
    (hx : (Hole.under d c i s up).occ x = 0)
    (hsen : x ≠ g.sen) :
    Holds g ((st.setLink i d x).upd x fun n =>
      { n with parent := i, left := g.sen, right := g.sen, color := .red })
      (.under d c i s up) (.mk .left .red x .nil .nil) := by
  set f : RbNode → RbNode := fun n =>
    { n with parent := i, left := g.sen, right := g.sen, color := .red }
  obtain ⟨hs, hP, -, honce, hprop, htag, hout⟩ := h
  have hxi : i ≠ x := by
    rintro rfl
    simp only [Hole.occ, if_true] at hx
    omega
  have hself : ((st.setLink i d x).upd x f).mem x = f ((st.setLink i d x).mem x) :=
    RbTree.mem_upd_self _ _ _
  have hother : ∀ j, j ≠ x → ((st.setLink i d x).upd x f).mem j = (st.setLink i d x).mem j :=
    fun j hj =>
    RbTree.mem_upd_of_ne _ hj _
  refine ⟨hs, ?_, ?_, fun j => ?_, ?_, fun j => ?_, fun j hj => ?_⟩
  · have hi := honce i
    rw [Shape.occ_nil, Nat.zero_add] at hi
    exact (hP.setHole hi x).congr fun j hj => hother j (by rintro rfl; exact hj hx)
  · exact ⟨congrArg RbNode.left hself, congrArg RbNode.right hself, congrArg RbNode.color hself,
      by rintro p ⟨⟩; exact congrArg RbNode.parent hself, trivial, trivial⟩
  · have := honce j
    rw [Shape.occ_mk, Shape.occ_nil]
    split
    · next hj =>
      subst hj
      omega
    · omega
  · rw [Shape.occ_mk, if_neg hsen, Shape.occ_nil]
    exact hprop
  · exact (RbTree.tag_upd (f := f) _ x j fun _ => rfl).trans
      ((RbTree.tag_setLink ..).trans (htag j))
  · rw [Shape.occ_mk, Shape.occ_nil] at hj
    have hjx : j ≠ x := by
      rintro rfl
      simp at hj
    have hji : j ≠ i := by
      rintro rfl
      simp [Hole.occ] at hj
    rw [hother j hjx, RbTree.setLink, st.mem_upd_of_ne hji]
    refine hout j ?_
    rw [Shape.occ_nil]
    omega

end Holds

/-- Nodes in the order of their keys. -/
def KeySorted (tag : ℕ → Int64 × ℕ) (l : List ℕ) : Prop :=
  l.Pairwise fun a b => (tag a).1 ≤ (tag b).1

/-- **The first loop of `rbtree_insert` finds a place**, with smaller or equal keys before it and
keys that are not smaller behind it. -/
theorem Shape.At.descend {st : RbTree} {sen : ℕ} {t : Shape} {par : Option ℕ} {fuel : ℕ}
    (key : Int64) (ht : t.At st.mem sen par) (hsen : st.sentinel = sen) (hproper : t.occ sen = 0)
    (hne : t ≠ .nil)
    (hord : KeySorted st.tag t.inorder) (hfuel : t.size ≤ fuel) :
    ∃ d c i s up l r, st.descend key fuel (t.ptr sen) = some (i, d) ∧
      (Hole.under d c i s up).plug .nil = t ∧
      (∀ u, ((Hole.under d c i s up).plug u).inorder = l ++ u.inorder ++ r) ∧
      (∀ x ∈ l, (st.tag x).1 ≤ key) ∧ ∀ x ∈ r, key ≤ (st.tag x).1 := by
  induction t generalizing par fuel with
  | nil => exact absurd rfl hne
  | node c i l r ihl ihr =>
      obtain ⟨hl, hr, -, -, hlt, hrt⟩ := ht
      rw [Shape.occ] at hproper
      rw [Shape.size] at hfuel
      obtain ⟨fuel, rfl⟩ : ∃ k, fuel = k + 1 := ⟨fuel - 1, by omega⟩
      rw [Shape.inorder, KeySorted, List.pairwise_append] at hord
      obtain ⟨hol, hoir, hlir⟩ := hord
      obtain ⟨hoi, hor⟩ := List.pairwise_cons.1 hoir
      by_cases hkey : key < (st.mem i).key
      · have hle : ∀ x ∈ i :: r.inorder, key ≤ (st.tag x).1 := by
          intro x hx
          rcases List.mem_cons.1 hx with rfl | hx
          · exact Int64.le_of_lt hkey
          · exact Int64.le_trans (Int64.le_of_lt hkey) (hoi x hx)
        by_cases hnil : l = .nil
        · subst hnil
          refine ⟨.left, c, i, r, .top, [], i :: r.inorder, ?_, rfl, fun u => rfl, by simp, hle⟩
          change st.descend key (fuel + 1) i = _
          simp only [RbTree.descend, hkey, if_true, RbNode.link, hl, hsen, Shape.ptr_nil]
        · obtain ⟨d, c', i', s, up, l', r', hrun, hplug, hin, hl', hr'⟩ :=
            ihl hlt (by omega) hnil hol (show l.size ≤ fuel by omega)
          refine ⟨d, c', i', s, up.append (.under .left c i r .top), l', r' ++ i :: r.inorder, ?_,
            ?_,
            fun u => ?_, hl', fun x hx => ?_⟩
          · change st.descend key (fuel + 1) i = _
            simp only [RbTree.descend, hkey, if_true, RbNode.link, hl, hsen]
            rw [if_neg (Shape.ptr_ne_sen (by omega) hnil)]
            exact hrun
          · change (up.append _).plug _ = _
            rw [Hole.plug_append]
            exact congrArg (Shape.node c i · r) hplug
          · change ((up.append _).plug _).inorder = _
            rw [Hole.plug_append]
            change ((Hole.under d c' i' s up).plug u).inorder ++ i :: r.inorder = _
            rw [hin, List.append_assoc]
          · rcases List.mem_append.1 hx with hx | hx
            · exact hr' x hx
            · exact hle x hx
      · have hki : (st.tag i).1 ≤ key := Int64.not_lt.1 hkey
        have hle : ∀ x ∈ l.inorder ++ [i], (st.tag x).1 ≤ key := by
          intro x hx
          rcases List.mem_append.1 hx with hx | hx
          · exact Int64.le_trans (hlir x hx i (List.mem_cons_self ..)) hki
          · rw [List.mem_singleton.1 hx]
            exact hki
        by_cases hnil : r = .nil
        · subst hnil
          refine ⟨.right, c, i, l, .top, l.inorder ++ [i], [], ?_, rfl, fun u => ?_, hle, by simp⟩
          · change st.descend key (fuel + 1) i = _
            simp only [RbTree.descend, hkey, if_false, RbNode.link, hr, hsen, Shape.ptr_nil,
              if_true]
          · change l.inorder ++ i :: u.inorder = _
            simp
        · obtain ⟨d, c', i', s, up, l', r', hrun, hplug, hin, hl', hr'⟩ :=
            ihr hrt (by omega) hnil hor (show r.size ≤ fuel by omega)
          refine ⟨d, c', i', s, up.append (.under .right c i l .top), l.inorder ++ [i] ++ l', r',
            ?_, ?_,
            fun u => ?_, fun x hx => ?_, hr'⟩
          · change st.descend key (fuel + 1) i = _
            simp only [RbTree.descend, hkey, if_false, RbNode.link, hr, hsen]
            rw [if_neg (Shape.ptr_ne_sen (by omega) hnil)]
            exact hrun
          · change (up.append _).plug _ = _
            rw [Hole.plug_append]
            exact congrArg (Shape.node c i l) hplug
          · change ((up.append _).plug _).inorder = _
            rw [Hole.plug_append]
            change l.inorder ++ i :: ((Hole.under d c' i' s up).plug u).inorder = _
            rw [hin]
            simp
          · rcases List.mem_append.1 hx with hx | hx
            · exact hle x hx
            · exact hl' x hx

/-- Putting a node where its key belongs keeps the order. -/
theorem KeySorted.insert {tag : ℕ → Int64 × ℕ} {l r : List ℕ} {x : ℕ} (h : KeySorted tag (l ++ r))
    (hl : ∀ y ∈ l, (tag y).1 ≤ (tag x).1) (hr : ∀ y ∈ r, (tag x).1 ≤ (tag y).1) :
    KeySorted tag (l ++ [x] ++ r) := by
  obtain ⟨hll, hrr, hlr⟩ := List.pairwise_append.1 h
  rw [List.append_assoc]
  refine List.pairwise_append.2 ⟨hll, List.pairwise_cons.2 ⟨hr, hrr⟩, fun a ha b hb => ?_⟩
  rcases List.mem_cons.1 hb with rfl | hb
  · exact hl a ha
  · exact hlr a ha b hb

/-- **The tree is a red-black tree of its keys.** -/
structure Tidy (g : Ground) (st : RbTree) (t : Shape) : Prop where
  holds : Holds g st .top t
  redBlack : t.RedBlack
  sorted : KeySorted g.tag t.inorder

/-- The root is made black. -/
theorem Holds.blacken {g : Ground} {st : RbTree} {t : Shape} (h : Holds g st .top t)
    (ht : t ≠ .nil) :
    Holds g (st.rbtreeBlack st.root) .top t.blacken := by
  obtain ⟨c, i, a, b, rfl⟩ := Shape.exists_mk .left ht
  have hroot : st.root = i := h.hole.trans (Shape.ptr_mk ..)
  rw [hroot, Shape.blacken_mk]
  exact h.setColor .black

/-- **`rbtree_insert`** puts a new node into the tree. -/
theorem Tidy.insert {g : Ground} {st : RbTree} {t : Shape} {x fuel : ℕ} (h : Tidy g st t)
    (hx : t.occ x = 0) (hsen : x ≠ g.sen) (hfuel : t.size < fuel) :
    ∃ st' t', st.rbtreeInsert fuel x = some st' ∧ Tidy g st' t' ∧
      t'.inorder.Perm (x :: t.inorder) := by
  obtain ⟨hh, hrb, hord⟩ := h
  have htag : st.tag = g.tag := funext hh.tags
  by_cases hnil : t = .nil
  · subst hnil
    set f : RbNode → RbNode := fun n =>
      { n with parent := 0, left := g.sen, right := g.sen, color := .black }
    refine ⟨{ st.upd x f with root := x }, .node .black x .nil .nil, ?_,
      ⟨⟨hh.sentinel, rfl, ?_, ?_, ?_, ?_, ?_⟩,
      ⟨rfl, by simp [Shape.Sober], 1, 0, rfl, rfl, rfl⟩, List.pairwise_singleton _ _⟩,
        List.Perm.refl _⟩
    · rw [RbTree.rbtreeInsert, if_pos (hh.hole.trans hh.sentinel.symm), hh.sentinel]
    · have hself : (st.upd x f).mem x = f (st.mem x) := st.mem_upd_self x f
      exact ⟨congrArg RbNode.left hself, congrArg RbNode.right hself, congrArg RbNode.color hself,
        fun p hp => (Option.not_mem_none p hp).elim, trivial, trivial⟩
    · intro j
      simp only [Shape.occ, Hole.occ]
      split <;> omega
    · simp [Shape.occ, Hole.occ, hsen]
    · exact fun j => (RbTree.tag_upd (f := f) st x j fun _ => rfl).trans (hh.tags j)
    · intro j hj
      have hjx : j ≠ x := by
        rintro rfl
        simp [Shape.occ] at hj
      exact (st.mem_upd_of_ne hjx f).trans (hh.out j rfl)
  · obtain ⟨d, c, i, s, up, l, r, hrun, hplug, hin, hl, hr⟩ :=
      hh.tree.descend (st.mem x).key hh.sentinel (by have := hh.proper; omega) hnil
        (by rw [htag]; exact hord) hfuel.le
    have hocc : (Hole.under d c i s up).occ x = 0 := by
      have := Hole.occ_plug (.under d c i s up) .nil x
      rw [hplug, hx, Shape.occ_nil] at this
      omega
    have hzip : Holds g st (.under d c i s up) .nil :=
      Holds.unzip.1 (by rw [hplug]; exact hh)
    obtain ⟨n, hfit, hn, -⟩ := Shape.RedBlack.fits (P := .under d c i s up) (t := .nil)
      (by rw [hplug]; exact hrb)
    have hdepth := Hole.depth_le (.under d c i s up) .nil
    rw [hplug] at hdepth
    obtain ⟨st', t', hfix, hst', ht0, hin', hrb'⟩ :=
      (hzip.link hocc hsen).insertFixup Shape.color_mk
      hfit (by simpa using hn) (by simp) (show (Hole.under d c i s up).depth < fuel by omega)
    have hold : t.inorder = l ++ r := by
      have := hin .nil
      rw [hplug] at this
      simpa [Shape.inorder] using this
    have hnew : t'.inorder = l ++ [x] ++ r := hin'.trans (hin _)
    refine ⟨st'.rbtreeBlack st'.root, t'.blacken, ?_, ⟨hst'.blacken ht0, hrb', ?_⟩, ?_⟩
    · have hne : st.root ≠ st.sentinel := by
        rw [hh.sentinel, show st.root = t.ptr g.sen from hh.hole]
        exact Shape.ptr_ne_sen (by have := hh.proper; omega) hnil
      have hroot : st.root = t.ptr g.sen := hh.hole
      rw [Shape.ptr_mk] at hfix
      rw [RbTree.rbtreeInsert, if_neg hne, hroot, hrun, Option.bind_some]
      dsimp only
      rw [RbTree.sentinel_setLink, hh.sentinel, hfix, Option.map_some]
    · rw [Shape.inorder_blacken, hnew]
      rw [hold, ← htag] at hord
      rw [← htag]
      exact hord.insert hl hr
    · rw [Shape.inorder_blacken, hnew, hold, List.append_assoc]
      exact List.perm_middle

end CacheProxy
