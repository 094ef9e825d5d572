/-
**Deletion from the red-black tree of timeouts.**

`rbtree_delete` takes a node out of its place, or the node with the next key, which then takes the
place of the first; if a black node is missing there, a loop goes up from the place.  The place may
be empty: the loop then starts at the sentinel, whose link to its parent was set for it.

Main definitions:

* `Holds.Mends` — the loop runs to its end, with a red-black tree of the same nodes;
* `Spliced` — the tree before the loop, with a hole where a black node may be missing;
* `Deleted` — what is to be achieved.

Main results:

* `Holds.deleteFixup` — **the loop of `rbtree_delete` ends**, with a red-black tree;
* `Holds.spliceOne`, `Holds.spliceTwo` — taking out a node with at most one child, or with two;
* `Tidy.delete` — what `rbtree_delete` does.
-/
import CacheProxy.RbtreeInsert

namespace CacheProxy

namespace Holds

variable {g : Ground} {st : RbTree} {P up : Hole} {t a b wn wf : Shape} {d : Side} {c cp cw : Color}
  {i p wi n : ℕ}

/-! ### The loop -/

/-- The node above the place of the loop, which may be that of the sentinel. -/
theorem above {s : Shape} (h : Holds g st (.under d c i s up) t)
    (hsen : t = .nil → (g.rest g.sen).parent = i) : (st.mem (t.ptr g.sen)).parent = i := by
  by_cases ht : t = .nil
  · rw [ht, Shape.ptr_nil, h.out _ h.proper]
    exact hsen ht
  · exact h.parent ht

/-- **The place of the loop is made black.** -/
theorem rbtreeBlack (h : Holds g st P t) : Holds g (st.rbtreeBlack (t.ptr g.sen)) P t.blacken := by
  by_cases ht : t = .nil
  · subst ht
    have hsame : st.rbtreeBlack g.sen = st := by
      have hblack := h.sen_black
      unfold RbTree.rbtreeBlack RbTree.setColor RbTree.upd
      rw [← hblack]
      simp
    rw [Shape.ptr_nil, hsame]
    exact h
  · obtain ⟨c, i, a, b, rfl⟩ := Shape.exists_mk .left ht
    rw [Shape.ptr_mk, Shape.blacken_mk]
    exact h.setColor .black

/-- The colours of both children. -/
theorem children (h : Holds g st P (.mk d c i a b)) :
    (st.rbtreeIsBlack (st.mem i).left ∧ st.rbtreeIsBlack (st.mem i).right) ↔
      a.color = .black ∧ b.color = .black := by
  have ha := (zip.2 h).isBlack
  have hb := (zip_far.2 h).isBlack
  rw [← h.near] at ha
  rw [← h.far] at hb
  rw [← ha, ← hb]
  cases d
  · rfl
  · exact and_comm

/-- **The end of the last turn**: the far nephew is red. -/
theorem deleteTurn (h : Holds g st (.under d cp p (.mk d cw wi wn wf) up) t)
    (hsen : t = .nil → (g.rest g.sen).parent = p) :
    Holds g (st.deleteTurn d (t.ptr g.sen) wi).1 up (.mk d cp wi (.mk d .black p t wn) wf.blacken) ∧
      (st.deleteTurn d (t.ptr g.sen) wi).2 = (st.deleteTurn d (t.ptr g.sen) wi).1.root := by
  refine ⟨?_, rfl⟩
  have hcp : (st.mem p).color = cp := by
    have := (zip.1 h).color
    rwa [Shape.ptr_mk, Shape.color_mk] at this
  have h₁ : Holds g (st.rbtreeCopyColor wi p) (.under d cp p (.mk d cp wi wn wf) up) t := by
    rw [RbTree.rbtreeCopyColor, hcp]
    exact zip.2 (zip_far.1 ((zip_far.2 (zip.1 h)).setColor cp))
  have h₂ : Holds g ((st.rbtreeCopyColor wi p).rbtreeBlack p)
    (.under d .black p (.mk d cp wi wn wf) up) t :=
    zip.2 ((zip.1 h₁).setColor .black)
  have hfar := (zip_far.2 (zip.1 h₂)).far
  have h₃ : Holds g (((st.rbtreeCopyColor wi p).rbtreeBlack p).rbtreeBlack (wf.ptr g.sen))
      (.under d .black p (.mk d cp wi wn wf.blacken) up) t :=
    zip.2 (zip_far.1 (zip_far.1 (zip_far.2 (zip_far.2 (zip.1 h₂))).rbtreeBlack))
  simp only [RbTree.deleteTurn, h.above hsen, h₁.above hsen, hfar, h₃.above hsen]
  exact (zip.1 h₃).rotate

/-- **A turn with a black sibling**: the loop goes on from the parent, or it ends. -/
theorem deleteRest (h : Holds g st (.under d cp p (.mk d .black wi wn wf) up) t)
    (hsen : t = .nil → (g.rest g.sen).parent = p) (ht : t.Height n) (hn : wn.Height n)
    (hf : wf.Height n)
    (hts : t.Sober) (hns : wn.Sober) (hfs : wf.Sober) :
    (Holds g (st.deleteRest d (t.ptr g.sen) wi).1 up (.mk d cp p t (.mk d .red wi wn wf)) ∧
      (st.deleteRest d (t.ptr g.sen) wi).2 = p ∧ wn.color = .black ∧ wf.color = .black) ∨
    ∃ t', Holds g (st.deleteRest d (t.ptr g.sen) wi).1 up t' ∧
      (st.deleteRest d (t.ptr g.sen) wi).2 = (st.deleteRest d (t.ptr g.sen) wi).1.root ∧
      t'.color = cp ∧ t'.Height (n + 1 + cp.weight) ∧ t'.Sober ∧
      t'.inorder = (Shape.mk d cp p t (.mk d .black wi wn wf)).inorder := by
  have hw := zip_far.2 (zip.1 h)
  by_cases hboth : wn.color = .black ∧ wf.color = .black
  · refine .inl ?_
    rw [RbTree.deleteRest, if_pos (hw.children.2 hboth)]
    refine ⟨?_, h.above hsen, hboth⟩
    exact zip_far.1 (hw.setColor .red)
  · refine .inr ?_
    rw [RbTree.deleteRest, if_neg (mt hw.children.1 hboth), hw.far]
    have hfar := (zip_far.2 hw).isBlack
    by_cases hwf : wf.color = .black
    · -- the near nephew is red: it is turned into the place of the sibling
      have hwn : wn.color = .red := by
        rcases hc : wn.color with _ | _
        · exact absurd ⟨hc, hwf⟩ hboth
        · rfl
      obtain ⟨ni, na, nb, rfl⟩ := Shape.exists_red d hwn
      rw [if_pos (hfar.2 hwf), hw.near, Shape.ptr_mk]
      have h₁ : Holds g ((st.rbtreeBlack ni).rbtreeRed wi) (.under d.opp cp p t up)
          (.mk d .red wi (.mk d .black ni na nb) wf) :=
        (zip.1 ((zip.2 hw).setColor .black)).setColor .red
      rw [← Shape.mk_opp, ← Shape.mk_opp d _ ni] at h₁
      have h₂ := h₁.rotate
      rw [Shape.mk_opp, Shape.mk_opp] at h₂
      have h₃ := zip.2 (zip_far.1 h₂)
      have hlink := (zip.1 h₃).far
      rw [Shape.ptr_mk] at hlink
      obtain ⟨h₄, hroot⟩ := h₃.deleteTurn hsen
      rw [Shape.height_mk_red] at hn
      rw [Shape.sober_mk_red] at hns
      rw [Shape.blacken_mk] at h₄
      dsimp only
      rw [h₃.above hsen, hlink]
      refine ⟨_, h₄, hroot, Shape.color_mk, ?_, ?_, ?_⟩
      · exact Shape.height_mk.2 ⟨n + 1, rfl, by simp [ht, hn], by simp [hn, hf]⟩
      · simp [Shape.sober_mk, hts, hns, hfs]
      · cases d <;> simp [Shape.mk, Shape.inorder]
    · have hwf : wf.color = .red := by
        rcases hc : wf.color with _ | _
        · exact absurd hc hwf
        · rfl
      rw [if_neg (by rw [hfar, hwf]; simp)]
      obtain ⟨h₄, hroot⟩ := h.deleteTurn hsen
      obtain ⟨fi, fa, fb, rfl⟩ := Shape.exists_red d hwf
      rw [Shape.height_mk_red] at hf
      rw [Shape.sober_mk_red] at hfs
      rw [Shape.blacken_mk] at h₄
      refine ⟨_, h₄, hroot, Shape.color_mk, ?_, ?_, ?_⟩
      · exact Shape.height_mk.2 ⟨n + 1, rfl, by simp [ht, hn], by simp [hf]⟩
      · simp [Shape.sober_mk, hts, hns, hfs]
      · cases d <;> simp [Shape.mk, Shape.inorder]

/-- **A turn with a red sibling**: it is turned into the place of the parent, and the new sibling is
black. -/
theorem deleteCase_red (h : Holds g st (.under d .black p (.mk d .red wi wn wf) up) t)
    (hsen : t = .nil → (g.rest g.sen).parent = p) :
    ∃ st', st.deleteCase d (t.ptr g.sen) = st'.deleteRest d (t.ptr g.sen) (wn.ptr g.sen) ∧
      Holds g st' (.under d .red p wn (.under d .black wi wf up)) t := by
  have hfar := (zip.1 h).far
  rw [Shape.ptr_mk] at hfar
  have hred := (zip_far.2 (zip.1 h)).isRed.2 Shape.color_mk
  rw [Shape.ptr_mk] at hred
  have h₁ : Holds g (st.rbtreeBlack wi) (.under d .black p (.mk d .black wi wn wf) up) t :=
    zip.2 (zip_far.1 ((zip_far.2 (zip.1 h)).setColor .black))
  have h₂ : Holds g ((st.rbtreeBlack wi).rbtreeRed p)
    (.under d .red p (.mk d .black wi wn wf) up) t :=
    zip.2 ((zip.1 h₁).setColor .red)
  have h₃ := zip.2 (zip.2 (zip.1 h₂).rotate)
  refine ⟨_, ?_, h₃⟩
  have hlink := (zip.1 h₃).far
  simp only [RbTree.deleteCase, h.above hsen, hfar, if_pos hred, h₁.above hsen, h₂.above hsen,
    h₃.above hsen, hlink]

theorem deleteCase_black {w : Shape} (h : Holds g st (.under d cp p w up) t)
    (hsen : t = .nil → (g.rest g.sen).parent = p) (hw : w.color = .black) :
    st.deleteCase d (t.ptr g.sen) = st.deleteRest d (t.ptr g.sen) (w.ptr g.sen) := by
  have hred := (zip_far.2 (zip.1 h)).isRed
  simp only [RbTree.deleteCase, h.above hsen, (zip.1 h).far]
  rw [if_neg (by rw [hred, hw]; simp)]

/-- The loop ends at the root or at a red node. -/
theorem deleteFixup_stop (h : Holds g st P t) (hstop : P = .top ∨ t.color = .red) (fuel : ℕ) :
    RbTree.deleteFixup (fuel + 1) st (t.ptr g.sen) = some (st.rbtreeBlack (t.ptr g.sen)) := by
  rw [RbTree.deleteFixup, if_neg]
  rintro ⟨hroot, hblack⟩
  rcases hstop with rfl | hred
  · exact hroot h.hole.symm
  · rw [h.isBlack, hred] at hblack
    cases hblack

/-- The loop runs to its end, with a red-black tree of the same nodes. -/
def Mends (g : Ground) (fuel : ℕ) (st : RbTree) (node : ℕ) (nodes : List ℕ) : Prop :=
  ∃ st' t, RbTree.deleteFixup fuel st node = some st' ∧ Holds g st' .top t ∧ t.inorder = nodes ∧
    t.RedBlack

theorem mends_red (h : Holds g st P t) (ht : t.color = .red) (hfit : P.Fits .black (n + 1))
    (hh : t.Height n)
    (hs : t.blacken.Sober) (fuel : ℕ) : Mends g (fuel + 1) st (t.ptr g.sen) (P.plug t).inorder := by
  refine ⟨_, _, h.deleteFixup_stop (.inr ht) fuel, unzip.2 h.rbtreeBlack,
    P.inorder_congr t.inorder_blacken, ?_⟩
  refine Hole.Fits.plug ?_ (hh.blacken ht) hs
  rw [Shape.color_blacken]
  exact hfit

theorem mends_root {nodes : List ℕ} {node : ℕ} (h : Holds g st P t) (hnode : node = st.root)
    (hnodes : (P.plug t).inorder = nodes) (hfit : P.Fits t.color n) (hh : t.Height n) (hs : t.Sober)
    (fuel : ℕ) : Mends g (fuel + 1) st node nodes := by
  have hrb := hfit.plug hh hs
  have htop := unzip.2 h
  have hroot : node = (P.plug t).ptr g.sen := hnode.trans htop.hole
  refine ⟨_, _, by rw [hroot]; exact htop.deleteFixup_stop (.inl rfl) fuel, htop.rbtreeBlack, ?_,
    ?_⟩
  · rw [Shape.inorder_blacken]
    exact hnodes
  · rw [Shape.blacken_of_black hrb.root]
    exact hrb

/-- **The loop of `rbtree_delete` ends**, and leaves a red-black tree: below the hole one black node
was missing. -/
theorem deleteFixup {fuel : ℕ} (h : Holds g st P t)
    (hsen₀ : t = .nil → ∀ p ∈ P.parent, (g.rest g.sen).parent = p) (hfit : P.Fits .black (n + 1))
    (hh : t.Height n) (hs : t.blacken.Sober) (hfuel : P.depth < fuel) :
    Mends g fuel st (t.ptr g.sen) (P.plug t).inorder := by
  induction fuel generalizing st P t n with
  | zero => omega
  | succ fuel ih =>
  rcases ht : t.color with _ | _
  swap
  · exact h.mends_red ht hfit hh hs fuel
  cases P with
  | top =>
      refine ⟨_, _, h.deleteFixup_stop (.inl rfl) fuel, h.rbtreeBlack, t.inorder_blacken, ?_⟩
      exact Shape.RedBlack.of_blacken hh hs
  | under d cp p w up =>
      rw [Shape.blacken_of_black ht] at hs
      have hsen : t = .nil → (g.rest g.sen).parent = p := fun h => hsen₀ h p rfl
      obtain ⟨hwh, hws, hred, hup⟩ := hfit
      have hw0 : w ≠ .nil := by
        rintro rfl
        cases hwh
      rw [Hole.depth] at hfuel
      obtain ⟨fuel, rfl⟩ : ∃ k, fuel = k + 1 := ⟨fuel - 1, by omega⟩
      have hstep : RbTree.deleteFixup (fuel + 1 + 1) st (t.ptr g.sen) =
          RbTree.deleteFixup (fuel + 1) (st.deleteCase d (t.ptr g.sen)).1
            (st.deleteCase d (t.ptr g.sen)).2 := by
        rw [RbTree.deleteFixup, if_pos ⟨h.ne_root, h.isBlack.2 ht⟩, h.above hsen]
        dsimp only
        rw [h.side_eq (.inr hw0)]
      unfold Mends
      rw [hstep]
      obtain ⟨cw, wi, wn, wf, rfl⟩ := Shape.exists_mk d hw0
      rw [Shape.color_mk] at hred
      cases cw with
      | black =>
          rw [Shape.height_mk_black] at hwh
          rw [Shape.sober_mk_black] at hws
          rw [h.deleteCase_black hsen Shape.color_mk, Shape.ptr_mk]
          rcases h.deleteRest hsen hh hwh.1 hwh.2 hs hws.1 hws.2 with ⟨h', hnode, hwn, hwf⟩ |
            ⟨t', h', hnode, hc, hh', hs', hin⟩
          · have hfit' : up.Fits .black (n + cp.weight + 1) := by
              rw [Nat.add_right_comm]
              exact hup.toBlack
            have := ih h' (fun h0 => absurd h0 Shape.mk_ne_nil) hfit'
              (Shape.height_mk.2 ⟨n, rfl, hh, by simp [hwh]⟩) (by simp [hs, hws, hwn, hwf])
              (by omega)
            rw [Shape.ptr_mk] at this
            rw [hnode]
            obtain ⟨st', T, hrun, hT, hin, hrb⟩ := this
            refine ⟨st', T, hrun, hT, hin.trans ?_, hrb⟩
            exact up.inorder_congr (Shape.inorder_mk_congr _ rfl (Shape.inorder_mk_congr _ rfl rfl))
          · refine h'.mends_root hnode (up.inorder_congr hin) ?_ hh' hs' fuel
            rw [hc]
            exact hup
      | red =>
          obtain rfl : cp = .black := by
            cases cp with
            | black => rfl
            | red => cases (hred rfl).2
          rw [Shape.height_mk_red] at hwh
          rw [Shape.sober_mk_red] at hws
          obtain ⟨st', hcase, h'⟩ := h.deleteCase_red hsen
          have hwn0 : wn ≠ .nil := by
            rintro rfl
            cases hwh.1
          obtain ⟨cn, ni, na, nb, rfl⟩ := Shape.exists_mk d hwn0
          rw [Shape.color_mk] at hws
          obtain rfl : cn = .black := hws.1.1
          rw [Shape.height_mk_black] at hwh
          rw [Shape.sober_mk_black] at hws
          rw [hcase, Shape.ptr_mk]
          have hfit' : (Hole.under d .black wi wf up).Fits .red (n + 1) :=
            ⟨hwh.2, hws.2.2, fun h => (by cases h), hup⟩
          rcases h'.deleteRest hsen hh hwh.1.1 hwh.1.2 hs hws.2.1.1 hws.2.1.2
            with ⟨h'', hnode, hna, hnb⟩ |
            ⟨t', h'', hnode, hc, hh', hs', hin⟩
          · have := h''.mends_red Shape.color_mk hfit'.toBlack (n := n) (by simp [hh, hwh])
              (by simp [hs, hws, hna, hnb]) fuel
            rw [Shape.ptr_mk] at this
            rw [hnode]
            obtain ⟨st'', T, hrun, hT, hin, hrb⟩ := this
            refine ⟨st'', T, hrun, hT, hin.trans ?_, hrb⟩
            refine up.inorder_congr ?_
            cases d <;> simp [Shape.mk, Shape.inorder]
          · refine h''.mends_root hnode (up.inorder_congr ?_) (by rw [hc]; exact hfit') hh' hs' fuel
            refine (Shape.inorder_mk_congr .black hin rfl).trans ?_
            cases d <;> simp [Shape.mk, Shape.inorder]

end Holds

/-! ### Taking a node out -/

section Splice

variable {st : RbTree} {sen : ℕ} {P up : Hole} {t l r s : Shape} {d : Side} {c : Color}
  {i x y v : ℕ}
  {par : Option ℕ}

/-- What a state holds, without regard to what it was before. -/
def RbTree.ground (st : RbTree) (sen : ℕ) (hblack : (st.mem sen).color = .black) : Ground :=
  ⟨sen, st.tag, st.mem, hblack⟩

/-- **The only child of a node takes its place.** -/
theorem Holds.unlink {g : Ground} {e : Side} {cx : Color}
    (h : Holds g st (.under d c i s up) (.mk e cx x t .nil)) (v : ℕ) :
    (Hole.under d c i s up).At ((st.setLink i d (t.ptr g.sen)).setParent (t.ptr g.sen) v).mem g.sen
        st.root (t.ptr g.sen) ∧
      t.At ((st.setLink i d (t.ptr g.sen)).setParent (t.ptr g.sen) v).mem g.sen (some v) := by
  obtain ⟨hsen, hP, ht, honce, hprop, htag, hout⟩ := h
  obtain ⟨-, -, -, -, ht, -⟩ := Shape.at_mk.1 ht
  simp only [Shape.occ_mk, Shape.occ_nil] at honce hprop
  have hi := honce i
  have hP' := hP.setHole (by omega) (t.ptr g.sen)
  have hti : t.occ i = 0 := by
    simp only [Hole.occ, if_true] at hi
    omega
  have ht' : t.At (st.setLink i d (t.ptr g.sen)).mem g.sen (some x) :=
    ht.congr fun j hj => st.mem_upd_of_ne (by rintro rfl; exact hj hti) _
  refine ⟨hP'.congr fun j hj => RbTree.mem_upd_of_ne _ ?_ _, ht'.setParent (fun j => ?_) v⟩
  · rintro rfl
    have := honce (t.ptr g.sen)
    rcases t.ptr_cases g.sen with ⟨-, h⟩ | h
    · rw [h] at hj
      omega
    · omega
  · have := honce j
    omega

/-- **`y` takes the place of `x`.** -/
theorem Hole.At.replace (hP : P.At st.mem sen st.root x) (hsen : st.sentinel = sen)
    (hl : (st.mem x).left = l.ptr sen) (hr : (st.mem x).right = r.ptr sen)
    (hc : (st.mem x).color = c)
    (hpar : ∀ p ∈ P.parent, (st.mem x).parent = p) (hlt : l.At st.mem sen none)
    (hrt : r.At st.mem sen none)
    (honce : ∀ j, (if x = j then 1 else 0) +
      (if y = j then 1 else 0) + l.occ j + r.occ j + P.occ j ≤ 1)
    (hx : x ≠ sen) (hy : y ≠ sen) (hlr : l.occ sen + r.occ sen + P.occ sen = 0) :
    P.At (st.replace x y).mem sen (st.replace x y).root y ∧
      (Shape.node c y l r).At (st.replace x y).mem sen P.parent ∧
      (∀ j, j ≠ y → P.occ j = 0 → l.occ j = 0 → r.occ j = 0 → (st.replace x y).mem j = st.mem j) ∧
      (st.replace x y).tag = st.tag ∧ (st.replace x y).sentinel = sen := by
  have hxo := honce x
  have hyo := honce y
  have hxy : y ≠ x := by
    rintro rfl
    simp only [if_true] at hxo
    omega
  rw [if_pos rfl, if_neg hxy] at hxo
  rw [if_neg hxy.symm, if_pos rfl] at hyo
  -- the node gets the fields of the other
  set f : RbNode → RbNode := fun n =>
    { n with left := l.ptr sen, right := r.ptr sen, parent := (st.mem x).parent, color := c }
  have h₄ : ∀ j, j ≠ y → (st.upd y f).mem j = st.mem j := fun j hj => st.mem_upd_of_ne hj f
  have hne : ∀ j, l.occ j + r.occ j + P.occ j ≠ 0 → j ≠ y := by
    rintro j hj rfl
    omega
  have hP₄ : P.At (st.upd y f).mem sen (st.upd y f).root x := hP.congr fun j hj =>
    h₄ j (hne j (by omega))
  obtain ⟨hP₅, h₅⟩ := hP₄.relink (by rw [h₄ x hxy.symm]; exact hpar)
    (fun j => by have := honce j; omega) (by omega) hx .left y
  have hy₅ : ((st.upd y f).relink .left x y).mem y = f (st.mem y) :=
    (h₅ y (by omega)).trans (st.mem_upd_self y f)
  have hsen₅ : ((st.upd y f).relink .left x y).sentinel = sen :=
    (RbTree.sentinel_relink ..).trans hsen
  set st₅ := (st.upd y f).relink .left x y with hst₅
  have hy₆ : (st₅.adopt (l.ptr sen) y).mem y = f (st.mem y) :=
    (Shape.mem_adopt hsen₅ (by omega) y).trans hy₅
  have hsen₆ : (st₅.adopt (l.ptr sen) y).sentinel = sen := (RbTree.sentinel_adopt ..).trans hsen₅
  have hfields : st.replace x y = (st₅.adopt (l.ptr sen) y).adopt (r.ptr sen) y := by
    have hlink : ∀ (st : RbTree) (d : Side) (v : ℕ), (st.setLink y d v).mem x = st.mem x :=
      fun st d v =>
      st.mem_upd_of_ne hxy.symm _
    have hparent : ∀ (st : RbTree) (v : ℕ), (st.setParent y v).mem x = st.mem x := fun st v =>
      st.mem_upd_of_ne hxy.symm _
    have hfour : st.upd y f =
      (((st.setLink y .left (st.mem x).left).setLink y .right (st.mem x).right).setParent
        y (st.mem x).parent).setColor y (st.mem x).color := by
      simp only [RbTree.setLink, RbTree.setParent, RbTree.setColor, RbTree.upd_upd, hl, hr, hc]
      rfl
    simp only [RbTree.replace, RbTree.rbtreeCopyColor, hlink, hparent]
    rw [← hfour, ← hst₅, show (st₅.mem y).left = l.ptr sen from congrArg RbNode.left hy₅,
      show ((st₅.adopt (l.ptr sen) y).mem y).right = r.ptr sen from congrArg RbNode.right hy₆]
  have hl₆ := (hlt.congr fun j hj => (h₅ j (by have := honce j; omega)).trans
    (h₄ j (hne j (by omega)))).adopt hsen₅ (fun j => by have := honce j; omega) (by omega) y
  have hr₇ := (hrt.congr fun j hj =>
    (Shape.mem_adopt hsen₅ (t := l) (by have := honce j; omega) y).trans
    ((h₅ j (by have := honce j; omega)).trans (h₄ j (hne j (by omega))))).adopt hsen₆
      (fun j => by have := honce j; omega) (by omega) y
  have h₇ : ∀ j, r.occ j = 0 → (st.replace x y).mem j = (st₅.adopt (l.ptr sen) y).mem j := by
    intro j hj
    rw [hfields]
    exact Shape.mem_adopt hsen₆ hj y
  have hy₇ : (st.replace x y).mem y = f (st.mem y) := (h₇ y (by omega)).trans hy₆
  refine ⟨?_, ⟨congrArg RbNode.left hy₇, congrArg RbNode.right hy₇, congrArg RbNode.color hy₇, ?_,
    ?_, ?_⟩,
    ?_, ?_, ?_⟩
  · rw [hfields, RbTree.root_adopt, RbTree.root_adopt, ← hfields]
    refine hP₅.congr fun j hj => ?_
    have := honce j
    rw [h₇ j (by omega), Shape.mem_adopt hsen₅ (by omega)]
  · rw [hy₇]
    exact hpar
  · refine hl₆.congr fun j hj => h₇ j ?_
    have := honce j
    omega
  · rw [hfields]
    exact hr₇
  · intro j hj hjP hjl hjr
    rw [h₇ j hjr, Shape.mem_adopt hsen₅ hjl, h₅ j hjP, h₄ j hj]
  · funext j
    rw [hfields, RbTree.tag_adopt, RbTree.tag_adopt, hst₅, RbTree.tag_relink]
    exact RbTree.tag_upd (f := f) st y j fun _ => rfl
  · rw [hfields, RbTree.sentinel_adopt]
    exact hsen₆

theorem Holds.now (hsen : st.sentinel = sen) (hP : P.At st.mem sen st.root (t.ptr sen))
    (ht : t.At st.mem sen P.parent) (honce : ∀ j, t.occ j + P.occ j ≤ 1)
    (hprop : t.occ sen + P.occ sen = 0)
    (hblack : (st.mem sen).color = .black) : Holds (st.ground sen hblack) st P t :=
  ⟨hsen, hP, ht, honce, hprop, fun _ => rfl, fun _ _ => rfl⟩

/-- **`rbtree_node_min`** finds the first node, which has nothing on its left. -/
theorem Shape.At.nodeMin {fuel : ℕ} (ht : t.At st.mem sen par) (hsen : st.sentinel = sen)
    (hproper : t.occ sen = 0) (hne : t ≠ .nil) (hfuel : t.size ≤ fuel) :
    ∃ Q c y s l, st.rbtreeNodeMin fuel (t.ptr sen) = some y ∧ t = Hole.plug Q (.node c y .nil s) ∧
      ∀ u : Shape, (Q.plug u).inorder = u.inorder ++ l := by
  induction t generalizing par fuel with
  | nil => exact absurd rfl hne
  | node c i l r ihl ihr =>
      obtain ⟨hl, -, -, -, hlt, -⟩ := ht
      rw [Shape.occ] at hproper
      rw [Shape.size] at hfuel
      obtain ⟨fuel, rfl⟩ : ∃ k, fuel = k + 1 := ⟨fuel - 1, by omega⟩
      change ∃ Q c' y s l', st.rbtreeNodeMin (fuel + 1) i = some y ∧ _
      simp only [RbTree.rbtreeNodeMin, hl, hsen]
      by_cases hnil : l = .nil
      · subst hnil
        exact ⟨.top, c, i, r, [], by simp, rfl, fun u => (List.append_nil _).symm⟩
      · obtain ⟨Q, c', y, s, l', hrun, rfl, hin⟩ := ihl hlt (by omega) hnil (show _ ≤ fuel by omega)
        refine ⟨Q.append (.under .left c i r .top), c', y, s, l' ++ i :: r.inorder, ?_, ?_, fun u =>
          ?_⟩
        · rw [if_pos]
          · exact hrun
          · exact Shape.ptr_ne_sen (by omega) hnil
        · rw [Hole.plug_append]
          rfl
        · rw [Hole.plug_append]
          change (Q.plug u).inorder ++ i :: r.inorder = _
          rw [hin, List.append_assoc]

/-- The place of a node is given away: the first assignment of `rbtree_delete` below its parent. -/
theorem Holds.setPlace {g : Ground} (h : Holds g st (.under d c i s up) t) (ht : t ≠ .nil) (v : ℕ) :
    (if t.ptr g.sen = (st.mem (st.mem (t.ptr g.sen)).parent).left
      then st.setLink (st.mem (t.ptr g.sen)).parent .left v
      else st.setLink (st.mem (t.ptr g.sen)).parent .right v) = st.setLink i d v := by
  rw [h.parent ht, ← h.side_eq (.inl ht)]
  split <;> rfl

/-- The fields of a node that was deleted. -/
def RbNode.Reset (n : RbNode) : Prop :=
  n.left = 0 ∧ n.right = 0 ∧ n.parent = 0 ∧ n.key = 0 ∧ n.data = 0

/-- What the tree is after a node was spliced out and reset; the loop starts at `u` in the hole
`R`. -/
structure Spliced (g : Ground) (st' : RbTree) (x : ℕ) (R : Hole) (u : Shape) : Prop where
  black : (st'.mem g.sen).color = .black
  holds : Holds (st'.ground g.sen black) st' R u
  sen : u = .nil → ∀ p ∈ R.parent, (st'.mem g.sen).parent = p
  out : u.occ x + R.occ x = 0
  reset : (st'.mem x).Reset
  tag : ∀ j, j ≠ x → st'.tag j = g.tag j

/-- The last writes before the loop: the node is reset. -/
theorem Spliced.of {g : Ground} {S : RbTree} {R : Hole} {u : Shape} (hsen : S.sentinel = g.sen)
    (hR : R.At S.mem g.sen S.root (u.ptr g.sen)) (hu : u.At S.mem g.sen R.parent)
    (honce : ∀ j, u.occ j + R.occ j ≤ 1) (hprop : u.occ g.sen + R.occ g.sen = 0)
    (hblack : (S.mem g.sen).color = .black) (hx : u.occ x + R.occ x = 0) (hxs : x ≠ g.sen)
    (hpar : u = .nil → ∀ p ∈ R.parent, (S.mem g.sen).parent = p) (htag : S.tag = g.tag) :
    Spliced g (S.rbtreeNodeInit x) x R u := by
  have hother : ∀ j, j ≠ x → (S.rbtreeNodeInit x).mem j = S.mem j := fun j hj =>
    S.mem_upd_of_ne hj _
  have hself := S.mem_upd_self x fun n =>
    { n with left := 0, right := 0, parent := 0, key := 0, data := 0 }
  have hblack' : ((S.rbtreeNodeInit x).mem g.sen).color = .black := by
    rw [hother _ hxs.symm]
    exact hblack
  refine ⟨hblack', Holds.now (show (S.rbtreeNodeInit x).sentinel = g.sen from hsen)
    ?_ ?_ honce hprop hblack', fun h0 p hp => ?_, hx, ?_, fun j hj => ?_⟩
  · exact hR.congr fun j hj => hother j (by rintro rfl; omega)
  · exact hu.congr fun j hj => hother j (by rintro rfl; omega)
  · rw [hother _ hxs.symm]
    exact hpar h0 p hp
  · exact ⟨congrArg RbNode.left hself, congrArg RbNode.right hself, congrArg RbNode.parent hself,
      congrArg RbNode.key hself, congrArg RbNode.data hself⟩
  · rw [← htag, RbTree.tag, hother j hj]
    rfl

/-- **A node with at most one child is spliced out.** -/
theorem Holds.spliceOne {g : Ground} {e : Side} {cx : Color}
    (h : Holds g st (.under d c i s up) (.mk e cx x t .nil)) :
    Spliced g ((st.splice x x (t.ptr g.sen)).rbtreeNodeInit x) x (.under d c i s up) t := by
  have hne := show Shape.mk e cx x t .nil ≠ .nil from Shape.mk_ne_nil
  have honce := h.once
  have hprop := h.proper
  simp only [Shape.occ_mk, Shape.occ_nil] at honce hprop
  have hxo := honce x
  rw [if_pos rfl] at hxo
  have hxi : x ≠ i := by
    rintro rfl
    simp only [Hole.occ, if_true] at hxo
    omega
  have hsplice : st.splice x x (t.ptr g.sen) = (st.setLink i d (t.ptr g.sen)).setParent
    (t.ptr g.sen) i := by
    have hset := h.setPlace hne (t.ptr g.sen)
    have hpar := h.parent hne
    rw [Shape.ptr_mk] at hset hpar
    unfold RbTree.splice
    dsimp only
    rw [hset, if_pos rfl, RbTree.setLink, st.mem_upd_of_ne hxi, hpar]
  obtain ⟨hP, ht⟩ := h.unlink i
  rw [hsplice]
  refine Spliced.of h.sentinel hP ht (fun j => ?_) (by omega) ?_ (by omega) ?_ ?_ ?_
  · have := honce j
    omega
  · rw [RbTree.color_setParent, RbTree.color_setLink]
    exact h.sen_black
  · rintro rfl
    simp at hprop
  · rintro rfl p ⟨⟩
    rw [Shape.ptr_nil, RbTree.setParent, RbTree.mem_upd_self]
  · funext j
    rw [RbTree.tag_setParent, RbTree.tag_setLink]
    exact h.tags j

/-- The writes of `rbtree_delete` if the node `y` is taken out for `x`. -/
theorem Holds.splice_eq {g : Ground} {e : Side} {cy : Color}
    (h : Holds g st (.under d c i s up) (.mk e cy y t .nil)) (hyx : y ≠ x) :
    st.splice x y (t.ptr g.sen) = ((st.setLink i d (t.ptr g.sen)).setParent (t.ptr g.sen)
      (if i = x then y else i)).replace x y := by
  have hne := show Shape.mk e cy y t .nil ≠ .nil from Shape.mk_ne_nil
  have hset := h.setPlace hne (t.ptr g.sen)
  have hpar := h.parent hne
  rw [Shape.ptr_mk] at hset hpar
  have hyi : y ≠ i := by
    rintro rfl
    have := h.once y
    simp only [Shape.occ_mk, Hole.occ, if_true] at this
    omega
  unfold RbTree.splice
  dsimp only
  rw [hset, if_neg hyx, RbTree.setLink, st.mem_upd_of_ne hyi, hpar]
  split <;> rfl

/-- **The first node of the right subtree is taken out of its place.** -/
theorem Holds.takeOut {g : Ground} {Q : Hole} {cy : Color}
    (h : Holds g st (Q.append (.under .right c x l P)) (.mk .right cy y t .nil)) (hyx : y ≠ x) :
    ∃ (st₂ : RbTree) (v : ℕ), st.splice x y (t.ptr g.sen) = st₂.replace x y ∧
      (Q.append (.under .right c y l P)).parent = some v ∧
      (Hole.under .right c x l P).At st₂.mem g.sen st₂.root ((Q.plug t).ptr g.sen) ∧
      (Q.plug t).At st₂.mem g.sen none ∧ st₂.sentinel = g.sen ∧ st₂.tag = g.tag ∧
      (st₂.mem g.sen).color = .black ∧ (t = .nil → (st₂.mem g.sen).parent = v) := by
  have hrest : ∀ i d v, ((st.setLink i d (t.ptr g.sen)).setParent (t.ptr g.sen) v).sentinel =
    g.sen ∧
      ((st.setLink i d (t.ptr g.sen)).setParent (t.ptr g.sen) v).tag = g.tag ∧
      (((st.setLink i d (t.ptr g.sen)).setParent (t.ptr g.sen) v).mem g.sen).color = .black ∧
      (t = .nil → (((st.setLink i d (t.ptr g.sen)).setParent (t.ptr g.sen) v).mem g.sen).parent =
        v) := by
    intro i d v
    refine ⟨h.sentinel, ?_, ?_, ?_⟩
    · funext j
      rw [RbTree.tag_setParent, RbTree.tag_setLink]
      exact h.tags j
    · rw [RbTree.color_setParent, RbTree.color_setLink]
      exact h.sen_black
    · rintro rfl
      rw [Shape.ptr_nil, RbTree.setParent, RbTree.mem_upd_self]
  cases Q with
  | top =>
      obtain ⟨hP, ht⟩ := Holds.unlink h y
      refine ⟨_, y, ?_, rfl, hP, ht.forget, hrest x .right y⟩
      rw [Holds.splice_eq h hyx, if_pos rfl]
  | under d' c' q s' Q' =>
      have hqx : q ≠ x := by
        rintro rfl
        have := h.once q
        simp only [Hole.occ_append, Hole.occ, if_true] at this
        omega
      obtain ⟨hP, ht⟩ := Holds.unlink h q
      obtain ⟨hsen, htag, hblack, hpar⟩ := hrest q d' q
      have hnow : Holds _ _ ((Hole.under d' c' q s' Q').append (.under .right c x l P)) t :=
        Holds.now hsen hP ht (fun j => ?_) ?_ hblack
      · have hup := Holds.zip_append.1 hnow
        refine ⟨_, q, ?_, rfl, hup.hole, hup.tree.forget, hsen, htag, hblack, hpar⟩
        rw [Holds.splice_eq h hyx, if_neg hqx]
      · have := h.once j
        rw [Shape.occ_mk] at this
        change t.occ j + ((Hole.under d' c' q s' Q').append (.under .right c x l P)).occ j ≤ 1
        omega
      · have := h.proper
        rw [Shape.occ_mk] at this
        change t.occ g.sen + ((Hole.under d' c' q s' Q').append (.under .right c x l P)).occ g.sen =
          0
        omega

/-- **A node with two children is spliced out**: the first node of its right subtree takes its
place. -/
theorem Holds.spliceTwo {g : Ground} {Q : Hole} {cy : Color}
    (h : Holds g st P (.node c x l (Q.plug (.node cy y .nil t)))) :
    Spliced g ((st.splice x y (t.ptr g.sen)).rbtreeNodeInit x) x
      (Q.append (.under .right c y l P)) t := by
  have honce := h.once
  have hprop := h.proper
  have hy : Holds g st (Q.append (.under .right c x l P)) (.mk .right cy y t .nil) :=
    Holds.zip_append.2 (Holds.zip.2 h)
  simp only [Shape.occ, Hole.occ_plug] at honce hprop
  have hxo := honce x
  have hyo := honce y
  have hyx : y ≠ x := by
    rintro rfl
    simp only [if_true] at hxo
    omega
  rw [if_pos rfl, if_neg hyx] at hxo
  rw [if_neg hyx.symm, if_pos rfl] at hyo
  have hxs : x ≠ g.sen := by
    rintro rfl
    simp at hprop
  have hys : y ≠ g.sen := by
    rintro rfl
    simp at hprop
  obtain ⟨st₂, v, hsplice, hv, ⟨hr, hl, hc, hpar, hlt, hP⟩, hsub, hsen, htag, hblack, hvsen⟩ :=
    hy.takeOut hyx
  obtain ⟨hP', ht', hother, htag', hsen'⟩ := hP.replace (y := y) hsen hl hr hc hpar hlt.forget hsub
    (fun j => by have := honce j; rw [Hole.occ_plug]; omega) hxs hys (by rw [Hole.occ_plug]; omega)
  have hmem : (st₂.replace x y).mem g.sen = st₂.mem g.sen :=
    hother g.sen hys.symm (by omega) (by omega) (by rw [Hole.occ_plug]; omega)
  have hnow : Holds _ (st₂.replace x y) P (.node c y l (Q.plug t)) :=
    Holds.now hsen' hP' ht' (fun j => ?_) ?_ (by rw [hmem]; exact hblack)
  · have hup : Holds _ (st₂.replace x y) (.under .right c y l P) (Q.plug t) := Holds.zip.2 hnow
    have hR := Holds.zip_append.2 hup
    rw [hsplice]
    refine Spliced.of hsen' hR.hole hR.tree hR.once hR.proper (by rw [hmem]; exact hblack) ?_ hxs ?_
      (htag'.trans htag)
    · rw [Hole.occ_append, Hole.occ, if_neg hyx]
      omega
    · intro h0 p hp
      rw [hv] at hp
      cases hp
      rw [hmem]
      exact hvsen h0
  · have := honce j
    rw [Shape.occ, Hole.occ_plug]
    omega
  · rw [Shape.occ, Hole.occ_plug]
    omega

/-- **A node was deleted**: the others are still in the tree, and the fields of the node are
reset. -/
def Deleted (g : Ground) (t : Shape) (x : ℕ) (st' : RbTree) : Prop :=
  ∃ g' t', Tidy g' st' t' ∧ g'.sen = g.sen ∧ (∀ j, j ≠ x → g'.tag j = g.tag j) ∧
    t.inorder.Perm (x :: t'.inorder) ∧ (st'.mem x).Reset

theorem Spliced.deleted {g : Ground} {S st' : RbTree} {R : Hole} {u t' : Shape} {A B : List ℕ}
    (h : Spliced g S x R u) (hst : Holds (S.ground g.sen h.black) st' .top t') (hrb : t'.RedBlack)
    (hin : t'.inorder = (R.plug u).inorder) (hold : t.inorder = A ++ x :: B)
    (hnew : (R.plug u).inorder = A ++ B) (hsorted : KeySorted g.tag t.inorder) :
    Deleted g t x st' := by
  have hx : t'.occ x = 0 := by
    rw [← Shape.count_inorder, hin, Shape.count_inorder, Hole.occ_plug]
    exact h.out
  have hmem : ∀ j ∈ t'.inorder, j ≠ x := by
    rintro j hj rfl
    rw [← Shape.count_inorder] at hx
    exact List.count_eq_zero.1 hx hj
  refine ⟨_, t', ⟨hst, hrb, ?_⟩, rfl, h.tag, ?_, ?_⟩
  · have hsub : KeySorted g.tag t'.inorder := by
      rw [hin, hnew]
      rw [hold] at hsorted
      exact hsorted.sublist ((List.Sublist.refl A).append (List.sublist_cons_self x B))
    refine List.Pairwise.imp_of_mem (fun {a b} ha hb hab => ?_) hsub
    change (S.tag a).1 ≤ (S.tag b).1
    rw [h.tag a (hmem a ha), h.tag b (hmem b hb)]
    exact hab
  · rw [hold, hin, hnew]
    exact List.perm_middle
  · rw [hst.out x (by rw [hx]; rfl)]
    exact h.reset

/-- The end of `rbtree_delete`: the loop, unless the node taken out of its place was red. -/
theorem Spliced.mend {g : Ground} {S : RbTree} {R : Hole} {u : Shape} {e : Side} {cy : Color}
    {n fuel : ℕ}
    (h : Spliced g S x R u) (hfit : R.Fits cy n) (hh : (Shape.mk e cy y u .nil).Height n)
    (hs : (Shape.mk e cy y u .nil).Sober) (hfuel : R.depth < fuel) :
    ∃ st' t', (if cy = .red then some S else RbTree.deleteFixup fuel S (u.ptr g.sen)) = some st' ∧
      Holds (S.ground g.sen h.black) st' .top t' ∧ t'.inorder = (R.plug u).inorder ∧
        t'.RedBlack := by
  cases cy with
  | red =>
      rw [Shape.height_mk_red] at hh
      rw [Shape.sober_mk_red] at hs
      refine ⟨S, R.plug u, rfl, Holds.unzip.2 h.holds, rfl, ?_⟩
      refine Hole.Fits.plug ?_ hh.1 hs.2.1
      rw [hs.1.1]
      exact hfit.toBlack
  | black =>
      obtain ⟨k, rfl, hu, -⟩ := Shape.height_mk.1 hh
      rw [Shape.sober_mk_black] at hs
      exact h.holds.deleteFixup h.sen hfit hu hs.1.blacken hfuel

/-- **`rbtree_delete`** of a node with at most one child. -/
theorem Tidy.deleteOne {g : Ground} {e : Side} {fuel : ℕ}
    (h : Tidy g st (P.plug (.mk e c x t .nil)))
    (hfuel : (P.plug (.mk e c x t .nil)).size < fuel)
    (hsubst : st.substTemp fuel x = some (x, t.ptr g.sen)) :
    ∃ st', st.rbtreeDelete fuel x = some st' ∧ Deleted g (P.plug (.mk e c x t .nil)) x st' := by
  obtain ⟨hh, hrb, hsorted⟩ := h
  have hat := Holds.unzip.1 hh
  obtain ⟨A, B, hAB⟩ := P.inorder_plug
  obtain ⟨A', B', hold, hnew⟩ : ∃ A' B', (P.plug (.mk e c x t .nil)).inorder = A' ++ x :: B' ∧
      (P.plug t).inorder = A' ++ B' := by
    rw [hAB, hAB]
    cases e with
    | left => exact ⟨A ++ t.inorder, B, by simp [Shape.mk, Shape.inorder], rfl⟩
    | right => exact ⟨A, t.inorder ++ B, by simp [Shape.mk, Shape.inorder], by simp⟩
  obtain ⟨n, hfit, hheight, hsober⟩ := hrb.fits
  rw [Shape.color_mk] at hfit
  have hdepth := P.depth_le (.mk e c x t .nil)
  rw [RbTree.rbtreeDelete, hsubst, Option.bind_some]
  dsimp only
  cases P with
  | top =>
      have hroot : x = st.root := ((hat.hole).trans (Shape.ptr_mk ..)).symm
      have hone := hat.once
      have hprop := hat.proper
      simp only [Shape.occ_mk, Shape.occ_nil, Hole.occ] at hone hprop
      have hxo := hone x
      rw [if_pos rfl] at hxo
      obtain ⟨-, -, -, -, ht, -⟩ := Shape.at_mk.1 hat.tree
      have hnow : Holds _ { st with root := t.ptr g.sen } .top t :=
        Holds.now
          (show ({ st with root := t.ptr g.sen } : RbTree).sentinel = g.sen from hat.sentinel)
          (show Hole.top.At st.mem g.sen (t.ptr g.sen) (t.ptr g.sen) from rfl) ht.forget
          (fun j => by have := hone j; rw [Hole.occ]; omega) (by rw [Hole.occ]; omega) hat.sen_black
      have hblack := hnow.rbtreeBlack
      have hsp : Spliced g _ x .top t.blacken :=
        Spliced.of hblack.sentinel hblack.hole hblack.tree hblack.once hblack.proper
          hblack.sen_black
          (by
            rw [← Shape.count_inorder, Shape.inorder_blacken, Shape.count_inorder, Hole.occ]
            omega)
          (by rintro rfl; simp at hprop) (fun _ p hp => (Option.not_mem_none p hp).elim)
          (funext fun j => ?_)
      · refine ⟨_, if_pos hroot, hsp.deleted hsp.holds ?_ rfl hold
          (t.inorder_blacken.trans hnew) hsorted⟩
        obtain ⟨k, -, hk, -⟩ := Shape.height_mk.1 hheight
        exact Shape.RedBlack.of_blacken hk (Shape.sober_mk.1 hsober).2.1.blacken
      · rw [RbTree.rbtreeBlack, RbTree.tag_setColor]
        exact hat.tags j
  | under =>
      have hne := hat.ne_root
      have hred := hat.isRed
      rw [Shape.ptr_mk] at hne hred
      rw [Shape.color_mk] at hred
      have hsp := hat.spliceOne
      obtain ⟨st', t', hrun, hst, hin, hrb'⟩ :=
        hsp.mend hfit hheight hsober (show _ < fuel by omega)
      refine ⟨st', ?_, hsp.deleted hst hrb' hin hold hnew hsorted⟩
      rw [if_neg hne, ← hrun]
      simp only [hred]

/-- **`rbtree_delete`** of a node with two children. -/
theorem Tidy.deleteTwo {g : Ground} {Q : Hole} {cy : Color} {m : List ℕ} {fuel : ℕ}
    (h : Tidy g st (P.plug (.node c x l (Q.plug (.node cy y .nil t)))))
    (hfuel : (P.plug (.node c x l (Q.plug (.node cy y .nil t)))).size < fuel)
    (hsubst : st.substTemp fuel x = some (y, t.ptr g.sen))
    (hin : ∀ u : Shape, (Q.plug u).inorder = u.inorder ++ m) :
    ∃ st', st.rbtreeDelete fuel x = some st' ∧
      Deleted g (P.plug (.node c x l (Q.plug (.node cy y .nil t)))) x st' := by
  obtain ⟨hh, hrb, hsorted⟩ := h
  have hat := Holds.unzip.1 hh
  have hy : Holds g st (Q.append (.under .right c x l P)) (.mk .right cy y t .nil) :=
    Holds.zip_append.2 (Holds.zip.2 hat)
  have hplug : (Q.append (.under .right c x l P)).plug (.mk .right cy y t .nil) =
      P.plug (.node c x l (Q.plug (.node cy y .nil t))) := Hole.plug_append ..
  obtain ⟨A, B, hAB⟩ := P.inorder_plug
  have hold : (P.plug (.node c x l (Q.plug (.node cy y .nil t)))).inorder =
      (A ++ l.inorder) ++ x :: (y :: t.inorder ++ m ++ B) := by
    rw [hAB, Shape.inorder, hin]
    simp [Shape.inorder]
  have hnew : ((Q.append (.under .right c y l P)).plug t).inorder =
      (A ++ l.inorder) ++ (y :: t.inorder ++ m ++ B) := by
    rw [Hole.plug_append]
    change (P.plug (.node c y l (Q.plug t))).inorder = _
    rw [hAB, Shape.inorder, hin]
    simp
  rw [← hplug] at hrb
  obtain ⟨n, hfit, hheight, hsober⟩ := hrb.fits
  rw [Shape.color_mk] at hfit
  have hdepth := Hole.depth_le (Q.append (.under .right c x l P)) (.mk .right cy y t .nil)
  rw [hplug, Hole.depth_append, Hole.depth] at hdepth
  have hne : y ≠ st.root := by
    have hne : (Shape.mk .right cy y t .nil).ptr g.sen ≠ st.root := by
      cases Q with
      | top | under => exact Holds.ne_root hy
    rwa [Shape.ptr_mk] at hne
  have hred := hy.isRed
  rw [Shape.ptr_mk, Shape.color_mk] at hred
  have hsp := hat.spliceTwo
  obtain ⟨st', t', hrun, hst, hin', hrb'⟩ := hsp.mend (hfit.rename y) hheight hsober
    (show _ < fuel by rw [Hole.depth_append, Hole.depth]; omega)
  refine ⟨st', ?_, hsp.deleted hst hrb' hin' hold hnew hsorted⟩
  rw [RbTree.rbtreeDelete, hsubst, Option.bind_some]
  dsimp only
  rw [if_neg hne, ← hrun]
  simp only [hred]

/-- **`rbtree_delete`** takes a node out of the tree. -/
theorem Tidy.delete {g : Ground} {fuel : ℕ} (h : Tidy g st t) (hx : t.occ x ≠ 0)
    (hfuel : t.size < fuel) :
    ∃ st', st.rbtreeDelete fuel x = some st' ∧ Deleted g t x st' := by
  obtain ⟨P, c, l, r, rfl⟩ := Shape.exists_place hx
  have hat := Holds.unzip.1 h.holds
  obtain ⟨hl, hr, -, -, -, hrt⟩ := hat.tree
  have hprop := hat.proper
  rw [Shape.occ] at hprop
  by_cases hnl : l = .nil
  · subst hnl
    refine Tidy.deleteOne (e := .right) (t := r) h hfuel ?_
    rw [RbTree.substTemp, hl, hat.sentinel, hr]
    exact if_pos rfl
  · by_cases hnr : r = .nil
    · subst hnr
      refine Tidy.deleteOne (e := .left) (t := l) h hfuel ?_
      rw [RbTree.substTemp, hl, hat.sentinel, hr, if_neg (Shape.ptr_ne_sen (by omega) hnl)]
      exact if_pos rfl
    · have hsize := P.depth_le (.node c x l r)
      rw [Shape.size] at hsize
      obtain ⟨Q, cy, y, s, m, hrun, rfl, hin⟩ := hrt.nodeMin hat.sentinel (by omega) hnr
        (show r.size ≤ fuel by omega)
      have hy : Holds g st (Q.append (.under .right c x l P)) (.node cy y .nil s) :=
        Holds.zip_append.2 (Holds.zip.2 hat)
      refine h.deleteTwo hfuel ?_ hin
      rw [RbTree.substTemp, hl, hat.sentinel, hr, if_neg (Shape.ptr_ne_sen (by omega) hnl),
        if_neg (Shape.ptr_ne_sen (by omega) hnr), hrun, Option.map_some,
          show (st.mem y).right = _ from hy.tree.2.1]

end Splice

end CacheProxy
