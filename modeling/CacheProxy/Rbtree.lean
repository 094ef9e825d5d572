/-
**The red-black tree of timeouts: nodes in memory.**

`nc_rbtree.c` keeps the requests that wait for a server ordered by the time at which they expire. 
Its nodes are linked in memory, with a link to the parent and with one node, the sentinel, in the
place of every empty subtree; `rbtree_delete` uses the sentinel's link to its parent.  This module
has the functions of the source, with a bound on the number of turns of each loop, and says what it
means that a tree is in memory with a hole at some place of it.

Rotations and the two halves of either rebalancing loop are mirror images of each other, and each
pair is one definition with the side as a parameter.

Main definitions:

* `RbNode`, `RbTree` — `struct rbnode`, and `struct rbtree` with the memory;
* `rbtreeLeftRotate`, `rbtreeRightRotate`, `rbtreeInsert`, `rbtreeDelete`, `rbtreeMin` — the
  functions of the source;
* `Shape.At`, `Hole.At` — a tree, or a tree with a hole, is in memory;
* `Ground`, `Holds` — **a tree is in memory**, and what is not part of it is as it was.

Main results:

* `Holds.zip` — going up or down changes nothing;
* `Holds.setColor`, `Holds.rotate` — what colouring a node and a rotation do to the tree.
-/
import CacheProxy.ZipTree

namespace CacheProxy

/-! ### The functions of the source -/

/-- **`struct rbnode`**; an address is a number, and `NULL` is `0`. -/
structure RbNode where
  left : ℕ
  right : ℕ
  parent : ℕ
  key : Int64
  data : ℕ
  color : Color

/-- The link on a side. -/
def RbNode.link (n : RbNode) : Side → ℕ
  | .left => n.left
  | .right => n.right

/-- A link is set. -/
def RbNode.withLink (n : RbNode) (v : ℕ) : Side → RbNode
  | .left => { n with left := v }
  | .right => { n with right := v }

/-- **`struct rbtree`**, with the memory. -/
structure RbTree where
  mem : ℕ → RbNode
  root : ℕ
  sentinel : ℕ

namespace RbTree

/-- A node is changed. -/
def upd (st : RbTree) (i : ℕ) (f : RbNode → RbNode) : RbTree :=
  { st with mem := Function.update st.mem i (f (st.mem i)) }

/-- `i->left = v` or `i->right = v` -/
def setLink (st : RbTree) (i : ℕ) (d : Side) (v : ℕ) : RbTree :=
  st.upd i fun n => n.withLink v d

/-- `i->parent = v` -/
def setParent (st : RbTree) (i v : ℕ) : RbTree :=
  st.upd i fun n => { n with parent := v }

/-- `i->color = c` -/
def setColor (st : RbTree) (i : ℕ) (c : Color) : RbTree :=
  st.upd i fun n => { n with color := c }

/-- `rbtree_red` -/
def rbtreeRed (st : RbTree) (i : ℕ) : RbTree := st.setColor i .red

/-- `rbtree_black` -/
def rbtreeBlack (st : RbTree) (i : ℕ) : RbTree := st.setColor i .black

/-- `rbtree_copy_color` -/
def rbtreeCopyColor (st : RbTree) (i j : ℕ) : RbTree := st.setColor i (st.mem j).color

/-- `rbtree_is_red` -/
def rbtreeIsRed (st : RbTree) (i : ℕ) : Prop := (st.mem i).color = .red

/-- `rbtree_is_black` -/
def rbtreeIsBlack (st : RbTree) (i : ℕ) : Prop := ¬ st.rbtreeIsRed i

instance (st : RbTree) (i : ℕ) : Decidable (st.rbtreeIsRed i) :=
  inferInstanceAs (Decidable ((st.mem i).color = .red))

instance (st : RbTree) (i : ℕ) : Decidable (st.rbtreeIsBlack i) :=
  inferInstanceAs (Decidable (¬ st.rbtreeIsRed i))

/-- `rbtree_node_init`; the colour is left as it is. -/
def rbtreeNodeInit (st : RbTree) (i : ℕ) : RbTree :=
  st.upd i fun n => { n with left := 0, right := 0, parent := 0, key := 0, data := 0 }

/-- `rbtree_init` -/
def rbtreeInit (mem : ℕ → RbNode) (node : ℕ) : RbTree :=
  ((⟨mem, node, node⟩ : RbTree).rbtreeNodeInit node).rbtreeBlack node

/-- **`rbtree_node_min`**: the loop goes down the left links. -/
def rbtreeNodeMin (st : RbTree) : ℕ → ℕ → Option ℕ
  | 0, _ => none
  | fuel + 1, node =>
      if (st.mem node).left ≠ st.sentinel then rbtreeNodeMin st fuel (st.mem node).left
      else some node

/-- **`rbtree_min`**; the result is `NULL` if the tree is empty. -/
def rbtreeMin (fuel : ℕ) (st : RbTree) : Option ℕ :=
  if st.root = st.sentinel then some 0 else st.rbtreeNodeMin fuel st.root

/-- A child that is not the sentinel gets a parent. -/
def adopt (st : RbTree) (child parent : ℕ) : RbTree :=
  if child ≠ st.sentinel then st.setParent child parent else st

/-- The place of `node` below its parent is given to `temp`; whether `node` is there is asked on the
side `d` first. -/
def relink (d : Side) (st : RbTree) (node temp : ℕ) : RbTree :=
  if node = st.root then { st with root := temp }
  else if node = (st.mem (st.mem node).parent).link d then st.setLink (st.mem node).parent d temp
  else st.setLink (st.mem node).parent d.opp temp

/-- **A rotation** to the side `d`. -/
def rotateAt (d : Side) (st : RbTree) (node : ℕ) : RbTree :=
  let temp := (st.mem node).link d.opp
  let st := st.setLink node d.opp ((st.mem temp).link d)
  let st := st.adopt ((st.mem temp).link d) node
  let st := st.setParent temp (st.mem node).parent
  let st := relink d st node temp
  let st := st.setLink temp d node
  st.setParent node temp

/-- `rbtree_left_rotate` -/
def rbtreeLeftRotate (st : RbTree) (node : ℕ) : RbTree := rotateAt .left st node

/-- `rbtree_right_rotate` -/
def rbtreeRightRotate (st : RbTree) (node : ℕ) : RbTree := rotateAt .right st node

/-- The rotation for a side. -/
def rotate : Side → RbTree → ℕ → RbTree
  | .left => rbtreeLeftRotate
  | .right => rbtreeRightRotate

/-- The first loop of `rbtree_insert`: the node below which a key belongs, and the side. -/
def descend (st : RbTree) (key : Int64) : ℕ → ℕ → Option (ℕ × Side)
  | 0, _ => none
  | fuel + 1, temp =>
      let d := if key < (st.mem temp).key then Side.left else .right
      if (st.mem temp).link d = st.sentinel then some (temp, d)
      else descend st key fuel ((st.mem temp).link d)

/-- The end of a turn of the second loop of `rbtree_insert`. -/
def insertTurn (d : Side) (st : RbTree) (node : ℕ) : RbTree × ℕ :=
  let st := st.rbtreeBlack (st.mem node).parent
  let st := st.rbtreeRed (st.mem (st.mem node).parent).parent
  (rotate d.opp st (st.mem (st.mem node).parent).parent, node)

/-- A turn of the second loop of `rbtree_insert`, if the parent is on the side `d` of its parent. -/
def insertCase (d : Side) (st : RbTree) (node : ℕ) : RbTree × ℕ :=
  let parent := (st.mem node).parent
  let grand := (st.mem parent).parent
  let temp := (st.mem grand).link d.opp
  if st.rbtreeIsRed temp then
    (((st.rbtreeBlack parent).rbtreeBlack temp).rbtreeRed grand, grand)
  else if node = (st.mem parent).link d.opp then insertTurn d (rotate d st parent) parent
  else insertTurn d st node

/-- **The second loop of `rbtree_insert`.** -/
def insertFixup : ℕ → RbTree → ℕ → Option RbTree
  | 0, _, _ => none
  | fuel + 1, st, node =>
      if node ≠ st.root ∧ st.rbtreeIsRed (st.mem node).parent then
        let parent := (st.mem node).parent
        let d := if parent = (st.mem (st.mem parent).parent).left then Side.left else .right
        insertFixup fuel (insertCase d st node).1 (insertCase d st node).2
      else some st

/-- **`rbtree_insert`** -/
def rbtreeInsert (fuel : ℕ) (st : RbTree) (node : ℕ) : Option RbTree :=
  if st.root = st.sentinel then
    let st := st.upd node fun n =>
      { n with parent := 0, left := st.sentinel, right := st.sentinel, color := .black }
    some { st with root := node }
  else
    (st.descend (st.mem node).key fuel st.root).bind fun (temp, d) =>
      let st := st.setLink temp d node
      let st := st.upd node fun n =>
        { n with parent := temp, left := st.sentinel, right := st.sentinel, color := .red }
      (insertFixup fuel st node).map fun st => st.rbtreeBlack st.root

/-- The node that is taken out of its place, and what takes that place. -/
def substTemp (fuel : ℕ) (st : RbTree) (node : ℕ) : Option (ℕ × ℕ) :=
  if (st.mem node).left = st.sentinel then some (node, (st.mem node).right)
  else if (st.mem node).right = st.sentinel then some (node, (st.mem node).left)
  else (st.rbtreeNodeMin fuel (st.mem node).right).map fun subst => (subst, (st.mem subst).right)

/-- `subst` takes the place of `node`. -/
def replace (st : RbTree) (node subst : ℕ) : RbTree :=
  let st := st.setLink subst .left (st.mem node).left
  let st := st.setLink subst .right (st.mem node).right
  let st := st.setParent subst (st.mem node).parent
  let st := st.rbtreeCopyColor subst node
  let st := relink .left st node subst
  let st := st.adopt (st.mem subst).left subst
  st.adopt (st.mem subst).right subst

/-- `temp` takes the place of `subst`, and `subst` that of `node`. -/
def splice (st : RbTree) (node subst temp : ℕ) : RbTree :=
  let parent := (st.mem subst).parent
  let st := if subst = (st.mem parent).left then st.setLink parent .left temp
    else st.setLink parent .right temp
  if subst = node then st.setParent temp (st.mem subst).parent
  else
    let st := if (st.mem subst).parent = node then st.setParent temp subst
      else st.setParent temp (st.mem subst).parent
    st.replace node subst

/-- The end of a turn of the loop of `rbtree_delete`, which ends the loop. -/
def deleteTurn (d : Side) (st : RbTree) (temp w : ℕ) : RbTree × ℕ :=
  let st := st.rbtreeCopyColor w (st.mem temp).parent
  let st := st.rbtreeBlack (st.mem temp).parent
  let st := st.rbtreeBlack ((st.mem w).link d.opp)
  let st := rotate d st (st.mem temp).parent
  (st, st.root)

/-- A turn of the loop of `rbtree_delete` from where the sibling `w` is black. -/
def deleteRest (d : Side) (st : RbTree) (temp w : ℕ) : RbTree × ℕ :=
  if st.rbtreeIsBlack (st.mem w).left ∧ st.rbtreeIsBlack (st.mem w).right then
    (st.rbtreeRed w, (st.mem temp).parent)
  else if st.rbtreeIsBlack ((st.mem w).link d.opp) then
    let st := st.rbtreeBlack ((st.mem w).link d)
    let st := st.rbtreeRed w
    let st := rotate d.opp st w
    deleteTurn d st temp ((st.mem (st.mem temp).parent).link d.opp)
  else deleteTurn d st temp w

/-- A turn of the loop of `rbtree_delete`, if `temp` is on the side `d` of its parent. -/
def deleteCase (d : Side) (st : RbTree) (temp : ℕ) : RbTree × ℕ :=
  let w := (st.mem (st.mem temp).parent).link d.opp
  if st.rbtreeIsRed w then
    let st := st.rbtreeBlack w
    let st := st.rbtreeRed (st.mem temp).parent
    let st := rotate d st (st.mem temp).parent
    deleteRest d st temp ((st.mem (st.mem temp).parent).link d.opp)
  else deleteRest d st temp w

/-- **The loop of `rbtree_delete`.** -/
def deleteFixup : ℕ → RbTree → ℕ → Option RbTree
  | 0, _, _ => none
  | fuel + 1, st, temp =>
      if temp ≠ st.root ∧ st.rbtreeIsBlack temp then
        let d := if temp = (st.mem (st.mem temp).parent).left then Side.left else .right
        deleteFixup fuel (deleteCase d st temp).1 (deleteCase d st temp).2
      else some (st.rbtreeBlack temp)

/-- **`rbtree_delete`** -/
def rbtreeDelete (fuel : ℕ) (st : RbTree) (node : ℕ) : Option RbTree :=
  (st.substTemp fuel node).bind fun (subst, temp) =>
    if subst = st.root then
      some ((({ st with root := temp } : RbTree).rbtreeBlack temp).rbtreeNodeInit node)
    else
      let red := st.rbtreeIsRed subst
      let st := (st.splice node subst temp).rbtreeNodeInit node
      if red then some st else deleteFixup fuel st temp

end RbTree

/-! ### What the functions write -/

section Writes

variable (st : RbTree) (i j v : ℕ) (d : Side) (c : Color)

@[simp] theorem RbNode.link_withLink (n : RbNode) : (n.withLink v d).link d = v := by
  cases d <;> rfl

@[simp] theorem RbNode.link_withLink_opp (n : RbNode) :
  (n.withLink v d).link d.opp = n.link d.opp := by
  cases d <;> rfl

@[simp] theorem RbNode.parent_withLink (n : RbNode) : (n.withLink v d).parent = n.parent := by
  cases d <;> rfl

@[simp] theorem RbNode.color_withLink (n : RbNode) : (n.withLink v d).color = n.color := by
  cases d <;> rfl

@[simp] theorem RbNode.key_withLink (n : RbNode) : (n.withLink v d).key = n.key := by
  cases d <;> rfl

@[simp] theorem RbNode.data_withLink (n : RbNode) : (n.withLink v d).data = n.data := by
  cases d <;> rfl

namespace RbTree

@[simp] theorem root_upd (f : RbNode → RbNode) : (st.upd i f).root = st.root := rfl

@[simp] theorem sentinel_upd (f : RbNode → RbNode) : (st.upd i f).sentinel = st.sentinel := rfl

theorem mem_upd_self (f : RbNode → RbNode) : (st.upd i f).mem i = f (st.mem i) :=
  Function.update_self ..

variable {i j} in
theorem mem_upd_of_ne (h : j ≠ i) (f : RbNode → RbNode) : (st.upd i f).mem j = st.mem j :=
  Function.update_of_ne h ..

theorem upd_upd (f f' : RbNode → RbNode) : (st.upd i f).upd i f' = st.upd i (f' ∘ f) := by
  simp [upd]

@[simp] theorem root_setLink : (st.setLink i d v).root = st.root := rfl

@[simp] theorem root_setParent : (st.setParent i v).root = st.root := rfl

@[simp] theorem sentinel_setLink : (st.setLink i d v).sentinel = st.sentinel := rfl

@[simp] theorem sentinel_setParent : (st.setParent i v).sentinel = st.sentinel := rfl

@[simp] theorem sentinel_setColor : (st.setColor i c).sentinel = st.sentinel := rfl

@[simp] theorem sentinel_adopt : (st.adopt i j).sentinel = st.sentinel := by
  unfold adopt
  split <;> rfl

@[simp] theorem root_adopt : (st.adopt i j).root = st.root := by
  unfold adopt
  split <;> rfl

@[simp] theorem sentinel_relink : (relink d st i j).sentinel = st.sentinel := by
  unfold relink
  split
  · rfl
  · split <;> rfl

theorem rotate_eq_rotateAt : rotate d st i = rotateAt d st i := by
  cases d <;> rfl

@[simp] theorem sentinel_rotate : (rotate d st i).sentinel = st.sentinel := by
  simp [rotate_eq_rotateAt, rotateAt]

@[simp] theorem color_setLink : ((st.setLink i d v).mem j).color = (st.mem j).color := by
  by_cases h : j = i
  · rw [h, setLink, mem_upd_self, RbNode.color_withLink]
  · rw [setLink, mem_upd_of_ne st h]

@[simp] theorem color_setParent : ((st.setParent i v).mem j).color = (st.mem j).color := by
  by_cases h : j = i
  · rw [h, setParent, mem_upd_self]
  · rw [setParent, mem_upd_of_ne st h]

/-- Keys and data. -/
def tag (st : RbTree) (j : ℕ) : Int64 × ℕ := ((st.mem j).key, (st.mem j).data)

theorem tag_upd {f : RbNode → RbNode} (hf : ∀ n, ((f n).key, (f n).data) = (n.key, n.data)) :
    (st.upd i f).tag j = st.tag j := by
  unfold tag
  by_cases h : j = i
  · rw [h, mem_upd_self]
    exact hf _
  · rw [mem_upd_of_ne st h]

@[simp] theorem tag_setLink : (st.setLink i d v).tag j = st.tag j :=
  st.tag_upd i j fun n => by simp

@[simp] theorem tag_setParent : (st.setParent i v).tag j = st.tag j := st.tag_upd i j fun _ => rfl

@[simp] theorem tag_setColor : (st.setColor i c).tag j = st.tag j := st.tag_upd i j fun _ => rfl

@[simp] theorem tag_adopt : (st.adopt i v).tag j = st.tag j := by
  unfold adopt
  split
  · exact tag_setParent ..
  · rfl

@[simp] theorem tag_relink : (relink d st i v).tag j = st.tag j := by
  unfold relink
  split
  · rfl
  · split <;> exact tag_setLink ..

@[simp] theorem tag_rotate : (rotate d st i).tag j = st.tag j := by
  simp [rotate_eq_rotateAt, rotateAt]

end RbTree

end Writes

/-! ### Trees in memory -/

/-- The address of the root of a tree, or of the sentinel. -/
def Shape.ptr (sen : ℕ) : Shape → ℕ
  | nil => sen
  | node _ i _ _ => i

@[simp] theorem Shape.ptr_nil (sen : ℕ) : Shape.nil.ptr sen = sen := rfl

@[simp] theorem Shape.ptr_mk (sen : ℕ) (d : Side) (c : Color) (i : ℕ) (a b : Shape) :
    (Shape.mk d c i a b).ptr sen = i := by
  cases d <;> rfl

/-- **The tree is in memory**; `par` is the parent of its root, if that is known. -/
def Shape.At (mem : ℕ → RbNode) (sen : ℕ) : Shape → Option ℕ → Prop
  | nil, _ => True
  | node c i l r, par =>
      (mem i).left = l.ptr sen ∧ (mem i).right = r.ptr sen ∧ (mem i).color = c ∧
        (∀ p ∈ par, (mem i).parent = p) ∧ l.At mem sen (some i) ∧ r.At mem sen (some i)

/-- The node above a hole. -/
def Hole.parent : Hole → Option ℕ
  | top => none
  | under _ _ i _ _ => some i

/-- **The tree is in memory up to a hole**, whose place has the address `h`. -/
def Hole.At (mem : ℕ → RbNode) (sen root : ℕ) : Hole → ℕ → Prop
  | top, h => root = h
  | under d c i s up, h =>
      (mem i).link d = h ∧ (mem i).link d.opp = s.ptr sen ∧ (mem i).color = c ∧
        (∀ p ∈ up.parent, (mem i).parent = p) ∧ s.At mem sen (some i) ∧ up.At mem sen root i

section At

variable {mem mem' : ℕ → RbNode} {sen root : ℕ} {par : Option ℕ} {d : Side} {c : Color} {i : ℕ}
  {a b t : Shape} {P : Hole} {h : ℕ}

theorem Shape.at_mk : (Shape.mk d c i a b).At mem sen par ↔
    (mem i).link d = a.ptr sen ∧ (mem i).link d.opp = b.ptr sen ∧ (mem i).color = c ∧
      (∀ p ∈ par, (mem i).parent = p) ∧ a.At mem sen (some i) ∧ b.At mem sen (some i) := by
  cases d
  · rfl
  · constructor
    · rintro ⟨hb, ha, hc, hp, htb, hta⟩
      exact ⟨ha, hb, hc, hp, hta, htb⟩
    · rintro ⟨ha, hb, hc, hp, hta, htb⟩
      exact ⟨hb, ha, hc, hp, htb, hta⟩

theorem Shape.At.congr (ht : t.At mem sen par) (heq : ∀ j, t.occ j ≠ 0 → mem' j = mem j) :
    t.At mem' sen par := by
  induction t generalizing par with
  | nil => trivial
  | node c i l r ihl ihr =>
      obtain ⟨h1, h2, h3, h4, hl, hr⟩ := ht
      have hi : mem' i = mem i := heq i (by simp only [Shape.occ, if_true]; omega)
      refine ⟨hi ▸ h1, hi ▸ h2, hi ▸ h3, hi ▸ h4, ihl hl fun j hj => ?_, ihr hr fun j hj => ?_⟩
      · exact heq j (by rw [Shape.occ]; omega)
      · exact heq j (by rw [Shape.occ]; omega)

theorem Hole.At.congr (hP : P.At mem sen root h) (heq : ∀ j, P.occ j ≠ 0 → mem' j = mem j) :
    P.At mem' sen root h := by
  induction P generalizing h with
  | top => exact hP
  | under d c i s up ih =>
      obtain ⟨h1, h2, h3, h4, hs, hup⟩ := hP
      have hi : mem' i = mem i := heq i (by simp only [Hole.occ, if_true]; omega)
      refine ⟨hi ▸ h1, hi ▸ h2, hi ▸ h3, hi ▸ h4, hs.congr fun j hj => ?_, ih hup fun j hj => ?_⟩
      · exact heq j (by rw [Hole.occ]; omega)
      · exact heq j (by rw [Hole.occ]; omega)

/-- The parent of the root is forgotten. -/
theorem Shape.At.forget (ht : t.At mem sen par) : t.At mem sen none := by
  cases t with
  | nil => trivial
  | node => exact ⟨ht.1, ht.2.1, ht.2.2.1, fun p hp => (Option.not_mem_none p hp).elim, ht.2.2.2.2⟩

/-- The address of a tree is one of its nodes or the sentinel. -/
theorem Shape.ptr_cases (t : Shape) (sen : ℕ) :
    t = .nil ∧ t.ptr sen = sen ∨ t.occ (t.ptr sen) ≠ 0 := by
  cases t with
  | nil => exact .inl ⟨rfl, rfl⟩
  | node =>
      refine .inr ?_
      simp only [Shape.ptr, Shape.occ, if_true]
      omega

theorem Shape.ptr_ne_sen (h : t.occ sen = 0) (ht : t ≠ .nil) : t.ptr sen ≠ sen := by
  intro heq
  rcases t.ptr_cases sen with ⟨h0, -⟩ | h0
  · exact ht h0
  · rw [heq] at h0
    exact h0 h

/-- Nothing but the root of the tree is written. -/
theorem Shape.mem_adopt {st : RbTree} (hsen : st.sentinel = sen) {j : ℕ} (hj : t.occ j = 0)
    (p : ℕ) :
    (st.adopt (t.ptr sen) p).mem j = st.mem j := by
  rw [RbTree.adopt, hsen]
  split
  · next hne =>
    refine st.mem_upd_of_ne ?_ _
    rintro rfl
    rcases t.ptr_cases sen with ⟨-, h⟩ | h
    · exact hne h
    · exact h hj
  · rfl

/-- The root is above the hole, or is in it. -/
theorem Hole.At.root_cases (hP : P.At mem sen root h) : P = .top ∧ root = h ∨ P.occ root ≠ 0 := by
  induction P generalizing h with
  | top => exact .inl ⟨rfl, hP⟩
  | under d c i s up ih =>
      refine .inr ?_
      rw [Hole.occ]
      rcases ih hP.2.2.2.2.2 with ⟨-, rfl⟩ | hroot
      · simp only [if_true]
        omega
      · omega

/-- A hole is filled with something else. -/
theorem Hole.At.setHole {st : RbTree} {s : Shape} {up : Hole}
    (hP : (Hole.under d c i s up).At st.mem sen st.root h)
    (hone : (Hole.under d c i s up).occ i ≤ 1)
    (y : ℕ) : (Hole.under d c i s up).At (st.setLink i d y).mem sen st.root y := by
  obtain ⟨-, h2, h3, h4, hs, hup⟩ := hP
  have hself : (st.setLink i d y).mem i = (st.mem i).withLink y d := st.mem_upd_self i _
  simp only [Hole.occ, if_true] at hone
  refine ⟨by simp [hself], by simpa [hself] using h2, by simpa [hself] using h3,
    by simpa [hself] using h4, hs.congr fun j hj => ?_, hup.congr fun j hj => ?_⟩
  · exact st.mem_upd_of_ne (by rintro rfl; omega) _
  · exact st.mem_upd_of_ne (by rintro rfl; omega) _

/-- **The place of `x` is given to `y`.** -/
theorem Hole.At.relink {st : RbTree} {x : ℕ} (hP : P.At st.mem sen st.root x)
    (hpar : ∀ p ∈ P.parent, (st.mem x).parent = p) (hone : ∀ j, P.occ j ≤ 1) (hx : P.occ x = 0)
    (hsen : x ≠ sen) (d : Side) (y : ℕ) :
    P.At (st.relink d x y).mem sen (st.relink d x y).root y ∧
      ∀ j, P.occ j = 0 → (st.relink d x y).mem j = st.mem j := by
  cases P with
  | top =>
      have hroot : x = st.root := hP.symm
      rw [RbTree.relink, if_pos hroot]
      exact ⟨rfl, fun j _ => rfl⟩
  | under d' c i s =>
      have hne : x ≠ st.root := by
        rcases Hole.At.root_cases hP with ⟨hP, -⟩ | hroot
        · cases hP
        · rintro rfl
          exact hroot hx
      have hp : (st.mem x).parent = i := hpar i rfl
      have hlink : st.relink d x y = st.setLink i d' y := by
        rw [RbTree.relink, if_neg hne, hp]
        rcases d.eq_or_opp d' with rfl | rfl
        · rw [if_pos hP.1.symm]
        · have hother : (st.mem i).link d = s.ptr sen := by simpa using hP.2.1
          rw [if_neg]
          rw [hother]
          rintro rfl
          rcases s.ptr_cases sen with ⟨-, h⟩ | h
          · exact hsen h
          · rw [Hole.occ] at hx
            omega
      rw [hlink]
      refine ⟨hP.setHole (hone i) y, fun j hj => st.mem_upd_of_ne ?_ _⟩
      rintro rfl
      simp only [Hole.occ, if_true] at hj
      omega

/-- The root of a subtree gets a parent; the sentinel gets one, too. -/
theorem Shape.At.setParent {st : RbTree} (ht : t.At st.mem sen par) (hone : ∀ j, t.occ j ≤ 1)
    (p : ℕ) :
    t.At (st.setParent (t.ptr sen) p).mem sen (some p) := by
  cases t with
  | nil => trivial
  | node c i =>
      obtain ⟨h1, h2, h3, -, hl, hr⟩ := ht
      have hi := hone i
      simp only [Shape.occ, if_true] at hi
      have hself : (st.setParent i p).mem i = { st.mem i with parent := p } := st.mem_upd_self i _
      have hother : ∀ j, j ≠ i → (st.setParent i p).mem j = st.mem j := fun j hj =>
        st.mem_upd_of_ne hj _
      refine ⟨?_, ?_, ?_, ?_, hl.congr fun j hj => ?_, hr.congr fun j hj => ?_⟩
      · exact (congrArg RbNode.left hself).trans h1
      · exact (congrArg RbNode.right hself).trans h2
      · exact (congrArg RbNode.color hself).trans h3
      · rintro q ⟨⟩
        exact congrArg RbNode.parent hself
      · exact hother j (by rintro rfl; omega)
      · exact hother j (by rintro rfl; omega)

/-- **A subtree gets a parent.** -/
theorem Shape.At.adopt {st : RbTree} (ht : t.At st.mem sen par) (hsen : st.sentinel = sen)
    (hone : ∀ j, t.occ j ≤ 1) (hproper : t.occ sen = 0) (p : ℕ) :
    t.At (st.adopt (t.ptr sen) p).mem sen (some p) := by
  by_cases hnil : t = .nil
  · rw [hnil]
    trivial
  · rw [RbTree.adopt, hsen, if_pos (Shape.ptr_ne_sen hproper hnil)]
    exact ht.setParent hone p

end At

/-! ### A tree with its memory -/

/-- What the operations on a tree leave alone: the sentinel, the keys and data of all nodes, and the
nodes that are not in the tree. -/
structure Ground where
  sen : ℕ
  tag : ℕ → Int64 × ℕ
  rest : ℕ → RbNode
  /-- the sentinel is black -/
  black : (rest sen).color = .black

/-- **The tree that fills the hole `P` with `t` is in memory.** -/
structure Holds (g : Ground) (st : RbTree) (P : Hole) (t : Shape) : Prop where
  sentinel : st.sentinel = g.sen
  hole : P.At st.mem g.sen st.root (t.ptr g.sen)
  tree : t.At st.mem g.sen P.parent
  /-- no node is there twice -/
  once : ∀ j, t.occ j + P.occ j ≤ 1
  /-- the sentinel is not a node of the tree -/
  proper : t.occ g.sen + P.occ g.sen = 0
  tags : ∀ j, st.tag j = g.tag j
  out : ∀ j, t.occ j + P.occ j = 0 → st.mem j = g.rest j

namespace Holds

variable {g : Ground} {st : RbTree} {P : Hole} {t : Shape} {d : Side} {c : Color} {i : ℕ}
  {a b : Shape}

/-- **Going up**, and down again. -/
theorem zip : Holds g st (.under d c i b P) a ↔ Holds g st P (.mk d c i a b) := by
  constructor
  · rintro ⟨hsen, ⟨h1, h2, h3, h4, hb, hP⟩, ha, honce, hprop, htag, hout⟩
    refine ⟨hsen, by rwa [Shape.ptr_mk], Shape.at_mk.2 ⟨h1, h2, h3, h4, ha, hb⟩, fun j => ?_, ?_,
      htag,
      fun j hj => hout j ?_⟩
    · have := honce j
      rw [Hole.occ] at this
      rw [Shape.occ_mk]
      omega
    · rw [Hole.occ] at hprop
      rw [Shape.occ_mk]
      omega
    · rw [Shape.occ_mk] at hj
      rw [Hole.occ]
      omega
  · rintro ⟨hsen, hP, ht, honce, hprop, htag, hout⟩
    obtain ⟨h1, h2, h3, h4, ha, hb⟩ := Shape.at_mk.1 ht
    rw [Shape.ptr_mk] at hP
    refine ⟨hsen, ⟨h1, h2, h3, h4, hb, hP⟩, ha, fun j => ?_, ?_, htag, fun j hj => hout j ?_⟩
    · have := honce j
      rw [Shape.occ_mk] at this
      rw [Hole.occ]
      omega
    · rw [Shape.occ_mk] at hprop
      rw [Hole.occ]
      omega
    · rw [Hole.occ] at hj
      rw [Shape.occ_mk]
      omega

theorem zip_append {Q : Hole} : Holds g st (Q.append P) t ↔ Holds g st P (Q.plug t) := by
  induction Q generalizing t with
  | top => rfl
  | under d c i s up ih => exact zip.trans ih

theorem sen_black (h : Holds g st P t) : (st.mem g.sen).color = .black := by
  rw [h.out _ h.proper]
  exact g.black

/-- The colour of the node at an address, the sentinel included. -/
theorem color (h : Holds g st P t) : (st.mem (t.ptr g.sen)).color = t.color := by
  cases t with
  | nil => exact h.sen_black
  | node => exact h.tree.2.2.1

theorem isRed (h : Holds g st P t) : st.rbtreeIsRed (t.ptr g.sen) ↔ t.color = .red := by
  rw [RbTree.rbtreeIsRed, h.color]

theorem isBlack (h : Holds g st P t) : st.rbtreeIsBlack (t.ptr g.sen) ↔ t.color = .black := by
  rw [RbTree.rbtreeIsBlack, h.isRed]
  exact Color.ne_red

/-- The link to a subtree. -/
theorem near (h : Holds g st P (.mk d c i a b)) : (st.mem i).link d = a.ptr g.sen :=
  (Shape.at_mk.1 h.tree).1

theorem far (h : Holds g st P (.mk d c i a b)) : (st.mem i).link d.opp = b.ptr g.sen :=
  (Shape.at_mk.1 h.tree).2.1

/-- The link to the node above. -/
theorem parent {s : Shape} {up : Hole} (h : Holds g st (.under d c i s up) t) (ht : t ≠ .nil) :
    (st.mem (t.ptr g.sen)).parent = i := by
  cases t with
  | nil => exact absurd rfl ht
  | node => exact h.tree.2.2.2.1 i rfl

/-- A node below the top is not the root. -/
theorem ne_root {s : Shape} {up : Hole} (h : Holds g st (.under d c i s up) t) :
    t.ptr g.sen ≠ st.root := by
  intro heq
  have hroot : (Hole.under d c i s up).occ st.root ≠ 0 := by
    rcases Hole.At.root_cases h.hole with ⟨hP, -⟩ | hroot
    · cases hP
    · exact hroot
  rcases t.ptr_cases g.sen with ⟨rfl, hp⟩ | hocc
  · have := h.proper
    rw [← heq, hp] at hroot
    omega
  · have := h.once (t.ptr g.sen)
    rw [← heq] at hroot
    omega

/-- **The whole tree**, and a place in it. -/
theorem unzip : Holds g st .top (P.plug t) ↔ Holds g st P t := by
  induction P generalizing t with
  | top => rfl
  | under d c i s up ih => exact ih.trans zip.symm

/-- A node on the other side of a node. -/
theorem zip_far {s : Shape} : Holds g st (.under d.opp c i t P) s ↔
    Holds g st P (.mk d c i t s) := by
  rw [zip, Shape.mk_opp]

/-- Two subtrees of a node have different addresses, unless both are empty. -/
theorem ptr_ne {s : Shape} {up : Hole} (h : Holds g st (.under d c i s up) t)
    (hne : t ≠ .nil ∨ s ≠ .nil) :
    t.ptr g.sen ≠ s.ptr g.sen := by
  intro heq
  have hprop := h.proper
  have hone := h.once (s.ptr g.sen)
  rw [Hole.occ] at hprop hone
  rcases t.ptr_cases g.sen with ⟨rfl, ht⟩ | ht
  · rcases s.ptr_cases g.sen with ⟨rfl, -⟩ | hs
    · simp at hne
    · rw [← heq, ht] at hs
      omega
  · rw [heq] at ht
    rcases s.ptr_cases g.sen with ⟨-, hs⟩ | hs
    · rw [hs] at ht
      omega
    · omega

/-- On which side of its parent a subtree is. -/
theorem side_eq {s : Shape} {up : Hole} (h : Holds g st (.under d c i s up) t)
    (hne : t ≠ .nil ∨ s ≠ .nil) :
    (if t.ptr g.sen = (st.mem i).left then Side.left else .right) = d := by
  cases d with
  | left => exact if_pos h.hole.1.symm
  | right =>
      have hs : (st.mem i).left = s.ptr g.sen := h.hole.2.1
      rw [hs]
      exact if_neg (h.ptr_ne hne)

/-- **A node is coloured.** -/
theorem setColor (h : Holds g st P (.mk d c i a b)) (c' : Color) :
    Holds g (st.setColor i c') P (.mk d c' i a b) := by
  obtain ⟨hsen, hP, ht, honce, hprop, htag, hout⟩ := h
  obtain ⟨h1, h2, h3, h4, ha, hb⟩ := Shape.at_mk.1 ht
  have hself : (st.setColor i c').mem i = { st.mem i with color := c' } := st.mem_upd_self i _
  have hother : ∀ j, j ≠ i → (st.setColor i c').mem j = st.mem j := fun j hj =>
    st.mem_upd_of_ne hj _
  have hone := honce i
  simp only [Shape.occ_mk, if_true] at hone
  refine ⟨hsen, ?_, Shape.at_mk.2 ⟨?_, ?_, ?_, ?_, ?_, ?_⟩, ?_, ?_, fun j => ?_, fun j hj => ?_⟩
  · rw [Shape.ptr_mk] at hP ⊢
    exact hP.congr fun j hj => hother j (by rintro rfl; omega)
  · rw [hself]
    cases d <;> exact h1
  · rw [hself]
    cases d <;> exact h2
  · rw [hself]
  · rw [hself]
    exact h4
  · exact ha.congr fun j hj => hother j (by rintro rfl; omega)
  · exact hb.congr fun j hj => hother j (by rintro rfl; omega)
  · simpa using honce
  · simpa using hprop
  · rw [RbTree.tag_setColor]
    exact htag j
  · rw [Shape.occ_mk] at hj
    rw [hother j (by rintro rfl; simp at hj)]
    exact hout j (by rw [Shape.occ_mk]; exact hj)

/-- The writes of a rotation, if the links are those of a tree. -/
theorem rotate_eq {x y : ℕ} (hsen : st.sentinel = g.sen) (hxy : y ≠ x) (hbx : b.occ x = 0)
    (hx : (st.mem x).link d.opp = y) (hy : (st.mem y).link d = b.ptr g.sen) :
    st.rotate d x = (((((st.setLink x d.opp (b.ptr g.sen)).adopt (b.ptr g.sen) x).setParent y
      (st.mem x).parent).relink d x y).setLink y d x).setParent x y := by
  have h1 : ((st.setLink x d.opp (b.ptr g.sen)).mem y).link d = b.ptr g.sen := by
    rw [RbTree.setLink, st.mem_upd_of_ne hxy, hy]
  have h2 : (((st.setLink x d.opp (b.ptr g.sen)).adopt (b.ptr g.sen) x).mem x).parent =
      (st.mem x).parent := by
    rw [Shape.mem_adopt (by exact hsen) hbx, RbTree.setLink, st.mem_upd_self,
      RbNode.parent_withLink]
  simp only [RbTree.rotate_eq_rotateAt, RbTree.rotateAt, hx, hy, h1, h2]

/-- **A rotation.** -/
theorem rotate {cx cy : Color} {x y : ℕ} {e : Shape}
    (h : Holds g st P (.mk d cx x a (.mk d cy y b e))) :
    Holds g (st.rotate d x) P (.mk d cy y (.mk d cx x a b) e) := by
  obtain ⟨hsen, hP, ht, honce, hprop, htag, hout⟩ := h
  obtain ⟨hx1, hx2, hx3, hx4, ha, hy⟩ := Shape.at_mk.1 ht
  obtain ⟨hy1, hy2, hy3, hy4, hb, he⟩ := Shape.at_mk.1 hy
  rw [Shape.ptr_mk] at hx2 hP
  simp only [Shape.occ_mk] at honce hprop hout
  have hx := honce x
  have hy := honce y
  have hxy : y ≠ x := by
    rintro rfl
    simp only [if_true] at hx
    omega
  rw [if_pos rfl, if_neg hxy] at hx
  rw [if_neg hxy.symm, if_pos rfl] at hy
  have hne : ∀ j, a.occ j + b.occ j + e.occ j + P.occ j ≠ 0 → j ≠ x ∧ j ≠ y := by
    intro j hj
    constructor
    · rintro rfl
      omega
    · rintro rfl
      omega
  -- the memory before the node above is told of the change
  have hrot := rotate_eq hsen hxy (by omega) hx2 hy1
  set st₁ := st.setLink x d.opp (b.ptr g.sen) with hst₁
  set st₃ := (st₁.adopt (b.ptr g.sen) x).setParent y (st.mem x).parent with hst₃
  have h₁ : ∀ j, j ≠ x → st₁.mem j = st.mem j := fun j hj => st.mem_upd_of_ne hj _
  have h₃ : ∀ j, j ≠ y → b.occ j = 0 → st₃.mem j = st₁.mem j := fun j hj hbj =>
    (RbTree.mem_upd_of_ne _ hj _).trans (Shape.mem_adopt (by exact hsen) hbj x)
  have hx₃ : st₃.mem x = (st.mem x).withLink (b.ptr g.sen) d.opp :=
    (h₃ x hxy.symm (by omega)).trans (st.mem_upd_self x _)
  have hy₃ : st₃.mem y = { st.mem y with parent := (st.mem x).parent } := by
    rw [hst₃, RbTree.setParent, RbTree.mem_upd_self, Shape.mem_adopt (by exact hsen) (by omega),
      h₁ y hxy]
  have hb₃ : b.At st₃.mem g.sen (some x) := by
    have hb₁ : b.At st₁.mem g.sen (some y) := hb.congr fun j hj => h₁ j (hne j (by omega)).1
    have hb₂ := hb₁.adopt (by exact hsen) (fun j => by have := honce j; omega) (by omega) x
    exact hb₂.congr fun j hj => RbTree.mem_upd_of_ne _ (hne j (by omega)).2 _
  have hrest₃ : ∀ j, j ≠ x → j ≠ y → b.occ j = 0 → st₃.mem j = st.mem j := fun j hjx hjy hbj =>
    (h₃ j hjy hbj).trans (h₁ j hjx)
  have hP₃ : P.At st₃.mem g.sen st₃.root x := by
    have hroot : st₃.root = st.root := by simp [hst₃, hst₁]
    rw [hroot]
    refine hP.congr fun j hj => ?_
    have := honce j
    exact hrest₃ j (hne j (by omega)).1 (hne j (by omega)).2 (by omega)
  obtain ⟨hP₄, h₄⟩ := hP₃.relink (by rw [hx₃, RbNode.parent_withLink]; exact hx4)
    (fun j => by have := honce j; omega) (by omega) (by rintro rfl; simp at hprop) d y
  set st₄ := st₃.relink d x y
  -- the memory in the end
  have hx₆ : (st.rotate d x).mem x = { st₃.mem x with parent := y } := by
    rw [hrot, RbTree.setParent, RbTree.mem_upd_self, RbTree.setLink,
      RbTree.mem_upd_of_ne _ hxy.symm,
      h₄ x (by omega)]
  have hy₆ : (st.rotate d x).mem y = (st₃.mem y).withLink x d := by
    rw [hrot, RbTree.setParent, RbTree.mem_upd_of_ne _ hxy, RbTree.setLink, RbTree.mem_upd_self,
      h₄ y (by omega)]
  have h₆ : ∀ j, j ≠ x → j ≠ y → (st.rotate d x).mem j = st₄.mem j := by
    intro j hjx hjy
    rw [hrot, RbTree.setParent, RbTree.mem_upd_of_ne _ hjx, RbTree.setLink,
      RbTree.mem_upd_of_ne _ hjy]
  have hrest : ∀ j, P.occ j = 0 → b.occ j = 0 → j ≠ x → j ≠ y →
    (st.rotate d x).mem j = st.mem j := by
    intro j hjP hjb hjx hjy
    rw [h₆ j hjx hjy, h₄ j hjP, hrest₃ j hjx hjy hjb]
  refine ⟨by rw [RbTree.sentinel_rotate, hsen], ?_, Shape.at_mk.2 ⟨?_, ?_, ?_, ?_,
    Shape.at_mk.2 ⟨?_, ?_, ?_, ?_, ?_, ?_⟩, ?_⟩, ?_, ?_, fun j => ?_, fun j hj => ?_⟩
  · rw [Shape.ptr_mk, show (st.rotate d x).root = st₄.root by rw [hrot]; rfl]
    exact hP₄.congr fun j hj => h₆ j (hne j (by omega)).1 (hne j (by omega)).2
  · rw [hy₆, RbNode.link_withLink, Shape.ptr_mk]
  · rw [hy₆, RbNode.link_withLink_opp, hy₃, ← hy2]
    cases d <;> rfl
  · rw [hy₆, RbNode.color_withLink, hy₃]
    exact hy3
  · rw [hy₆, RbNode.parent_withLink, hy₃]
    exact hx4
  · rw [hx₆, hx₃, ← hx1]
    cases d <;> rfl
  · rw [hx₆, hx₃]
    cases d <;> rfl
  · rw [hx₆, hx₃, ← hx3]
    cases d <;> rfl
  · rw [hx₆]
    rintro p ⟨⟩
    rfl
  · refine ha.congr fun j hj => ?_
    have := honce j
    exact hrest j (by omega) (by omega) (hne j (by omega)).1 (hne j (by omega)).2
  · refine hb₃.congr fun j hj => ?_
    have := honce j
    rw [h₆ j (hne j (by omega)).1 (hne j (by omega)).2, h₄ j (by omega)]
  · refine he.congr fun j hj => ?_
    have := honce j
    exact hrest j (by omega) (by omega) (hne j (by omega)).1 (hne j (by omega)).2
  · intro j
    have := honce j
    simp only [Shape.occ_mk]
    omega
  · simp only [Shape.occ_mk]
    omega
  · rw [RbTree.tag_rotate]
    exact htag j
  · simp only [Shape.occ_mk] at hj
    rw [← hout j (by omega)]
    refine hrest j (by omega) (by omega) ?_ ?_
    · rintro rfl
      simp at hj
    · rintro rfl
      simp at hj

end Holds

end CacheProxy
