/-
**The red-black tree of timeouts as a collection of nodes.**

Over any run of insertions and deletions the tree holds the nodes that were inserted and not
deleted, with their keys and data, in the order of the keys and with the shape of a red-black tree,
and its minimum is a node with the smallest key.  All loops end: a run has a result as soon as the
bound on the number of turns is larger than the number of operations.

Main definitions:

* `RbOp`, `RbOp.live`, `RbOp.ValidRun` — operations, the nodes after them, and what callers respect;
* `Timeouts` — **the tree is an ordered collection of the nodes**.

Main results:

* `Recorded.step`, `Recorded.run` — what an operation and a run keep;
* `rbtree_run` — the collection after any run.
-/
import Mathlib.Data.List.Nodup
import CacheProxy.RbtreeDelete

namespace CacheProxy

/-! ### Operations -/

/-- What is done with the tree: a node gets its key and data and is inserted, or a node is
deleted. -/
inductive RbOp
  | insert (node : ℕ) (key : Int64) (data : ℕ)
  | delete (node : ℕ)
  deriving DecidableEq

namespace RbOp

/-- **An operation on the tree.** -/
def step (fuel : ℕ) (st : RbTree) : RbOp → Option RbTree
  | insert node key data => (st.upd node fun n => { n with key := key, data := data }).rbtreeInsert
      fuel node
  | delete node => st.rbtreeDelete fuel node

/-- **A run of operations.** -/
def run (fuel : ℕ) : List RbOp → RbTree → Option RbTree
  | [], st => some st
  | op :: ops, st => (op.step fuel st).bind (run fuel ops)

/-- The nodes, with keys and data, after an operation. -/
def update (live : List (ℕ × Int64 × ℕ)) : RbOp → List (ℕ × Int64 × ℕ)
  | insert node key data => (node, key, data) :: live
  | delete node => live.filter fun e => e.1 ≠ node

/-- **The nodes that were inserted and not deleted.** -/
def live : List (ℕ × Int64 × ℕ) → List RbOp → List (ℕ × Int64 × ℕ)
  | nodes, [] => nodes
  | nodes, op :: ops => live (op.update nodes) ops

/-- A node that is inserted is new, and one that is deleted is there. -/
def Valid (sen : ℕ) (nodes : List (ℕ × Int64 × ℕ)) : RbOp → Prop
  | insert node _ _ => node ≠ 0 ∧ node ≠ sen ∧ node ∉ nodes.map Prod.fst
  | delete node => node ∈ nodes.map Prod.fst

/-- An operation adds at most one node. -/
theorem length_update_le (nodes : List (ℕ × Int64 × ℕ)) (op : RbOp) :
    (op.update nodes).length ≤ nodes.length + 1 := by
  cases op with
  | insert => exact le_rfl
  | delete => exact (List.length_filter_le ..).trans (Nat.le_succ _)

theorem length_live (nodes : List (ℕ × Int64 × ℕ)) (ops : List RbOp) :
    (live nodes ops).length ≤ nodes.length + ops.length := by
  induction ops generalizing nodes with
  | nil => exact le_rfl
  | cons op ops ih =>
      have h₁ := ih (op.update nodes)
      have h₂ := length_update_le nodes op
      rw [live, List.length_cons]
      omega

instance (sen : ℕ) (nodes : List (ℕ × Int64 × ℕ)) : (op : RbOp) → Decidable (op.Valid sen nodes)
  | insert node _ _ => inferInstanceAs
      (Decidable (node ≠ 0 ∧ node ≠ sen ∧ node ∉ nodes.map Prod.fst))
  | delete node => inferInstanceAs (Decidable (node ∈ nodes.map Prod.fst))

/-- **A run that callers can make.** -/
def ValidRun (sen : ℕ) : List (ℕ × Int64 × ℕ) → List RbOp → Prop
  | _, [] => True
  | nodes, op :: ops => op.Valid sen nodes ∧ ValidRun sen (op.update nodes) ops

end RbOp

/-! ### The collection -/

/-- **A search tree**: keys on the left are not larger, keys on the right not smaller. -/
def Shape.Search (key : ℕ → Int64) : Shape → Prop
  | nil => True
  | node _ i l r =>
      (∀ j ∈ l.inorder, key j ≤ key i) ∧ (∀ j ∈ r.inorder, key i ≤ key j) ∧ l.Search key ∧
      r.Search key

theorem KeySorted.search {tag : ℕ → Int64 × ℕ} {t : Shape} (h : KeySorted tag t.inorder) :
    t.Search fun j => (tag j).1 := by
  induction t with
  | nil => trivial
  | node c i l r ihl ihr =>
      obtain ⟨hl, hir, hlr⟩ := List.pairwise_append.1 h
      obtain ⟨hi, hr⟩ := List.pairwise_cons.1 hir
      exact ⟨fun j hj => hlr j hj i (List.mem_cons_self ..), hi, ihl hl, ihr hr⟩

/-- **The tree in memory is an ordered collection of the nodes.** -/
structure Timeouts (fuel : ℕ) (st : RbTree) (nodes : List (ℕ × Int64 × ℕ)) (t : Shape) : Prop where
  /-- the root is that of `t` -/
  root : st.root = t.ptr st.sentinel
  /-- the links and colours in memory are those of `t`; nodes except the root have links to their
  parents -/
  links : t.At st.mem st.sentinel none
  /-- the sentinel is not a node -/
  sentinel : st.sentinel ∉ t.inorder
  /-- the nodes are those of the collection, -/
  perm : t.inorder.Perm (nodes.map Prod.fst)
  /-- each of them once, -/
  once : t.inorder.Nodup
  /-- with their keys and data -/
  fields : ∀ e ∈ nodes, (st.mem e.1).key = e.2.1 ∧ (st.mem e.1).data = e.2.2
  search : t.Search fun j => (st.mem j).key
  redBlack : t.RedBlack
  /-- `rbtree_min` gives `NULL` for the empty tree -/
  min_empty : nodes = [] → st.rbtreeMin fuel = some 0
  /-- and otherwise a node with a smallest key -/
  min : nodes ≠ [] → ∃ e ∈ nodes, st.rbtreeMin fuel = some e.1 ∧ e.1 ≠ 0 ∧ ∀ e' ∈ nodes,
    e.2.1 ≤ e'.2.1

/-- What is kept: the tree is tidy, and has the nodes with their keys and data. -/
structure Recorded (sen : ℕ) (st : RbTree) (nodes : List (ℕ × Int64 × ℕ)) (g : Ground) (t : Shape) :
    Prop where
  tidy : Tidy g st t
  sentinel : g.sen = sen
  perm : t.inorder.Perm (nodes.map Prod.fst)
  tag : ∀ e ∈ nodes, g.tag e.1 = e.2
  pos : ∀ e ∈ nodes, e.1 ≠ 0

namespace Recorded

variable {sen fuel : ℕ} {st : RbTree} {nodes : List (ℕ × Int64 × ℕ)} {g : Ground} {t : Shape}

theorem size (h : Recorded sen st nodes g t) : t.size = nodes.length := by
  rw [← Shape.length_inorder, h.perm.length_eq, List.length_map]

theorem nodup (h : Recorded sen st nodes g t) : t.inorder.Nodup := by
  refine List.nodup_iff_count_le_one.2 fun j => ?_
  rw [Shape.count_inorder]
  have := h.tidy.holds.once j
  omega

/-- **`rbtree_min`** -/
theorem min (h : Recorded sen st nodes g t) (hfuel : nodes.length ≤ fuel) (hne : nodes ≠ []) :
    ∃ e ∈ nodes, st.rbtreeMin fuel = some e.1 ∧ e.1 ≠ 0 ∧ ∀ e' ∈ nodes, e.2.1 ≤ e'.2.1 := by
  obtain ⟨hh, -, hsorted⟩ := h.tidy
  have hprop := hh.proper
  have ht : t ≠ .nil := by
    rintro rfl
    have := h.size
    exact hne (List.length_eq_zero_iff.1 this.symm)
  obtain ⟨Q, c, y, s, l, hrun, heq, hin⟩ := hh.tree.nodeMin hh.sentinel (by omega) ht
    (show t.size ≤ fuel by rw [h.size]; exact hfuel)
  have hfirst : t.inorder = y :: (s.inorder ++ l) := by
    rw [heq, hin]
    rfl
  obtain ⟨e, he, hey⟩ := List.mem_map.1 (h.perm.subset (hfirst ▸ List.mem_cons_self ..))
  refine ⟨e, he, ?_, h.pos e he, fun e' he' => ?_⟩
  · have hroot : st.root = t.ptr g.sen := hh.hole
    have hne : st.root ≠ st.sentinel := by
      rw [hh.sentinel, hroot]
      exact Shape.ptr_ne_sen (by omega) ht
    rw [RbTree.rbtreeMin, if_neg hne, hroot, hrun, hey]
  · have hmem : e'.1 ∈ t.inorder := h.perm.symm.subset (List.mem_map_of_mem he')
    rw [← h.tag e he, ← h.tag e' he', hey]
    rw [hfirst] at hmem hsorted
    rcases List.mem_cons.1 hmem with heq | hmem
    · rw [heq]
      exact Int64.le_refl _
    · exact (List.pairwise_cons.1 hsorted).1 _ hmem

theorem timeouts (h : Recorded sen st nodes g t) (hfuel : nodes.length ≤ fuel) :
    Timeouts fuel st nodes t := by
  obtain ⟨hh, hrb, hsorted⟩ := h.tidy
  have htag : st.tag = g.tag := funext hh.tags
  have hsen : st.sentinel ∉ t.inorder := by
    rw [hh.sentinel, ← List.count_eq_zero, Shape.count_inorder]
    have := hh.proper
    omega
  refine ⟨by rw [hh.sentinel]; exact hh.hole, by rw [hh.sentinel]; exact hh.tree, hsen, h.perm,
    h.nodup, ?_, ?_,
    hrb, ?_, h.min hfuel⟩
  · intro e he
    have := h.tag e he
    rw [← htag] at this
    exact ⟨congrArg Prod.fst this, congrArg Prod.snd this⟩
  · rw [← htag] at hsorted
    exact hsorted.search
  · rintro rfl
    have hnil : t = .nil := by
      cases t with
      | nil => rfl
      | node =>
          have := h.size
          rw [Shape.size] at this
          cases this
    subst hnil
    rw [RbTree.rbtreeMin, if_pos (hh.hole.trans hh.sentinel.symm)]

/-- Keys and data of a node outside of the tree are set. -/
theorem setTag (h : Recorded sen st nodes g t) {x : ℕ} (hx : t.occ x = 0) (hxs : x ≠ g.sen)
    (key : Int64)
    (data : ℕ) : ∃ g', Tidy g' (st.upd x fun n => { n with key := key, data := data }) t ∧
    g'.sen = g.sen ∧
      g'.tag x = (key, data) ∧ ∀ j, j ≠ x → g'.tag j = g.tag j := by
  obtain ⟨hh, hrb, hsorted⟩ := h.tidy
  set f : RbNode → RbNode := fun n => { n with key := key, data := data }
  have hother : ∀ j, j ≠ x → (st.upd x f).mem j = st.mem j := fun j hj => st.mem_upd_of_ne hj f
  have htag : ∀ j, j ≠ x → (st.upd x f).tag j = g.tag j := by
    intro j hj
    rw [← hh.tags j, RbTree.tag, hother j hj]
    rfl
  have hblack : ((st.upd x f).mem g.sen).color = .black := by
    rw [hother _ hxs.symm]
    exact hh.sen_black
  have hnow : Holds _ (st.upd x f) .top t :=
    Holds.now (show (st.upd x f).sentinel = g.sen from hh.sentinel)
      (show Hole.top.At _ _ (st.upd x f).root _ from hh.hole)
      (hh.tree.congr fun j hj => hother j (by rintro rfl; exact hj hx)) hh.once hh.proper hblack
  refine ⟨_, ⟨hnow, hrb, ?_⟩, rfl, ?_, htag⟩
  · have hmem : ∀ j ∈ t.inorder, j ≠ x := by
      rintro j hj rfl
      rw [← Shape.count_inorder] at hx
      exact List.count_eq_zero.1 hx hj
    refine List.Pairwise.imp_of_mem (fun {a b} ha hb hab => ?_) hsorted
    change ((st.upd x f).tag a).1 ≤ ((st.upd x f).tag b).1
    rw [htag a (hmem a ha), htag b (hmem b hb)]
    exact hab
  · change (st.upd x f).tag x = _
    rw [RbTree.tag, st.mem_upd_self]

/-- **What an operation keeps.** -/
theorem step (h : Recorded sen st nodes g t) {op : RbOp} (hop : op.Valid sen nodes)
    (hfuel : nodes.length < fuel) :
    ∃ st' g' t', op.step fuel st = some st' ∧ Recorded sen st' (op.update nodes) g' t' ∧
      ∀ x, op = .delete x → (st'.mem x).Reset := by
  have hsize : t.size < fuel := by
    rw [h.size]
    exact hfuel
  have hocc : ∀ x, x ∉ nodes.map Prod.fst ↔ t.occ x = 0 := by
    intro x
    rw [← Shape.count_inorder, List.count_eq_zero, h.perm.mem_iff]
  cases op with
  | insert x key data =>
      obtain ⟨h0, hxs, hnew⟩ := hop
      rw [← h.sentinel] at hxs
      have hx := (hocc x).1 hnew
      obtain ⟨g', htidy, hsen, htagx, htag⟩ := h.setTag hx hxs key data
      obtain ⟨st', t', hrun, htidy', hperm⟩ := htidy.insert hx (by rw [hsen]; exact hxs) hsize
      refine ⟨st', g', t', hrun,
        ⟨htidy', hsen.trans h.sentinel, hperm.trans (h.perm.cons x), ?_, ?_⟩,
        fun y hy => (nomatch hy)⟩
      · intro e he
        rcases List.mem_cons.1 he with rfl | he
        · exact htagx
        · rw [htag e.1 fun heq => hnew (heq ▸ List.mem_map_of_mem he)]
          exact h.tag e he
      · intro e he
        rcases List.mem_cons.1 he with rfl | he
        · exact h0
        · exact h.pos e he
  | delete x =>
      have hx : t.occ x ≠ 0 := fun h0 => (hocc x).2 h0 hop
      obtain ⟨st', hrun, g', t', htidy, hsen, htag, hperm, hreset⟩ := h.tidy.delete hx hsize
      refine ⟨st', g', t', hrun, ⟨htidy, hsen.trans h.sentinel, ?_, ?_, ?_⟩, ?_⟩
      · have hnodup := hperm.nodup_iff.1 h.nodup
        have hkeep : (x :: t'.inorder).filter (· ≠ x) = t'.inorder := by
          rw [List.filter_cons_of_neg (by simp), List.filter_eq_self]
          intro y hy
          simpa using fun heq : y = x => (List.nodup_cons.1 hnodup).1 (heq ▸ hy)
        rw [← hkeep, RbOp.update]
        refine ((hperm.symm.trans h.perm).filter _).trans ?_
        rw [List.filter_map]
        rfl
      · intro e he
        obtain ⟨he, hex⟩ := List.mem_filter.1 he
        rw [htag e.1 (by simpa using hex)]
        exact h.tag e he
      · exact fun e he => h.pos e (List.mem_filter.1 he).1
      · rintro y ⟨⟩
        exact hreset

/-- **What a run keeps.** -/
theorem run (h : Recorded sen st nodes g t) {ops : List RbOp} (hops : RbOp.ValidRun sen nodes ops)
    (hfuel : nodes.length + ops.length < fuel) :
    ∃ st' g' t', RbOp.run fuel ops st = some st' ∧ Recorded sen st' (RbOp.live nodes ops) g' t' ∧
      ∀ x, ops.getLast? = some (.delete x) → (st'.mem x).Reset := by
  induction ops generalizing st nodes g t with
  | nil => exact ⟨st, g, t, rfl, h, fun x hx => (nomatch hx)⟩
  | cons op ops ih =>
      rw [List.length_cons] at hfuel
      obtain ⟨st₁, g₁, t₁, hstep, h₁, hreset⟩ := h.step hops.1 (show nodes.length < fuel by omega)
      have hlen := RbOp.length_update_le nodes op
      obtain ⟨st', g', t', hrun, h', hlast⟩ := ih h₁ hops.2 (by omega)
      refine ⟨st', g', t', by rw [RbOp.run, hstep]; exact hrun, h', fun x hx => ?_⟩
      cases ops with
      | nil =>
          cases hrun
          exact hreset x (Option.some.inj hx)
      | cons => exact hlast x hx

end Recorded

/-- **The tree of timeouts after any run** of insertions of new nodes and deletions of nodes that
are in the tree. -/
theorem rbtree_run (mem : ℕ → RbNode) (sen fuel : ℕ) (ops : List RbOp)
    (hops : RbOp.ValidRun sen [] ops)
    (hfuel : ops.length < fuel) :
    ∃ st t, RbOp.run fuel ops (RbTree.rbtreeInit mem sen) = some st ∧
      Timeouts fuel st (RbOp.live [] ops) t ∧ ∀ x, ops.getLast? = some (.delete x) →
        (st.mem x).Reset := by
  have hblack : ((RbTree.rbtreeInit mem sen).mem sen).color = .black := by
    rw [RbTree.rbtreeInit, RbTree.rbtreeBlack, RbTree.setColor, RbTree.mem_upd_self]
  have hinit : Recorded sen (RbTree.rbtreeInit mem sen) []
    ((RbTree.rbtreeInit mem sen).ground sen hblack) .nil :=
    { tidy := ⟨⟨rfl, rfl, trivial, fun _ => Nat.zero_le _, rfl, fun _ => rfl, fun _ _ => rfl⟩,
        ⟨rfl, trivial, 0, rfl⟩, List.Pairwise.nil⟩
      sentinel := rfl
      perm := List.Perm.refl _
      tag := fun e he => absurd he List.not_mem_nil
      pos := fun e he => absurd he List.not_mem_nil }
  obtain ⟨st, g, t, hrun, h, hlast⟩ := hinit.run hops
    (by rw [List.length_nil, Nat.zero_add]; exact hfuel)
  exact ⟨st, t, hrun, h.timeouts ((RbOp.length_live [] ops).trans (by simpa using hfuel.le)), hlast⟩

/-- Six nodes, two of them with equal keys, and deletions of a node with two children, of a red
leaf, and of a black leaf, after which the loop runs. -/
def sixNodes : List RbOp :=
  [.insert 1 50 0, .insert 2 30 0, .insert 3 70 0, .insert 4 30 0, .insert 5 60 7, .insert 6 80 0,
    .delete 3, .delete 4, .delete 2]

theorem rbtree_run_sixNodes : RbOp.ValidRun 9 [] sixNodes ∧
    ∃ st t, RbOp.run 10 sixNodes (RbTree.rbtreeInit (fun _ => ⟨0, 0, 0, 0, 0, .black⟩) 9) =
      some st ∧
      Timeouts 10 st [(6, 80, 0), (5, 60, 7), (1, 50, 0)] t ∧ (st.mem 2).Reset := by
  have hvalid : RbOp.ValidRun 9 [] sixNodes :=
    ⟨by decide, by decide, by decide, by decide, by decide, by decide, by decide, by decide,
     by decide, trivial⟩
  obtain ⟨st, t, hrun, h, hlast⟩ :=
    rbtree_run (fun _ => ⟨0, 0, 0, 0, 0, .black⟩) 9 10 sixNodes hvalid (by decide)
  exact ⟨hvalid, st, t, hrun, h, hlast 2 rfl⟩

end CacheProxy
