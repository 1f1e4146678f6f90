import Mathlib.Data.Tree.Basic
import Mathlib.Data.List.Basic

namespace SplayTree

open List

/-!
# Top-down splaying

A search descends from the root and links the nodes it leaves behind to two
spines, one with the smaller and one with the greater nodes, with a rotation at
every second step in the same direction.  At the end the spines become the
subtrees of the node where the search stops.  The order of the nodes does not
change, and in a search tree the search stops at the node that is looked for.
-/

variable {α : Type}

/-- The nodes of a tree, from left to right. -/
def inorder : BinaryTree α → List α
  | .nil => []
  | .node a l r => inorder l ++ a :: inorder r

/-- Close a left spine, the last linked node first: each node has a left subtree, and the hole
is on the right of the last one. -/
def closeLeft : List (α × BinaryTree α) → BinaryTree α → BinaryTree α
  | [], hole => hole
  | (a, l) :: spine, hole => closeLeft spine (.node a l hole)

/-- Close a right spine, the last linked node first. -/
def closeRight : List (α × BinaryTree α) → BinaryTree α → BinaryTree α
  | [], hole => hole
  | (a, r) :: spine, hole => closeRight spine (.node a hole r)

/-- A tree that was taken apart: the two spines and the rest of the tree. -/
structure Split (α : Type) where
  left : List (α × BinaryTree α)
  tree : BinaryTree α
  right : List (α × BinaryTree α)

/-- The spines become the subtrees of the node that is left. -/
def Split.join (split : Split α) : BinaryTree α :=
  match split.tree with
  | .nil => .nil
  | .node a l r => .node a (closeLeft split.left l) (closeRight split.right r)

/-- The descent; `side a` compares what is looked for with `a`. -/
def descend
    (side : α → Ordering) :
    BinaryTree α → List (α × BinaryTree α) → List (α × BinaryTree α) → Split α
  | .nil, ls, rs => ⟨ls, .nil, rs⟩
  | .node a l r, ls, rs =>
    match side a with
    | .eq => ⟨ls, .node a l r, rs⟩
    | .lt =>
      match l with
      | .nil => ⟨ls, .node a .nil r, rs⟩
      | .node b ll lr =>
        match side b with
        | .lt =>
          match ll with
          | .nil => ⟨ls, .node b .nil (.node a lr r), rs⟩
          | .node c x y => descend side (.node c x y) ls ((b, .node a lr r) :: rs)
        | _ => descend side (.node b ll lr) ls ((a, r) :: rs)
    | .gt =>
      match r with
      | .nil => ⟨ls, .node a l .nil, rs⟩
      | .node b rl rr =>
        match side b with
        | .gt =>
          match rr with
          | .nil => ⟨ls, .node b (.node a l rl) .nil, rs⟩
          | .node c x y => descend side (.node c x y) ((b, .node a l rl) :: ls) rs
        | _ => descend side (.node b rl rr) ((a, l) :: ls) rs

section

variable {side : α → Ordering} {a b : α} {l r bl br : BinaryTree α}

theorem descend_of_lt_nil
    (isLess : side a = .lt)
    (ls rs : List (α × BinaryTree α)) :
    descend side (.node a .nil r) ls rs = ⟨ls, .node a .nil r, rs⟩ := by
  rw [descend.eq_def]
  simp only [isLess]

theorem descend_of_gt_nil
    (isGreater : side a = .gt)
    (ls rs : List (α × BinaryTree α)) :
    descend side (.node a l .nil) ls rs = ⟨ls, .node a l .nil, rs⟩ := by
  rw [descend.eq_def]
  simp only [isGreater]

theorem descend_of_lt_gt
    (isLess : side a = .lt)
    (isGreater : side b = .gt)
    (ls rs : List (α × BinaryTree α)) :
    descend side (.node a (.node b bl br) r) ls rs =
      descend side (.node b bl br) ls ((a, r) :: rs) := by
  rw [descend.eq_def]
  simp only [isLess, isGreater]

theorem descend_of_gt_lt
    (isGreater : side a = .gt)
    (isLess : side b = .lt)
    (ls rs : List (α × BinaryTree α)) :
    descend side (.node a l (.node b bl br)) ls rs =
      descend side (.node b bl br) ((a, l) :: ls) rs := by
  rw [descend.eq_def]
  simp only [isLess, isGreater]

end

/-- The whole splay. -/
def splay (side : α → Ordering) (tree : BinaryTree α) : BinaryTree α :=
  (descend side tree [] []).join

section

variable {side : α → Ordering} {tree : BinaryTree α}

/-- The nodes of a left spine, from left to right. -/
def leftNodes : List (α × BinaryTree α) → List α
  | [] => []
  | (a, l) :: spine => leftNodes spine ++ inorder l ++ [a]

/-- The nodes of a right spine, from left to right. -/
def rightNodes : List (α × BinaryTree α) → List α
  | [] => []
  | (a, r) :: spine => a :: inorder r ++ rightNodes spine

/-- The nodes of a left spine come first. -/
@[simp] theorem inorder_closeLeft
    (spine : List (α × BinaryTree α))
    (hole : BinaryTree α) :
    inorder (closeLeft spine hole) = leftNodes spine ++ inorder hole := by
  induction spine generalizing hole with
  | nil => rfl
  | cons node spine ih => simp [closeLeft, ih, inorder, leftNodes]

@[simp] theorem inorder_closeRight
    (spine : List (α × BinaryTree α))
    (hole : BinaryTree α) :
    inorder (closeRight spine hole) = inorder hole ++ rightNodes spine := by
  induction spine generalizing hole with
  | nil => simp [closeRight, rightNodes]
  | cons node spine ih => simp [closeRight, ih, inorder, rightNodes]

/-- The nodes of a tree that was taken apart. -/
def Split.nodes (split : Split α) : List α :=
  leftNodes split.left ++ inorder split.tree ++ rightNodes split.right

theorem descend_ne_nil
    (notEmpty : tree ≠ .nil)
    (ls rs : List (α × BinaryTree α)) :
    (descend side tree ls rs).tree ≠ .nil := by
  fun_induction descend side tree ls rs <;> simp_all

/-- The descent keeps all nodes in their order. -/
theorem nodes_descend
    (tree : BinaryTree α)
    (ls rs : List (α × BinaryTree α)) :
    (descend side tree ls rs).nodes = leftNodes ls ++ inorder tree ++ rightNodes rs := by
  fun_induction descend side tree ls rs <;>
    simp_all [Split.nodes, inorder, leftNodes, rightNodes]

theorem Split.inorder_join
    {split : Split α}
    (notEmpty : split.tree ≠ .nil) :
    inorder split.join = split.nodes := by
  rw [Split.join, Split.nodes]
  cases tree : split.tree with
  | nil => exact absurd tree notEmpty
  | node a l r => simp [inorder]

/-- So does the splay. -/
theorem inorder_splay (tree : BinaryTree α) : inorder (splay side tree) = inorder tree := by
  cases tree with
  | nil => rfl
  | node a l r =>
    have notEmpty : BinaryTree.node a l r ≠ .nil := by simp
    rw [splay, Split.inorder_join (descend_ne_nil notEmpty [] []), nodes_descend]
    simp [leftNodes, rightNodes]

end

section

variable {side : α → Ordering}

/-- The order of a search tree, for one search: behind a node that is not smaller than what is
looked for, all nodes are greater. -/
def Ascending (side : α → Ordering) (nodes : List α) : Prop :=
  nodes.Pairwise fun a b => side a ≠ .gt → side b = .lt

/-- Where a descent stops: at the node, or where the next link is empty. -/
structure Stopped (side : α → Ordering) (split : Split α) (a : α) (l r : BinaryTree α) : Prop where
  tree : split.tree = .node a l r
  smaller : ∀ node ∈ split.left, side node.1 = .gt
  greater : ∀ node ∈ split.right, side node.1 = .lt
  left : side a = .lt → l = .nil
  right : side a = .gt → r = .nil

/-- The spines lie on the two sides of the key. -/
theorem descend_stopped
    {tree : BinaryTree α}
    (notEmpty : tree ≠ .nil)
    (ls rs : List (α × BinaryTree α)) :
    (∀ node ∈ ls, side node.1 = .gt) → (∀ node ∈ rs, side node.1 = .lt) →
      ∃ a l r, Stopped side (descend side tree ls rs) a l r := by
  fun_induction descend side tree ls rs with
  | case1 ls rs => exact absurd rfl notEmpty
  | case2 a l r ls rs isHere =>
    intro smaller greater
    exact ⟨_, _, _, rfl, smaller, greater, by simp [isHere], by simp [isHere]⟩
  | case3 a r ls rs isLess | case4 a r ls rs _ b lr isLess =>
    intro smaller greater
    exact ⟨_, _, _, rfl, smaller, greater, by simp, by simp [isLess]⟩
  | case5 a r ls rs _ b lr isLess c x y ih | case6 a r ls rs isLess b ll lr _ ih =>
    intro smaller greater
    exact ih (by simp) smaller (forall_mem_cons.mpr ⟨isLess, greater⟩)
  | case7 a l ls rs isGreater | case8 a l ls rs _ b rl isGreater =>
    intro smaller greater
    exact ⟨_, _, _, rfl, smaller, greater, by simp [isGreater], by simp⟩
  | case9 a l ls rs _ b rl isGreater c x y ih | case10 a l ls rs isGreater b rl rr _ ih =>
    intro smaller greater
    exact ih (by simp) (forall_mem_cons.mpr ⟨isGreater, smaller⟩) greater

variable {before behind : List α} {spine : List (α × BinaryTree α)}

theorem Ascending.smaller
    {a : α}
    (ascending : Ascending side (before ++ a :: behind))
    (notLess : side a ≠ .lt) :
    ∀ b ∈ before, side b = .gt := by
  intro b isBefore
  by_contra notSmaller
  exact notLess ((pairwise_append.mp ascending).2.2 b isBefore a mem_cons_self notSmaller)

theorem Ascending.greater
    {a : α}
    (ascending : Ascending side (before ++ a :: behind))
    (notSmaller : side a ≠ .gt) :
    ∀ b ∈ behind, side b = .lt := by
  intro b isBehind
  have fromHere := (pairwise_append.mp ascending).2.1
  exact (pairwise_cons.mp fromHere).1 b isBehind notSmaller

theorem leftNodes_smaller
    (ascending : Ascending side (leftNodes spine ++ behind))
    (smaller : ∀ node ∈ spine, side node.1 = .gt) :
    ∀ b ∈ leftNodes spine, side b = .gt := by
  cases spine with
  | nil => simp [leftNodes]
  | cons node spine =>
    have isSmaller := smaller node mem_cons_self
    have before : Ascending side ((leftNodes spine ++ inorder node.2) ++ node.1 :: behind) := by
      simpa [leftNodes] using ascending
    intro b isNode
    rw [leftNodes, mem_append, mem_singleton] at isNode
    rcases isNode with earlier | rfl
    · exact before.smaller (by simp [isSmaller]) b earlier
    · exact isSmaller

theorem rightNodes_greater
    (ascending : Ascending side (before ++ rightNodes spine))
    (greater : ∀ node ∈ spine, side node.1 = .lt) :
    ∀ b ∈ rightNodes spine, side b = .lt := by
  cases spine with
  | nil => simp [rightNodes]
  | cons node spine =>
    have isGreater := greater node mem_cons_self
    have behind : Ascending side (before ++ node.1 :: (inorder node.2 ++ rightNodes spine)) := by
      simpa [rightNodes] using ascending
    intro b isNode
    have isNode : b = node.1 ∨ b ∈ inorder node.2 ++ rightNodes spine := by
      simpa [rightNodes] using isNode
    rcases isNode with rfl | later
    · exact isGreater
    · exact behind.greater (by simp [isGreater]) b later

/-- After a splay, the nodes on the left of the root are smaller than what is looked for, and
those on the right are greater. -/
theorem splay_spec
    {tree : BinaryTree α}
    (notEmpty : tree ≠ .nil)
    (ascending : Ascending side (inorder tree)) :
    ∃ a l r, splay side tree = .node a l r ∧ (∀ b ∈ inorder l, side b = .gt) ∧
      ∀ b ∈ inorder r, side b = .lt := by
  obtain ⟨a, l, r, stopped⟩ : ∃ a l r, Stopped side (descend side tree [] []) a l r :=
    descend_stopped notEmpty [] [] (by simp) (by simp)
  have joined : splay side tree = .node a (closeLeft (descend side tree [] []).left l)
      (closeRight (descend side tree [] []).right r) := by
    rw [splay, Split.join, stopped.tree]
  have nodes : inorder tree = (leftNodes (descend side tree [] []).left ++ inorder l) ++
      a :: (inorder r ++ rightNodes (descend side tree [] []).right) := by
    rw [← @inorder_splay α side tree, joined]
    simp [inorder]
  rw [nodes] at ascending
  refine ⟨_, _, _, joined, ?_, ?_⟩
  · rw [inorder_closeLeft]
    by_cases isLess : side a = .lt
    · rw [stopped.left isLess] at ascending ⊢
      simp only [inorder, append_nil] at ascending ⊢
      exact leftNodes_smaller ascending stopped.smaller
    · exact ascending.smaller isLess
  rw [inorder_closeRight]
  by_cases isGreater : side a = .gt
  · rw [stopped.right isGreater] at ascending ⊢
    rw [append_cons] at ascending
    exact rightNodes_greater ascending stopped.greater
  · exact ascending.greater isGreater

end

/-- A new root for a tree whose root was splayed to where the new node belongs. -/
def insertRoot (side : α → Ordering) (x : α) : BinaryTree α → BinaryTree α
  | .nil => .node x .nil .nil
  | .node a l r =>
    if side a = .lt then .node x l (.node a .nil r) else .node x (.node a l .nil) r

/-- A node without children. -/
inductive Leaf (x : α) : BinaryTree α → Prop where
  | here : Leaf x (.node x .nil .nil)
  | left {a : α} {l r : BinaryTree α} : Leaf x l → Leaf x (.node a l r)
  | right {a : α} {l r : BinaryTree α} : Leaf x r → Leaf x (.node a l r)

/-- A tree has a leaf. -/
theorem exists_leaf
    {tree : BinaryTree α}
    (notEmpty : tree ≠ .nil) :
    ∃ x, Leaf x tree := by
  induction tree with
  | nil => exact absurd rfl notEmpty
  | node a l r ihLeft ihRight =>
    by_cases leftEmpty : l = .nil
    · by_cases rightEmpty : r = .nil
      · subst leftEmpty rightEmpty
        exact ⟨a, .here⟩
      · obtain ⟨x, leaf⟩ := ihRight rightEmpty
        exact ⟨x, .right leaf⟩
    · obtain ⟨x, leaf⟩ := ihLeft leftEmpty
      exact ⟨x, .left leaf⟩

variable {x : α}

theorem Leaf.mem_inorder
    {tree : BinaryTree α}
    (leaf : Leaf x tree) :
    x ∈ inorder tree := by
  induction leaf with
  | here => simp [inorder]
  | left _ ih | right _ ih => simp [inorder, ih]

variable [DecidableEq α]

/-- The tree without one of its leaves. -/
def eraseLeaf (x : α) : BinaryTree α → BinaryTree α
  | .nil => .nil
  | .node a l r =>
    if a = x ∧ l = .nil ∧ r = .nil then .nil else .node a (eraseLeaf x l) (eraseLeaf x r)

theorem eraseLeaf_of_notMem
    {tree : BinaryTree α}
    (absent : x ∉ inorder tree) :
    eraseLeaf x tree = tree := by
  induction tree with
  | nil => rfl
  | node a l r ihLeft ihRight =>
    simp only [inorder, mem_append, mem_cons, not_or] at absent
    rw [eraseLeaf, if_neg fun both => absent.2.1 both.1.symm, ihLeft absent.1, ihRight absent.2.2]

theorem eraseLeaf_node
    {a : α}
    {l r : BinaryTree α}
    (notAlone : BinaryTree.node a l r ≠ .node x .nil .nil) :
    eraseLeaf x (.node a l r) = .node a (eraseLeaf x l) (eraseLeaf x r) := by
  rw [eraseLeaf, if_neg]
  rintro ⟨rfl, rfl, rfl⟩
  exact notAlone rfl

theorem inorder_eraseLeaf_sublist
    (x : α)
    (tree : BinaryTree α) :
    (inorder (eraseLeaf x tree)).Sublist (inorder tree) := by
  induction tree with
  | nil => exact List.Sublist.refl _
  | node a l r ihLeft ihRight =>
    rw [eraseLeaf]
    split
    · exact nil_sublist _
    · exact ihLeft.append (ihRight.cons_cons a)

/-- Erasing a leaf removes its node only. -/
theorem inorder_eraseLeaf
    {tree : BinaryTree α}
    (leaf : Leaf x tree)
    (nodup : (inorder tree).Nodup) :
    inorder (eraseLeaf x tree) = (inorder tree).erase x := by
  induction leaf with
  | here => simp [eraseLeaf, inorder]
  | @left a l r leaf ih =>
    have isNode := leaf.mem_inorder
    simp only [inorder] at nodup ⊢
    have distinct := nodup_append.mp nodup
    have notRight : x ∉ inorder r := fun inRight =>
      distinct.2.2 x isNode x (mem_cons_of_mem _ inRight) rfl
    have notEmpty : l ≠ .nil := by
      rintro rfl
      exact absurd isNode (by simp [inorder])
    rw [eraseLeaf, if_neg fun both => notEmpty both.2.1, inorder, ih distinct.1,
      eraseLeaf_of_notMem notRight, erase_append_left _ isNode]
  | @right a l r leaf ih =>
    have isNode := leaf.mem_inorder
    simp only [inorder] at nodup ⊢
    have distinct := nodup_append.mp nodup
    have notLeft : x ∉ inorder l := fun inLeft =>
      distinct.2.2 x inLeft x (mem_cons_of_mem _ isNode) rfl
    have differs : a ≠ x := by
      rintro rfl
      exact (nodup_cons.mp distinct.2.1).1 isNode
    rw [eraseLeaf, if_neg fun both => differs both.1, inorder,
      ih (nodup_cons.mp distinct.2.1).2, eraseLeaf_of_notMem notLeft,
      erase_append_right _ notLeft, erase_cons_tail (by simp [differs])]

end SplayTree
