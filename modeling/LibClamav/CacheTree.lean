import LibClamav.CacheSource
import LibClamav.SplayTree

namespace LibClamav.Cache

open SplayTree List

/-!
# The tree of a cache set in its links

How the links of the nodes represent a binary tree with the numbers of the
nodes, and the two trees that `splay` builds while it descends.  The lemmas for
one side serve the other one through the mirror image of the links.
-/

variable {x root : Nat} {l r : BinaryTree Nat} {upLeft upRight leftLink rightLink : Option Nat}

section

/-- A link leads to a tree whose root has the given `up` link. -/
def Rep (links : Links) : Option Nat → Option Nat → BinaryTree Nat → Prop
  | _, link, .nil => link = none
  | up, link, .node a l r =>
    link = some a ∧ links.up a = up ∧ Rep links (some a) (links.left a) l ∧
      Rep links (some a) (links.right a) r

/-- The links of a node are the same. -/
structure Same (links links' : Links) (node : Nat) : Prop where
  left : links'.left node = links.left node
  right : links'.right node = links.right node
  up : links'.up node = links.up node

/-- A node that was never used. -/
structure Unlinked (links : Links) (node : Nat) : Prop where
  left : links.left node = none
  right : links.right node = none
  up : links.up node = none

variable {links links' : Links} {tree : BinaryTree Nat} {up link : Option Nat} {node parent : Nat}
  (other : Nat)

/-- A node that two writes leave alone keeps its links. -/
theorem Same.trans
    {links'' : Links}
    (first : Same links links' node)
    (second : Same links' links'' node) :
    Same links links'' node :=
  ⟨second.left.trans first.left, second.right.trans first.right, second.up.trans first.up⟩

theorem Unlinked.of_same
    (unlinked : Unlinked links node)
    (same : Same links links' node) :
    Unlinked links' node :=
  ⟨same.left.trans unlinked.left, same.right.trans unlinked.right, same.up.trans unlinked.up⟩

@[simp] theorem Links.setLeft_right : (links.setLeft node link).right = links.right := rfl
@[simp] theorem Links.setLeft_up : (links.setLeft node link).up = links.up := rfl
@[simp] theorem Links.setRight_left : (links.setRight node link).left = links.left := rfl
@[simp] theorem Links.setRight_up : (links.setRight node link).up = links.up := rfl
@[simp] theorem Links.setUp_left : (links.setUp node link).left = links.left := rfl
@[simp] theorem Links.setUp_right : (links.setUp node link).right = links.right := rfl

@[simp] theorem Links.setLeft_left :
    (links.setLeft node link).left other = if other = node then link else links.left other := by
  simp [Links.setLeft, Function.update_apply]

@[simp] theorem Links.setRight_right :
    (links.setRight node link).right other = if other = node then link else links.right other := by
  simp [Links.setRight, Function.update_apply]

@[simp] theorem Links.setUp_up :
    (links.setUp node link).up other = if other = node then link else links.up other := by
  simp [Links.setUp, Function.update_apply]

@[simp] theorem Links.adopt_left : (links.adopt link parent).left = links.left := by
  cases link <;> rfl

@[simp] theorem Links.adopt_right : (links.adopt link parent).right = links.right := by
  cases link <;> rfl

@[simp] theorem Links.adopt_up : (links.adopt link parent).up other =
      if link = some other then some parent else links.up other := by
  cases link with
  | none => simp [Links.adopt]
  | some child => simp [Links.adopt, eq_comm]

/-- Writes to other nodes leave a tree as it is. -/
theorem Rep.frame
    (rep : Rep links up link tree)
    (same : ∀ a ∈ inorder tree, Same links links' a) :
    Rep links' up link tree := by
  induction tree generalizing up link with
  | nil => exact rep
  | node a l r ihLeft ihRight =>
    obtain ⟨isRoot, isUp, left, right⟩ := rep
    have here := same a (by simp [inorder])
    refine ⟨isRoot, here.up.trans isUp, ?_, ?_⟩
    · rw [here.left]
      exact ihLeft left fun b isNode => same b (by simp [inorder, isNode])
    · rw [here.right]
      exact ihRight right fun b isNode => same b (by simp [inorder, isNode])

/-- A tree holds the node its link leads to. -/
theorem Rep.mem_of_link
    (rep : Rep links up link tree)
    (isLink : link = some node) :
    node ∈ inorder tree := by
  cases tree with
  | nil => exact nomatch isLink.symm.trans rep
  | node a l r =>
    obtain ⟨isRoot, _⟩ := rep
    cases isLink.symm.trans isRoot
    simp [inorder]

/-- A tree under a new parent. -/
theorem Rep.adopt
    (rep : Rep links up link tree)
    (nodup : (inorder tree).Nodup)
    (parent : Nat) :
    Rep (links.adopt link parent) (some parent) link tree := by
  cases tree with
  | nil =>
    cases rep
    rfl
  | node a l r =>
    obtain ⟨rfl, _, left, right⟩ := rep
    simp only [inorder, nodup_append, nodup_cons, mem_cons] at nodup
    refine ⟨rfl, by simp, ?_, ?_⟩
    · rw [Links.adopt_left]
      refine left.frame fun b isNode => ⟨by simp, by simp, ?_⟩
      have differs : a ≠ b := fun same => nodup.2.2 b isNode a (.inl rfl) same.symm
      simp [differs]
    rw [Links.adopt_right]
    refine right.frame fun b isNode => ⟨by simp, by simp, ?_⟩
    have differs : a ≠ b := fun same => nodup.2.1.1 (same ▸ isNode)
    simp [differs]

end

section

/-- The links with left and right exchanged. -/
def Links.mirror (links : Links) : Links :=
  { left := links.right, right := links.left, up := links.up }

/-- The tree with left and right exchanged. -/
def mirror : BinaryTree Nat → BinaryTree Nat
  | .nil => .nil
  | .node a l r => .node a (mirror r) (mirror l)

/-- The mirror image of a spine. -/
def mirrorSpine (spine : List (Nat × BinaryTree Nat)) : List (Nat × BinaryTree Nat) :=
  spine.map fun node => (node.1, mirror node.2)

@[simp] theorem mirrorSpine_cons
    (a : Nat)
    (tree : BinaryTree Nat)
    (spine : List (Nat × BinaryTree Nat)) :
    mirrorSpine ((a, tree) :: spine) = (a, mirror tree) :: mirrorSpine spine :=
  rfl

/-- Mirroring twice changes nothing. -/
@[simp] theorem mirror_mirror (tree : BinaryTree Nat) : mirror (mirror tree) = tree := by
  induction tree with
  | nil => rfl
  | node a l r ihLeft ihRight => simp [mirror, ihLeft, ihRight]

@[simp] theorem mirrorSpine_mirrorSpine
    (spine : List (Nat × BinaryTree Nat)) :
    mirrorSpine (mirrorSpine spine) = spine := by
  induction spine with
  | nil => rfl
  | cons node spine ih =>
    obtain ⟨a, tree⟩ := node
    simp [ih]

/-- A mirrored tree has its nodes the other way round. -/
@[simp] theorem inorder_mirror
    (tree : BinaryTree Nat) :
    inorder (mirror tree) = (inorder tree).reverse := by
  induction tree with
  | nil => rfl
  | node a l r ihLeft ihRight => simp [mirror, inorder, ihLeft, ihRight]

@[simp] theorem leftNodes_mirrorSpine
    (spine : List (Nat × BinaryTree Nat)) :
    leftNodes (mirrorSpine spine) = (rightNodes spine).reverse := by
  induction spine with
  | nil => rfl
  | cons node spine ih => simp_all [mirrorSpine, leftNodes, rightNodes]

@[simp] theorem rightNodes_mirrorSpine
    (spine : List (Nat × BinaryTree Nat)) :
    rightNodes (mirrorSpine spine) = (leftNodes spine).reverse := by
  induction spine with
  | nil => rfl
  | cons node spine ih => simp_all [mirrorSpine, leftNodes, rightNodes]

/-- The right spine is the mirrored left spine. -/
theorem mirror_closeLeft
    (spine : List (Nat × BinaryTree Nat))
    (hole : BinaryTree Nat) :
    mirror (closeLeft (mirrorSpine spine) (mirror hole)) = closeRight spine hole := by
  induction spine generalizing hole with
  | nil => simp [mirrorSpine, closeLeft, closeRight]
  | cons node spine ih =>
    rw [closeRight, ← ih (.node node.1 hole node.2)]
    rfl

variable {links : Links} {tree : BinaryTree Nat} {up link : Option Nat}

theorem Same.mirror
    {links' : Links}
    {node : Nat}
    (same : Same links links' node) :
    Same links.mirror links'.mirror node :=
  ⟨same.right, same.left, same.up⟩

/-- Mirrored links hold the mirrored tree. -/
theorem Rep.mirror (rep : Rep links up link tree) : Rep links.mirror up link (mirror tree) := by
  induction tree generalizing up link with
  | nil => exact rep
  | node a l r ihLeft ihRight =>
    obtain ⟨isRoot, isUp, left, right⟩ := rep
    exact ⟨isRoot, isUp, ihRight right, ihLeft left⟩

end

/-- The left tree of the loop of `splay`, from its last linked node on: the stack node has it on
its right side, and the right link of the last node is still open. -/
def Spine (links : Links) : List (Nat × BinaryTree Nat) → Nat → Prop
  | [], last => last = stackNode
  | (a, l) :: spine, last =>
    last = a ∧ Rep links (some a) (links.left a) l ∧
      ∃ before, Spine links spine before ∧ links.right before = some a ∧ links.up a = some before

variable {links links' : Links} {spine : List (Nat × BinaryTree Nat)} {last : Nat}

section

variable (isSpine : Spine links spine last)

include isSpine

/-- The last node is on the spine or is the one on the stack. -/
theorem Spine.last_mem :
    last ∈ stackNode :: leftNodes spine := by
  cases spine with
  | nil =>
    cases isSpine
    simp
  | cons node spine => simp [isSpine.1, leftNodes]

/-- A spine stays if its links but the last one do. -/
theorem Spine.frame
    (left : ∀ a ∈ leftNodes spine, links'.left a = links.left a)
    (up : ∀ a ∈ leftNodes spine, links'.up a = links.up a)
    (right : ∀ a ∈ stackNode :: leftNodes spine, a ≠ last → links'.right a = links.right a)
    (nodup : (stackNode :: leftNodes spine).Nodup) :
    Spine links' spine last := by
  induction spine generalizing last with
  | nil => exact isSpine
  | cons node spine ih =>
    obtain ⟨a, l⟩ := node
    obtain ⟨rfl, rep, before, isBefore, isRight, isUp⟩ := isSpine
    simp only [leftNodes, mem_append, mem_cons] at left up right
    have apart : ∀ b, b ∈ stackNode :: leftNodes spine ∨ b ∈ inorder l → b ≠ last := by
      simp only [leftNodes, nodup_cons, nodup_append, mem_append, mem_cons] at nodup ⊢
      grind
    refine ⟨rfl, ?_, before, ih isBefore ?_ ?_ ?_ ?_, ?_, ?_⟩
    · rw [left last (by simp)]
      refine rep.frame fun b isNode => ⟨left b (by simp [isNode]), ?_, up b (by simp [isNode])⟩
      exact right b (by simp [isNode]) (apart b (.inr isNode))
    · exact fun b isNode => left b (by simp [isNode])
    · exact fun b isNode => up b (by simp [isNode])
    · intro b isNode _
      refine right b ?_ (apart b (.inl isNode))
      rcases mem_cons.mp isNode with isStack | isNode
      · exact .inl isStack
      · simp [isNode]
    · simp only [leftNodes, nodup_cons, nodup_append, mem_append] at nodup ⊢
      tauto
    · have isNode := isBefore.last_mem
      rw [right before ?_ (apart before (.inl isNode)), isRight]
      rcases mem_cons.mp isNode with isStack | isNode
      · exact .inl isStack
      · simp [isNode]
    · rw [up last (by simp), isUp]

theorem Spine.of_same
    (same : ∀ a ∈ stackNode :: leftNodes spine, Same links links' a)
    (nodup : (stackNode :: leftNodes spine).Nodup) :
    Spine links' spine last :=
  isSpine.frame (fun a isNode => (same a (mem_cons_of_mem _ isNode)).left)
    (fun a isNode => (same a (mem_cons_of_mem _ isNode)).up)
    (fun a isNode _ => (same a isNode).right) nodup

/-- The tree at the end of a spine completes it. -/
theorem Spine.close
    {hole : BinaryTree Nat}
    (rep : Rep links (some last) (links.right last) hole) :
    Rep links (some stackNode) (links.right stackNode) (closeLeft spine hole) := by
  induction spine generalizing last hole with
  | nil =>
    cases isSpine
    exact rep
  | cons node spine ih =>
    obtain ⟨rfl, repLeft, before, isBefore, isRight, isUp⟩ := isSpine
    exact ih isBefore (isRight ▸ ⟨rfl, isUp, repLeft, rep⟩)

end

/-- Hang a subtree on the right side of a node. -/
def Links.hangRight (links : Links) (node : Nat) (link : Option Nat) : Links :=
  (links.setRight node link).adopt link node

/-- Hang a subtree on the left side of a node. -/
def Links.hangLeft (links : Links) (node : Nat) (link : Option Nat) : Links :=
  (links.setLeft node link).adopt link node

theorem Links.mirror_hangRight
    (links : Links)
    (node : Nat)
    (link : Option Nat) :
    (links.mirror.hangRight node link).mirror = links.hangLeft node link := by
  cases link <;> rfl

variable {hole : BinaryTree Nat} {up link : Option Nat}

section

variable (rep : Rep links up link hole) {node : Nat}

include rep

theorem Rep.same_hangRight
    (notNode : x ≠ node)
    (notMoved : x ∉ inorder hole) :
    Same links (links.hangRight node link) x := by
  have notLink : link ≠ some x := fun isLink => notMoved (rep.mem_of_link isLink)
  exact ⟨by simp [Links.hangRight], by simp [Links.hangRight, notNode],
    by simp [Links.hangRight, notLink]⟩

theorem Rep.same_hangLeft
    (notNode : x ≠ node)
    (notMoved : x ∉ inorder hole) :
    Same links (links.hangLeft node link) x := by
  rw [← Links.mirror_hangRight]
  exact (rep.mirror.same_hangRight notNode (by simpa using notMoved)).mirror

/-- A tree hung under another node. -/
theorem Rep.hangRight
    (notIn : node ∉ inorder hole)
    (nodup : (inorder hole).Nodup) :
    Rep (links.hangRight node link) (some node) link hole := by
  have linked : Rep (links.setRight node link) up link hole := by
    refine rep.frame fun x isNode => ⟨rfl, ?_, rfl⟩
    have notNode : x ≠ node := fun same => notIn (same ▸ isNode)
    simp [notNode]
  exact linked.adopt nodup node

/-- The mirrored case. -/
theorem Rep.hangLeft
    (notIn : node ∉ inorder hole)
    (nodup : (inorder hole).Nodup) :
    Rep (links.hangLeft node link) (some node) link hole := by
  have hung : Rep (links.mirror.hangRight node link) (some node) link (Cache.mirror hole) := by
    refine rep.mirror.hangRight (by simpa using notIn) ?_
    rw [inorder_mirror]
    exact (reverse_perm _).nodup_iff.mpr nodup
  simpa [Links.mirror_hangRight] using hung.mirror

end

/-- Two trees are joined under their new root. -/
theorem Rep.join
    (left : Rep links upLeft leftLink l)
    (right : Rep links upRight rightLink r)
    (nodup : (inorder (.node root l r)).Nodup) :
    Rep (((links.hangLeft root leftLink).hangRight root rightLink).setUp root none) none (some root)
      (.node root l r) := by
  simp only [inorder, nodup_cons, nodup_append, mem_cons] at nodup
  have hungLeft : Rep (links.hangLeft root leftLink) (some root) leftLink l :=
    left.hangLeft (by grind) (by grind)
  have keptRight : Rep (links.hangLeft root leftLink) upRight rightLink r :=
    right.frame fun x isNode => left.same_hangLeft (by grind) (by grind)
  have keptLeft : Rep ((links.hangLeft root leftLink).hangRight root rightLink) (some root)
      leftLink l :=
    hungLeft.frame fun x isNode => keptRight.same_hangRight (by grind) (by grind)
  have hungRight : Rep ((links.hangLeft root leftLink).hangRight root rightLink) (some root)
      rightLink r :=
    keptRight.hangRight (by grind) (by grind)
  have isLeft : ((links.hangLeft root leftLink).hangRight root rightLink).left root = leftLink := by
    simp [Links.hangRight, Links.hangLeft]
  have isRight :
      ((links.hangLeft root leftLink).hangRight root rightLink).right root = rightLink := by
    simp [Links.hangRight]
  have notRoot : ∀ x, x ∈ inorder l ∨ x ∈ inorder r → x ≠ root := by grind
  refine ⟨rfl, by simp, ?_, ?_⟩
  · rw [Links.setUp_left, isLeft]
    exact keptLeft.frame fun x isNode => ⟨rfl, rfl, by simp [notRoot x (.inl isNode)]⟩
  · rw [Links.setUp_right, isRight]
    exact hungRight.frame fun x isNode => ⟨rfl, rfl, by simp [notRoot x (.inr isNode)]⟩

/-- Joining writes to no node outside the trees. -/
theorem Rep.same_join
    (left : Rep links upLeft leftLink l)
    (right : Rep links upRight rightLink r)
    (isOutside : x ∉ inorder (.node root l r)) :
    Same links (((links.hangLeft root leftLink).hangRight root rightLink).setUp root none) x := by
  simp only [inorder, mem_append, mem_cons, not_or] at isOutside
  have notLeft : leftLink ≠ some x := fun isLink => isOutside.1 (left.mem_of_link isLink)
  have notRight : rightLink ≠ some x := fun isLink => isOutside.2.2 (right.mem_of_link isLink)
  have notRoot := isOutside.2.1
  exact ⟨by simp [Links.hangLeft, Links.hangRight, notRoot],
    by simp [Links.hangLeft, Links.hangRight, notRoot],
    by simp [Links.hangLeft, Links.hangRight, notRoot, notLeft, notRight]⟩

/-- A tree hung under the end of a spine completes it. -/
theorem Spine.hangRight
    (isSpine : Spine links spine last)
    (rep : Rep links up link hole)
    (nodup : (stackNode :: (leftNodes spine ++ inorder hole)).Nodup) :
    Rep (links.hangRight last link) (some stackNode) ((links.hangRight last link).right stackNode)
      (closeLeft spine hole) := by
  simp only [nodup_cons, nodup_append, mem_append] at nodup
  have isLast := isSpine.last_mem
  have isLink : ∀ x, link = some x → x ∈ inorder hole := fun x => rep.mem_of_link
  have notLink : ∀ x, x ∈ leftNodes spine → link ≠ some x := by grind
  have filled : Rep (links.hangRight last link) (some last) link hole :=
    rep.hangRight (by grind) nodup.2.2.1
  have isClosed : Spine (links.hangRight last link) spine last := by
    refine isSpine.frame ?_ ?_ ?_ ?_
    · exact fun x _ => by simp [Links.hangRight]
    · exact fun x isNode => by simp [Links.hangRight, notLink x isNode]
    · exact fun x _ notLast => by simp [Links.hangRight, notLast]
    · grind
  have isRight : (links.hangRight last link).right last = link := by simp [Links.hangRight]
  exact isClosed.close (isRight.symm ▸ filled)

end LibClamav.Cache
