import LibClamav.CacheTree
import Mathlib.Data.List.Perm.Subperm

namespace LibClamav.Cache

open SplayTree List

/-!
# The splay of a cache set

The loop of `splay` on the links of the nodes is the descent on the tree that
they represent, and its end puts the parts together again.
-/

section

/-- The state of the loop represents a tree that was taken apart. -/
structure Parts
    (s : SplayState) (tree : BinaryTree Nat) (ls rs : List (Nat × BinaryTree Nat)) : Prop where
  root : ∃ l r, tree = .node s.root l r ∧ Rep s.links (some s.root) (s.links.left s.root) l ∧
    Rep s.links (some s.root) (s.links.right s.root) r
  left : Spine s.links ls s.left
  right : Spine s.links.mirror (mirrorSpine rs) s.right
  distinct : (stackNode :: (leftNodes ls ++ inorder tree ++ rightNodes rs)).Nodup
  unused : ∀ x, x ∉ stackNode :: (leftNodes ls ++ inorder tree ++ rightNodes rs) →
    Unlinked s.links x

/-- The state with left and right exchanged. -/
def SplayState.mirror (s : SplayState) : SplayState :=
  { links := s.links.mirror, left := s.right, right := s.left, root := s.root }

variable {s : SplayState} {tree : BinaryTree Nat} {ls rs : List (Nat × BinaryTree Nat)}
variable {a b : Nat} {l r ll lr : BinaryTree Nat} (x : Nat)

theorem Parts.mirror
    (parts : Parts s tree ls rs) :
    Parts s.mirror (mirror tree) (mirrorSpine rs) (mirrorSpine ls) := by
  obtain ⟨⟨l, r, rfl, left, right⟩, isLeft, isRight, distinct, unused⟩ := parts
  have reversed : leftNodes (mirrorSpine rs) ++ inorder (Cache.mirror (.node s.root l r)) ++
      rightNodes (mirrorSpine ls) =
      (leftNodes ls ++ inorder (.node s.root l r) ++ rightNodes rs).reverse := by
    simp
  refine ⟨⟨Cache.mirror r, Cache.mirror l, rfl, right.mirror, left.mirror⟩, isRight, ?_, ?_, ?_⟩
  · simpa [SplayState.mirror, Links.mirror] using isLeft
  · rw [reversed]
    exact ((reverse_perm _).cons stackNode).nodup_iff.mpr distinct
  intro x isOutside
  rw [reversed, mem_cons, mem_reverse, ← mem_cons] at isOutside
  have isUnused := unused x isOutside
  exact ⟨isUnused.right, isUnused.left, isUnused.up⟩

@[simp] theorem SplayState.rotateRight_left : (s.rotateRight b).links.left x =
      if x = s.root then s.links.right b else s.links.left x := by
  simp [SplayState.rotateRight]

@[simp] theorem SplayState.rotateRight_right :
    (s.rotateRight b).links.right x = if x = b then some s.root else s.links.right x := by
  simp [SplayState.rotateRight]

@[simp] theorem SplayState.rotateRight_up : (s.rotateRight b).links.up x = if x = s.root then some b
      else if s.links.right b = some x then some s.root else s.links.up x := by
  simp [SplayState.rotateRight]

/-- A rotation to the right. -/
theorem Parts.rotateRight
    (parts : Parts s (.node a (.node b ll lr) r) ls rs) :
    Parts (s.rotateRight b) (.node b ll (.node a lr r)) ls rs := by
  obtain ⟨⟨_, _, isTree, left, right⟩, isLeft, isRight, distinct, unused⟩ := parts
  cases isTree
  obtain ⟨isChild, isUp, repLeft, repRight⟩ := left
  have apart := distinct
  simp only [inorder, nodup_cons, nodup_append, mem_append, mem_cons] at apart
  have moved := repRight.adopt (by tauto) s.root
  have link : ∀ x, s.links.right b = some x → x ∈ inorder lr := fun x => repRight.mem_of_link
  -- outside of the two nodes and the subtree between them nothing changes
  have same : ∀ x, x ≠ s.root → x ≠ b → x ∉ inorder lr →
      Same s.links (s.rotateRight b).links x := by
    intro x notRoot notChild notMoved
    have notLink : s.links.right b ≠ some x := fun isLink => notMoved (link x isLink)
    exact ⟨by simp [notRoot], by simp [notChild], by simp [notRoot, notLink]⟩
  have childNotRoot : b ≠ s.root := by grind
  refine ⟨⟨ll, .node s.root lr r, rfl, ?_, ?_, by simp [SplayState.rotateRight], ?_, ?_⟩,
    ?_, ?_, ?_, ?_⟩
  · have isLink : (s.rotateRight b).links.left b = s.links.left b := by simp [childNotRoot]
    exact isLink ▸ repLeft.frame fun x isNode => same x (by grind) (by grind) (by grind)
  · simp [SplayState.rotateRight]
  · have isLink : (s.rotateRight b).links.left s.root = s.links.right b := by simp
    refine isLink ▸ moved.frame fun x isNode => ⟨?_, ?_, ?_⟩
    · have notRoot : x ≠ s.root := by grind
      simp [notRoot]
    · have notChild : x ≠ b := by grind
      simp [notChild]
    · have notRoot : x ≠ s.root := by grind
      simp [notRoot]
  · have isLink : (s.rotateRight b).links.right s.root = s.links.right s.root := by
      simp [childNotRoot.symm]
    exact isLink ▸ right.frame fun x isNode => same x (by grind) (by grind) (by grind)
  · exact isLeft.of_same (fun x isNode => same x (by grind) (by grind) (by grind)) (by grind)
  · refine isRight.of_same (fun x isNode => (same x ?_ ?_ ?_).mirror) ?_
    all_goals simp only [leftNodes_mirrorSpine, mem_cons, mem_reverse] at *
    all_goals grind
  · simpa [inorder] using distinct
  · intro x isOutside
    have outside : x ∉ stackNode ::
        (leftNodes ls ++ inorder (.node s.root (.node b ll lr) r) ++ rightNodes rs) := by
      simpa [inorder] using isOutside
    refine (unused x outside).of_same (same x ?_ ?_ ?_)
    all_goals simp only [inorder, mem_cons, mem_append, not_or] at outside
    all_goals tauto

/-- The root is linked to the right spine. -/
theorem Parts.linkRight
    (parts : Parts s (.node a (.node b ll lr) r) ls rs) :
    Parts s.linkRight (.node b ll lr) ls ((a, r) :: rs) := by
  obtain ⟨⟨_, _, isTree, left, right⟩, isLeft, isRight, distinct, unused⟩ := parts
  cases isTree
  obtain ⟨isChild, isUp, repLeft, repRight⟩ := left
  have apart := distinct
  simp only [inorder, nodup_cons, nodup_append, mem_append, mem_cons] at apart
  have last : s.right = stackNode ∨ s.right ∈ rightNodes rs := by simpa using isRight.last_mem
  -- only the open link of the right tree and the parent of the root change
  have same : ∀ x, x ≠ s.root → x ≠ s.right → Same s.links s.linkRight.links x := by
    intro x notRoot notLast
    exact ⟨by simp [SplayState.linkRight, notLast], rfl, by simp [SplayState.linkRight, notRoot]⟩
  have rootNotLast : s.root ≠ s.right := by grind
  have isRoot : s.linkRight.root = b := by simp [SplayState.linkRight, rootNotLast, isChild]
  refine ⟨⟨ll, lr, by rw [isRoot], ?_, ?_⟩, ?_, ⟨rfl, ?_, s.right, ?_, ?_, ?_⟩, ?_, ?_⟩
  · rw [isRoot, (same b (by grind) (by grind)).left]
    exact repLeft.frame fun x isNode => same x (by grind) (by grind)
  · rw [isRoot, (same b (by grind) (by grind)).right]
    exact repRight.frame fun x isNode => same x (by grind) (by grind)
  · refine isLeft.frame ?_ ?_ (fun x _ _ => rfl) (by grind)
    · exact fun x isNode => (same x (by grind) (by grind)).left
    · exact fun x isNode => (same x (by grind) (by grind)).up
  · have isLink : s.linkRight.links.mirror.left s.root = s.links.mirror.left s.root := rfl
    rw [isLink]
    refine right.mirror.frame fun x isNode => (same x ?_ ?_).mirror
    all_goals simp only [inorder_mirror, mem_reverse] at isNode
    all_goals grind
  · refine isRight.frame (fun x _ => rfl) (fun x isNode => ?_) (fun x isNode notLast => ?_) ?_
    all_goals simp only [leftNodes_mirrorSpine, mem_cons, mem_reverse] at *
    · have notRoot : x ≠ s.root := by grind
      simp [SplayState.linkRight, Links.mirror, notRoot]
    · simp [SplayState.linkRight, Links.mirror, notLast]
    · grind
  · simp [SplayState.linkRight, Links.mirror]
  · simp [SplayState.linkRight, Links.mirror]
  · simpa [inorder, rightNodes] using distinct
  · intro x isOutside
    have outside : x ∉ stackNode ::
        (leftNodes ls ++ inorder (.node s.root (.node b ll lr) r) ++ rightNodes rs) := by
      simpa [inorder, rightNodes] using isOutside
    refine (unused x outside).of_same (same x ?_ ?_)
    all_goals simp only [inorder, mem_cons, mem_append] at outside
    all_goals grind

theorem SplayState.mirror_rotateRight
    (s : SplayState)
    (b : Nat) :
    (s.mirror.rotateRight b).mirror = s.rotateLeft b := by
  have adopted :
      ((s.links.mirror.setLeft s.root (s.links.left b)).adopt (s.links.left b) s.root).mirror =
        (s.links.setRight s.root (s.links.left b)).adopt (s.links.left b) s.root := by
    cases s.links.left b <;> rfl
  exact congrArg (fun links : Links =>
      SplayState.mk ((links.setLeft b (some s.root)).setUp s.root (some b)) s.left s.right b)
    adopted

/-- A rotation to the left. -/
theorem Parts.rotateLeft
    (parts : Parts s (.node a l (.node b ll lr)) ls rs) :
    Parts (s.rotateLeft b) (.node b (.node a l ll) lr) ls rs := by
  have turned := parts.mirror.rotateRight.mirror
  simpa [SplayState.mirror_rotateRight, Cache.mirror] using turned

/-- The root is linked to the left spine. -/
theorem Parts.linkLeft
    (parts : Parts s (.node a l (.node b ll lr)) ls rs) :
    Parts s.linkLeft (.node b ll lr) ((a, l) :: ls) rs := by
  have turned : Parts s.linkLeft _ _ _ := parts.mirror.linkRight.mirror
  simpa [Cache.mirror] using turned

theorem Parts.root_eq (parts : Parts s (.node a l r) ls rs) : s.root = a := by
  obtain ⟨_, _, isTree, _⟩ := parts.root
  cases isTree
  rfl

theorem Parts.reps
    (parts : Parts s (.node a l r) ls rs) :
    Rep s.links (some a) (s.links.left a) l ∧ Rep s.links (some a) (s.links.right a) r := by
  obtain ⟨_, _, isTree, reps⟩ := parts.root
  cases isTree
  exact reps

variable {key : Nat → Key} {hash : Key} {rounds : Nat} {split : Split Nat} {s' : SplayState}

/-- The loop ends with these parts, and reports whether the key is at the root. -/
def EndsWith
    (key : Nat → Key)
    (hash : Key)
    (rounds : Nat)
    (s : SplayState)
    (split : Split Nat) :
    Prop :=
  ∃ s' found, splayLoop key hash rounds s = some (s', found) ∧
    Parts s' split.tree split.left split.right ∧ (found = true ↔ cmp hash (key s'.root) = .eq)

theorem EndsWith.of_break
    {found : Bool}
    (round : splayRound key hash s = (s', some found))
    (enough : 0 < rounds)
    (parts : Parts s' split.tree split.left split.right)
    (isFound : found = true ↔ cmp hash (key s'.root) = .eq) :
    EndsWith key hash rounds s split := by
  obtain ⟨rounds, rfl⟩ := Nat.exists_eq_add_of_lt enough
  exact ⟨s', found, by simp [splayLoop, round], parts, isFound⟩

theorem EndsWith.of_continue
    (round : splayRound key hash s = (s', none))
    (enough : 0 < rounds)
    (ends : EndsWith key hash (rounds - 1) s' split) :
    EndsWith key hash rounds s split := by
  obtain ⟨rounds, rfl⟩ := Nat.exists_eq_add_of_lt enough
  obtain ⟨final, found, isFinal, parts⟩ := ends
  simp only [Nat.zero_add, Nat.add_sub_cancel] at isFinal
  exact ⟨final, found, by simp [splayLoop, round, isFinal], parts⟩

/-- The loop descends as the abstract splay does. -/
theorem splayLoop_spec
    (parts : Parts s tree ls rs)
    (enough : (inorder tree).length ≤ rounds) :
    EndsWith key hash rounds s (descend (fun node => cmp hash (key node)) tree ls rs) := by
  fun_induction descend (fun node => cmp hash (key node)) tree ls rs generalizing s rounds with
  | case1 ls rs =>
    obtain ⟨_, _, isTree, _⟩ := parts.root
    cases isTree
  | case2 a l r ls rs isEq =>
    simp only [inorder, length_append, length_cons] at enough
    have isRoot := parts.root_eq
    have round : splayRound key hash s = (s, some true) := by simp only [splayRound, isRoot, isEq]
    exact .of_break round (by omega) parts (by simp [isRoot, isEq])
  | case3 a r ls rs isLess =>
    simp only [inorder, length_append, length_cons] at enough
    have isRoot := parts.root_eq
    have isChild : s.links.left a = none := parts.reps.1
    have round : splayRound key hash s = (s, some false) := by
      simp only [splayRound, isRoot, isLess, isChild]
    exact .of_break round (by omega) parts (by simp [isRoot, isLess])
  | case4 a r ls rs isLess b lr child =>
    simp only [inorder, length_append, length_cons] at enough
    have rotated := parts.rotateRight
    have isEnd : (s.rotateRight b).links.left b = none := rotated.reps.1
    have round : splayRound key hash s = (s.rotateRight b, some false) := by
      simp only [splayRound, parts.root_eq, isLess, parts.reps.1.1, child, if_true,
        rotated.root_eq, isEnd]
    exact .of_break round (by omega) rotated (by simp [rotated.root_eq, child])
  | case5 a r ls rs isLess b lr child c x y ih =>
    simp only [inorder, length_append, length_cons] at enough ih
    have rotated := parts.rotateRight
    have round : splayRound key hash s = ((s.rotateRight b).linkRight, none) := by
      simp only [splayRound, parts.root_eq, isLess, parts.reps.1.1, child, if_true,
        rotated.root_eq, rotated.reps.1.1]
    exact .of_continue round (by omega) (ih rotated.linkRight (by omega))
  | case6 a r ls rs isLess b bl br child ih =>
    simp only [inorder, length_append, length_cons] at enough ih
    have round : splayRound key hash s = (s.linkRight, none) := by
      simp only [splayRound, parts.root_eq, isLess, parts.reps.1.1]
      rw [if_neg child]
    exact .of_continue round (by omega) (ih parts.linkRight (by omega))
  | case7 a l ls rs isGreater =>
    simp only [inorder, length_append, length_cons] at enough
    have isRoot := parts.root_eq
    have isChild : s.links.right a = none := parts.reps.2
    have round : splayRound key hash s = (s, some false) := by
      simp only [splayRound, isRoot, isGreater, isChild]
    exact .of_break round (by omega) parts (by simp [isRoot, isGreater])
  | case8 a l ls rs isGreater b rl child =>
    simp only [inorder, length_append, length_cons] at enough
    have rotated := parts.rotateLeft
    have isEnd : (s.rotateLeft b).links.right b = none := rotated.reps.2
    have round : splayRound key hash s = (s.rotateLeft b, some false) := by
      simp only [splayRound, parts.root_eq, isGreater, parts.reps.2.1, child, if_true,
        rotated.root_eq, isEnd]
    exact .of_break round (by omega) rotated (by simp [rotated.root_eq, child])
  | case9 a l ls rs isGreater b rl child c x y ih =>
    simp only [inorder, length_append, length_cons] at enough ih
    have rotated := parts.rotateLeft
    have round : splayRound key hash s = ((s.rotateLeft b).linkLeft, none) := by
      simp only [splayRound, parts.root_eq, isGreater, parts.reps.2.1, child, if_true,
        rotated.root_eq, rotated.reps.2.1]
    exact .of_continue round (by omega) (ih rotated.linkLeft (by omega))
  | case10 a l ls rs isGreater b bl br child ih =>
    simp only [inorder, length_append, length_cons] at enough ih
    have round : splayRound key hash s = (s.linkLeft, none) := by
      simp only [splayRound, parts.root_eq, isGreater, parts.reps.2.1]
      rw [if_neg child]
    exact .of_continue round (by omega) (ih parts.linkLeft (by omega))

end

section

variable {s : SplayState} {ls rs : List (Nat × BinaryTree Nat)} {a : Nat} {l r : BinaryTree Nat}

variable (parts : Parts s (.node a l r) ls rs)

include parts

theorem Parts.root_ne :
    stackNode ≠ s.root ∧ s.root ≠ s.left := by
  have isRoot := parts.root_eq
  have isLast := parts.left.last_mem
  have distinct := parts.distinct
  simp only [inorder, nodup_cons, nodup_append, mem_append, mem_cons] at distinct
  grind

theorem Parts.close :
    let links := (s.links.hangRight s.left (s.links.left s.root)).hangLeft s.right
      (s.links.right s.root)
    Rep links (some stackNode) (links.right stackNode) (closeLeft ls l) ∧
      Rep links (some stackNode) (links.left stackNode) (closeRight rs r) := by
  obtain ⟨⟨_, _, isTree, left, right⟩, isLeft, isRight, distinct, unused⟩ := parts
  cases isTree
  simp only [inorder, nodup_cons, nodup_append, mem_append, mem_cons] at distinct
  have lastLeft := isLeft.last_mem
  have lastRight : s.right = stackNode ∨ s.right ∈ rightNodes rs := by simpa using isRight.last_mem
  let first : Links := s.links.hangRight s.left (s.links.left s.root)
  let second : Links := first.hangLeft s.right (s.links.right s.root)
  have closedLeft := isLeft.hangRight left (by grind)
  have same : ∀ x, x ≠ s.left → x ∉ inorder l → Same s.links first x := fun x => left.same_hangRight
  have rightFirst := right.frame fun x isNode => same x (by grind) (by grind)
  have isRightFirst : Spine first.mirror (mirrorSpine rs) s.right := by
    refine isRight.frame ?_ ?_ ?_ ?_
    all_goals simp only [leftNodes_mirrorSpine, mem_cons, mem_reverse]
    · exact fun x isNode => (same x (by grind) (by grind)).right
    · exact fun x isNode => (same x (by grind) (by grind)).up
    · exact fun x _ _ => by simp [first, Links.hangRight, Links.mirror]
    · grind
  refine ⟨?_, ?_⟩
  · have isLink : second.right stackNode = first.right stackNode := by simp [second, Links.hangLeft]
    refine isLink ▸ closedLeft.frame fun x isNode => rightFirst.same_hangLeft ?_ ?_
    all_goals simp only [inorder_closeLeft, mem_append] at isNode
    all_goals grind
  have turned := (isRightFirst.hangRight rightFirst.mirror (by simp; grind)).mirror
  change Rep (first.mirror.hangRight s.right _).mirror _
    ((first.mirror.hangRight s.right _).mirror.left stackNode) _ at turned
  rwa [Links.mirror_hangRight, mirror_closeLeft] at turned

/-- The parts are joined to one tree. -/
theorem Parts.assemble :
    Rep s.assemble none (some s.root) (Split.join ⟨ls, .node a l r, rs⟩) := by
  have isRoot := parts.root_eq
  obtain ⟨closedLeft, closedRight⟩ := parts.close
  have distinct := parts.distinct
  simp only [inorder, nodup_cons, nodup_append, mem_append, mem_cons] at distinct
  obtain ⟨rootNotStack, rootNotLeft⟩ := parts.root_ne
  have nodup : (inorder (.node s.root (closeLeft ls l) (closeRight rs r))).Nodup := by
    simp only [inorder, inorder_closeLeft, inorder_closeRight, nodup_cons, nodup_append,
      mem_append, mem_cons]
    grind
  have joined := closedLeft.join closedRight nodup
  rw [Split.join, ← isRoot]
  simpa [SplayState.assemble, Links.hangLeft, Links.hangRight, rootNotStack, rootNotLeft]
    using joined

theorem Parts.assemble_unused
    {x : Nat}
    (isOutside : x ∉ stackNode :: (leftNodes ls ++ inorder (.node a l r) ++ rightNodes rs)) :
    Unlinked s.assemble x := by
  have isUnused := parts.unused x isOutside
  obtain ⟨closedLeft, closedRight⟩ := parts.close
  have isRoot := parts.root_eq
  have lastLeft := parts.left.last_mem
  have lastRight : s.right = stackNode ∨ s.right ∈ rightNodes rs := by
    simpa using parts.right.last_mem
  obtain ⟨rootNotStack, rootNotLeft⟩ := parts.root_ne
  simp only [inorder, mem_append, mem_cons, not_or] at isOutside
  have notRoot : x ≠ s.root := by grind
  have notLeft : x ≠ s.left := by grind
  have notRight : x ≠ s.right := by grind
  -- the four nodes that get a parent are nodes of the tree
  have first : s.links.left s.root ≠ some x := fun isLink =>
    absurd (parts.reps.1.mem_of_link (isRoot ▸ isLink)) (by tauto)
  have second : s.links.right s.root ≠ some x := fun isLink =>
    absurd (parts.reps.2.mem_of_link (isRoot ▸ isLink)) (by tauto)
  have third := mt closedLeft.mem_of_link (by simp; tauto : x ∉ inorder (closeLeft ls l))
  have fourth := mt closedRight.mem_of_link (by simp; tauto : x ∉ inorder (closeRight rs r))
  simp only [Links.hangLeft, Links.hangRight, Links.adopt_right, Links.adopt_left,
    Links.setLeft_right, Links.setLeft_left, Links.setRight_right, Links.setRight_left]
    at third fourth
  refine ⟨?_, ?_, ?_⟩
  · simpa [SplayState.assemble, notRoot, notRight] using isUnused.left
  · simpa [SplayState.assemble, notRoot, notLeft] using isUnused.right
  · simpa [SplayState.assemble, notRoot, rootNotLeft, rootNotStack, first, second, third, fourth]
      using isUnused.up

end

/-- The links of a set represent a tree of its nodes. -/
structure Represents (cs : CacheSet) (tree : BinaryTree Nat) : Prop where
  rep : Rep cs.links none cs.root tree
  nodup : (inorder tree).Nodup
  bound : ∀ a ∈ inorder tree, a < nodes
  unused : ∀ x, x ≠ stackNode → x ∉ inorder tree → Unlinked cs.links x

/-- What the search compares: the key with the one of a node. -/
def sideOf
    (hash : Key)
    (key : Nat → Key)
    (node : Nat) :
    Ordering := cmp hash (key node)

/-- The root of a tree has the key. -/
def AtRoot (hash : Key) (key : Nat → Key) : BinaryTree Nat → Prop
  | .nil => False
  | .node a _ _ => sideOf hash key a = .eq

variable {cs : CacheSet} {tree : BinaryTree Nat}

theorem Represents.notMem_stackNode (represents : Represents cs tree) : stackNode ∉ inorder tree :=
  fun isNode => absurd (represents.bound stackNode isNode) (by simp [stackNode])

/-- There are at most as many keys as nodes. -/
theorem Represents.length_le (represents : Represents cs tree) : (inorder tree).length ≤ nodes := by
  have subset : inorder tree ⊆ range nodes := fun a isNode =>
    mem_range.mpr (represents.bound a isNode)
  simpa using (List.Nodup.subperm represents.nodup subset).length_le

/-- `splay` is the splay of the tree: it ends, changes the links and the root only, and reports
whether the key came to the root. -/
theorem splay_represents
    (represents : Represents cs tree)
    (hash : Key) :
    ∃ links root found, splay hash cs = some ({ cs with links, root }, found) ∧
      Represents { cs with links, root } (SplayTree.splay (sideOf hash cs.key) tree) ∧
      (found = true ↔ AtRoot hash cs.key (SplayTree.splay (sideOf hash cs.key) tree)) := by
  cases tree with
  | nil =>
    have isEmpty : cs.root = none := represents.rep
    have isSplay : splay hash cs = some (cs, false) := by simp only [splay, isEmpty]
    exact ⟨cs.links, cs.root, false, isSplay, represents,
      by simp [SplayTree.splay, descend, Split.join, AtRoot]⟩
  | node a l r =>
    obtain ⟨isRoot, isUp, left, right⟩ := represents.rep
    have notStack := represents.notMem_stackNode
    let links := ((cs.links.setLeft stackNode none).setRight stackNode none).setUp stackNode none
    have same : ∀ x, x ≠ stackNode → Same cs.links links x := fun x notStack =>
      ⟨by simp [links, notStack], by simp [links, notStack], by simp [links, notStack]⟩
    have parts : Parts ⟨links, stackNode, stackNode, a⟩ (.node a l r) [] [] := by
      simp only [inorder, mem_append, mem_cons, not_or] at notStack
      refine ⟨⟨l, r, rfl, ?_, ?_⟩, rfl, rfl, ?_, fun x isOutside => ?_⟩
      · have isLeft : links.left a = cs.links.left a := (same a (Ne.symm notStack.2.1)).left
        exact isLeft.symm ▸ left.frame fun x isNode => same x (by grind)
      · have isRight : links.right a = cs.links.right a := (same a (Ne.symm notStack.2.1)).right
        exact isRight.symm ▸ right.frame fun x isNode => same x (by grind)
      · simpa [leftNodes, rightNodes, represents.nodup] using represents.notMem_stackNode
      · simp only [leftNodes, rightNodes, nil_append, append_nil, mem_cons, not_or] at isOutside
        exact (represents.unused x isOutside.1 isOutside.2).of_same (same x isOutside.1)
    obtain ⟨s, found, isLoop, final, isFound⟩ : EndsWith cs.key hash nodes _
        (descend (sideOf hash cs.key) (.node a l r) [] []) :=
      splayLoop_spec parts represents.length_le
    have isNodes := @nodes_descend _ (sideOf hash cs.key) (.node a l r) [] []
    have isSplayed : SplayTree.splay (sideOf hash cs.key) (.node a l r) =
      (descend (sideOf hash cs.key) (.node a l r) [] []).join := rfl
    have isInorder := @inorder_splay _ (sideOf hash cs.key) (.node a l r)
    generalize descend (sideOf hash cs.key) (.node a l r) [] [] = split at final isNodes isSplayed
    obtain ⟨ls, _, rs⟩ := split
    obtain ⟨l', r', rfl, _⟩ := final.root
    have isSplay : splay hash cs =
        some ({ cs with links := s.assemble, root := some s.root }, found) := by
      simp only [splay, isRoot]
      rw [isLoop]
    rw [isSplayed] at isInorder ⊢
    refine ⟨s.assemble, some s.root, found, isSplay, ⟨final.assemble, ?_, ?_, ?_⟩, isFound⟩
    · exact isInorder ▸ represents.nodup
    · exact fun x isNode => represents.bound x (isInorder ▸ isNode)
    intro x isNotStack isOutside
    refine final.assemble_unused ?_
    simp only [Split.nodes, leftNodes, rightNodes, nil_append, append_nil] at isNodes
    rw [isNodes, ← isInorder]
    simp [isNotStack, isOutside]

end LibClamav.Cache
