import LibClamav.CacheSearch

namespace LibClamav.Cache

open SplayTree List Function

/-!
# A new node of a cache set

`cacheset_add` takes a node without children out of the tree and makes it the
new root, between the two parts that the splay has left.
-/

section

variable {links : Links} {tree : BinaryTree Nat} {up link : Option Nat} {x parent y : Nat}

theorem Links.detach_of_none (isUp : links.up x = none) : links.detach x = links := by
  simp [Links.detach, isUp]

theorem Links.same_detach
    (isUp : links.up x = some parent)
    (notParent : y ≠ parent) :
    Same links (links.detach x) y := by
  rw [Links.detach, isUp]
  dsimp only
  split
  · exact ⟨by simp [notParent], rfl, rfl⟩
  · exact ⟨rfl, by simp [notParent], rfl⟩

@[simp] theorem Links.detach_up : (links.detach x).up = links.up := by
  rw [Links.detach]
  split
  · rfl
  · split <;> rfl

/-- A leaf is taken off its parent. -/
theorem Rep.detach
    (rep : Rep links up link tree)
    (nodup : (inorder tree).Nodup)
    (leaf : Leaf x tree)
    (notRoot : tree ≠ .node x .nil .nil) :
    ∃ parent ∈ inorder tree, links.up x = some parent ∧
      Rep (links.detach x) up link (eraseLeaf x tree) := by
  induction tree generalizing up link with
  | nil => exact nomatch leaf
  | node a l r ihLeft ihRight =>
    obtain ⟨isRoot, isUp, left, right⟩ := rep
    simp only [inorder, nodup_append, nodup_cons, mem_cons] at nodup
    cases leaf with
    | here => exact absurd rfl notRoot
    | left leaf =>
      have notRight : x ∉ inorder r := by
        have isNode := leaf.mem_inorder
        grind
      have isErased : eraseLeaf x (.node a l r) = .node a (eraseLeaf x l) r := by
        rw [eraseLeaf, eraseLeaf_of_notMem notRight, if_neg]
        rintro ⟨-, rfl, -⟩
        exact nomatch leaf
      rw [isErased]
      by_cases isLeaf : l = .node x .nil .nil
      · subst isLeaf
        obtain ⟨isLeft, isParent, -⟩ := left
        have isDetached : links.detach x = links.setLeft a none := by
          simp [Links.detach, isParent, isLeft]
        refine ⟨a, by simp [inorder], isParent, isRoot, ?_, ?_, ?_⟩
        · rw [Links.detach_up, isUp]
        · simp [isDetached, eraseLeaf, Rep]
        rw [isDetached]
        refine right.frame fun y isNode => ⟨?_, rfl, rfl⟩
        have notRoot : y ≠ a := by grind
        simp [notRoot]
      · obtain ⟨parent, isNode, isParent, erased⟩ := ihLeft left nodup.1 leaf isLeaf
        have same : ∀ y, y ≠ parent → Same links (links.detach x) y := fun y =>
          Links.same_detach isParent
        refine ⟨parent, by simp [inorder, isNode], isParent, isRoot, ?_, ?_, ?_⟩
        · rw [Links.detach_up, isUp]
        · rwa [(same a (by grind)).left]
        · rw [(same a (by grind)).right]
          exact right.frame fun y isNode => same y (by grind)
    | right leaf =>
      have isNode := leaf.mem_inorder
      have notLeft : x ∉ inorder l := by grind
      have isErased : eraseLeaf x (.node a l r) = .node a l (eraseLeaf x r) := by
        rw [eraseLeaf, eraseLeaf_of_notMem notLeft, if_neg]
        rintro ⟨-, -, rfl⟩
        exact nomatch leaf
      rw [isErased]
      by_cases isLeaf : r = .node x .nil .nil
      · subst isLeaf
        obtain ⟨isRight, isParent, -⟩ := right
        have notLink : links.left a ≠ some x := fun isLink => notLeft (left.mem_of_link isLink)
        have isDetached : links.detach x = links.setRight a none := by
          simp [Links.detach, isParent, notLink]
        refine ⟨a, by simp [inorder], isParent, isRoot, ?_, ?_, ?_⟩
        · rw [Links.detach_up, isUp]
        · rw [isDetached]
          refine left.frame fun y isNode => ⟨rfl, ?_, rfl⟩
          have notRoot : y ≠ a := by grind
          simp [notRoot]
        · simp [isDetached, eraseLeaf, Rep]
      · obtain ⟨parent, isNode, isParent, erased⟩ := ihRight right nodup.2.1.2 leaf isLeaf
        have same : ∀ y, y ≠ parent → Same links (links.detach x) y := fun y =>
          Links.same_detach isParent
        refine ⟨parent, by simp [inorder, isNode], isParent, isRoot, ?_, ?_, ?_⟩
        · rw [Links.detach_up, isUp]
        · rw [(same a (by grind)).left]
          exact left.frame fun y isNode => same y (by grind)
        · rwa [(same a (by grind)).right]

end

section

variable {links : Links} {l r : BinaryTree Nat} {root x : Nat}

theorem Links.plantLess
    (links : Links)
    (notRoot : x ≠ root) :
    let planted := ((links.setLeft x (links.left root)).setRight x (some root)).setLeft root none
    ((planted.adopt (planted.left x) x).adopt
        ((planted.adopt (planted.left x) x).right x) x).setUp x none =
      ((((links.setLeft root none).hangLeft x (links.left root)).hangRight x (some root)).setUp x
        none) := by
  refine Links.ext (funext fun y => ?_) (funext fun y => ?_) (funext fun y => ?_)
  · by_cases isNew : y = x
    · simp [Links.hangLeft, Links.hangRight, isNew, notRoot]
    · simp [Links.hangLeft, Links.hangRight, isNew]
  · simp [Links.hangLeft, Links.hangRight]
  · simp [Links.hangLeft, Links.hangRight, notRoot]

theorem Links.plantGreater
    (links : Links)
    (notRoot : x ≠ root) :
    let planted := ((links.setRight x (links.right root)).setLeft x (some root)).setRight root none
    ((planted.adopt (planted.left x) x).adopt
        ((planted.adopt (planted.left x) x).right x) x).setUp x none =
      ((((links.setRight root none).hangLeft x (some root)).hangRight x (links.right root)).setUp x
        none) := by
  refine Links.ext (funext fun y => ?_) (funext fun y => ?_) (funext fun y => ?_)
  · simp [Links.hangLeft, Links.hangRight]
  · by_cases isNew : y = x
    · simp [Links.hangLeft, Links.hangRight, isNew, notRoot]
    · simp [Links.hangLeft, Links.hangRight, isNew]
  · simp [Links.hangLeft, Links.hangRight, notRoot]

/-- A tree on links that differ from the ones before in one tree only. -/
def Planted (links links' : Links) (root : Nat) (tree : BinaryTree Nat) : Prop :=
  Rep links' none (some root) tree ∧ ∀ y, y ∉ inorder tree → Same links links' y

/-- A new root below the old one in order. -/
theorem Rep.plantLess
    (rep : Rep links none (some root) (.node root l r))
    (nodup : (inorder (.node x l (.node root .nil r))).Nodup) :
    Planted links ((((links.setLeft root none).hangLeft x (links.left root)).hangRight x
      (some root)).setUp x none) x (.node x l (.node root .nil r)) := by
  obtain ⟨-, isUp, left, right⟩ := rep
  have distinct := nodup
  simp only [inorder, nodup_append, nodup_cons, mem_append, mem_cons] at distinct
  have same : ∀ y, y ≠ root → Same links (links.setLeft root none) y := fun y notRoot =>
    ⟨by simp [notRoot], rfl, rfl⟩
  have first := left.frame fun y isNode => same y (by grind)
  have second : Rep (links.setLeft root none) none (some root) (.node root .nil r) :=
    ⟨rfl, isUp, by simp [Rep], right.frame fun y isNode => same y (by grind)⟩
  refine ⟨first.join second nodup, fun y isOutside => ?_⟩
  have notRoot : y ≠ root := by
    simp only [inorder, mem_append, mem_cons, not_or] at isOutside
    tauto
  exact (same y notRoot).trans (first.same_join second isOutside)

/-- A new root above it. -/
theorem Rep.plantGreater
    (rep : Rep links none (some root) (.node root l r))
    (nodup : (inorder (.node x (.node root l .nil) r)).Nodup) :
    Planted links ((((links.setRight root none).hangLeft x (some root)).hangRight x
      (links.right root)).setUp x none) x (.node x (.node root l .nil) r) := by
  obtain ⟨-, isUp, left, right⟩ := rep
  have distinct := nodup
  simp only [inorder, nodup_append, nodup_cons, mem_append, mem_cons] at distinct
  have same : ∀ y, y ≠ root → Same links (links.setRight root none) y := fun y notRoot =>
    ⟨rfl, by simp [notRoot], rfl⟩
  have first : Rep (links.setRight root none) none (some root) (.node root l .nil) :=
    ⟨rfl, isUp, left.frame fun y isNode => same y (by grind), by simp [Rep]⟩
  have second := right.frame fun y isNode => same y (by grind)
  refine ⟨first.join second nodup, fun y isOutside => ?_⟩
  have notRoot : y ≠ root := by
    simp only [inorder, mem_append, mem_cons, not_or] at isOutside
    tauto
  exact (same y notRoot).trans (first.same_join second isOutside)

end

section

variable {cs : CacheSet} {tree : BinaryTree Nat} {x : Nat}

theorem inorder_insertRoot_perm
    (side : Nat → Ordering)
    (x : Nat)
    (tree : BinaryTree Nat) :
    (inorder (insertRoot side x tree)).Perm (x :: inorder tree) := by
  cases tree with
  | nil => exact List.Perm.refl _
  | node a l r =>
    rw [insertRoot]
    split
    · exact perm_middle
    · simpa [inorder] using @perm_middle _ x (inorder l ++ [a]) (inorder r)

/-- The new node becomes the root. -/
theorem plant_planted
    (rep : Rep cs.links none cs.root tree)
    (nodup : (x :: inorder tree).Nodup)
    (hash : Key)
    (reclevel : UInt32) :
    Planted cs.links (cs.plant x hash reclevel).links x
      (insertRoot (sideOf hash cs.key) x tree) := by
  have newNodup := (inorder_insertRoot_perm (sideOf hash cs.key) x tree).nodup_iff.mpr nodup
  cases tree with
  | nil =>
    have isEmpty : cs.root = none := rep
    rw [CacheSet.plant, isEmpty]
    refine ⟨⟨rfl, by simp, by simp [Rep], by simp [Rep]⟩, fun y isOutside => ?_⟩
    have notNew : y ≠ x := by simpa [insertRoot, inorder] using isOutside
    exact ⟨by simp [notNew], by simp [notNew], by simp [notNew]⟩
  | node root l r =>
    have isRoot := rep.1
    have notRoot : x ≠ root := by
      simp only [inorder, nodup_cons, mem_append, mem_cons, not_or] at nodup
      exact nodup.1.2.1
    rw [isRoot] at rep
    rw [insertRoot] at newNodup ⊢
    by_cases isLess : cmp hash (cs.key root) = .lt
    · rw [sideOf, if_pos isLess] at newNodup ⊢
      have planted := rep.plantLess newNodup
      rw [← cs.links.plantLess notRoot] at planted
      simpa only [CacheSet.plant, isRoot, if_pos isLess] using planted
    rw [sideOf, if_neg isLess] at newNodup ⊢
    have planted := rep.plantGreater newNodup
    rw [← cs.links.plantGreater notRoot] at planted
    simpa only [CacheSet.plant, isRoot, if_neg isLess] using planted

/-- The tree then has one node more. -/
theorem plant_represents
    (rep : Rep cs.links none cs.root tree)
    (nodup : (x :: inorder tree).Nodup)
    (bound : ∀ a ∈ x :: inorder tree, a < nodes)
    (unused : ∀ y, y ≠ stackNode → y ∉ x :: inorder tree → Unlinked cs.links y)
    (hash : Key)
    (reclevel : UInt32) :
    Represents (cs.plant x hash reclevel) (insertRoot (sideOf hash cs.key) x tree) := by
  have perm := inorder_insertRoot_perm (sideOf hash cs.key) x tree
  obtain ⟨planted, same⟩ := plant_planted rep nodup hash reclevel
  refine ⟨planted, perm.nodup_iff.mpr nodup, ?_, ?_⟩
  · exact fun a mem => bound a (perm.mem_iff.mp mem)
  · intro y notStack isOutside
    exact (unused y notStack (mt perm.mem_iff.mpr isOutside)).of_same (same y isOutside)

end

variable {links : Links} {cs : CacheSet} {tree : BinaryTree Nat} {up link : Option Nat} {x : Nat}
  {key : Nat → Key} {hash : Key}

theorem Rep.link_eq_none_iff (rep : Rep links up link tree) : link = none ↔ tree = .nil := by
  cases tree with
  | nil => exact iff_of_true rep rfl
  | node a l r => simp [rep.1]

theorem Rep.isEnd_iff
    (rep : Rep links up link tree)
    (nodup : (inorder tree).Nodup)
    (isNode : x ∈ inorder tree) :
    links.isEnd x = true ↔ Leaf x tree := by
  induction tree generalizing up link with
  | nil => exact nomatch isNode
  | node a l r ihLeft ihRight =>
    obtain ⟨-, -, left, right⟩ := rep
    simp only [inorder, nodup_append, nodup_cons, mem_append, mem_cons] at nodup isNode
    have leafLeft : Leaf x l → x ∈ inorder l := Leaf.mem_inorder
    have leafRight : Leaf x r → x ∈ inorder r := Leaf.mem_inorder
    have leaf_iff : Leaf x (.node a l r) ↔ (a = x ∧ l = .nil ∧ r = .nil) ∨ Leaf x l ∨ Leaf x r := by
      constructor
      · intro leaf
        cases leaf with
        | here => simp
        | left leaf => exact .inr (.inl leaf)
        | right leaf => exact .inr (.inr leaf)
      rintro (⟨rfl, rfl, rfl⟩ | leaf | leaf)
      · exact .here
      · exact .left leaf
      · exact .right leaf
    rw [leaf_iff]
    rcases isNode with inLeft | rfl | inRight
    · have := ihLeft left nodup.1 inLeft
      grind
    · have isEnd : links.isEnd x = true ↔ l = .nil ∧ r = .nil := by
        rw [← left.link_eq_none_iff, ← right.link_eq_none_iff]
        simp [Links.isEnd, and_comm]
      grind
    · have := ihRight right nodup.2.1.2 inRight
      grind

/-- The nodes that `cacheset_add` may take. -/
def Free (tree : BinaryTree Nat) (x : Nat) : Prop := x ∉ inorder tree ∨ Leaf x tree

/-- The test of the code finds free nodes and leaves. -/
theorem Represents.isEnd_iff
    (represents : Represents cs tree)
    (isNode : x < nodes) :
    cs.links.isEnd x = true ↔ Free tree x := by
  by_cases inTree : x ∈ inorder tree
  · rw [represents.rep.isEnd_iff represents.nodup inTree]
    simp [Free, inTree]
  · have notStack : x ≠ stackNode := Nat.ne_of_lt isNode
    have isUnused := represents.unused x notStack inTree
    simp [Free, inTree, Links.isEnd, isUnused.left, isUnused.right]

theorem notMem_eraseLeaf
    (free : Free tree x)
    (nodup : (inorder tree).Nodup) :
    x ∉ inorder (eraseLeaf x tree) := by
  rcases free with absent | leaf
  · rwa [eraseLeaf_of_notMem absent]
  · rw [inorder_eraseLeaf leaf nodup]
    exact List.Nodup.not_mem_erase nodup

/-- The links of a tree whose free node was taken out; only the node itself may keep a link to
its parent. -/
theorem Represents.detach
    (represents : Represents cs tree)
    (isNode : x < nodes)
    (free : Free tree x)
    (notAlone : tree ≠ .node x .nil .nil) :
    Rep (cs.links.detach x) none cs.root (eraseLeaf x tree) ∧
      ∀ y, y ≠ stackNode → y ∉ x :: inorder (eraseLeaf x tree) →
        Unlinked (cs.links.detach x) y := by
  by_cases inTree : x ∈ inorder tree
  · have leaf : Leaf x tree := free.resolve_left (not_not.mpr inTree)
    obtain ⟨parent, isParent, isUp, erased⟩ := represents.rep.detach represents.nodup leaf notAlone
    refine ⟨erased, fun y notStack isOutside => ?_⟩
    have outside : y ∉ inorder tree := by
      rw [inorder_eraseLeaf leaf represents.nodup] at isOutside
      simp only [mem_cons, not_or] at isOutside
      exact fun inTree => isOutside.2 ((mem_erase_of_ne isOutside.1).mpr inTree)
    have notParent : y ≠ parent := fun same => outside (same ▸ isParent)
    exact (represents.unused y notStack outside).of_same (Links.same_detach isUp notParent)
  · have notStack : x ≠ stackNode := Nat.ne_of_lt isNode
    rw [Links.detach_of_none (represents.unused x notStack inTree).up, eraseLeaf_of_notMem inTree]
    refine ⟨represents.rep, fun y notStack isOutside => ?_⟩
    exact represents.unused y notStack fun inTree => isOutside (mem_cons_of_mem _ inTree)

/-- The state of the set after a free node was made the new root. -/
def CacheSet.replace
    (cs : CacheSet)
    (x : Nat)
    (hash : Key)
    (reclevel : UInt32) :
    CacheSet :=
  { cs with links := cs.links.detach x, order := cs.order.requeue x }.plant x hash reclevel

@[simp] theorem CacheSet.replace_order
    (hash : Key)
    (reclevel : UInt32) :
    (cs.replace x hash reclevel).order = cs.order.requeue x :=
  rfl

@[simp] theorem CacheSet.replace_key
    (hash : Key)
    (reclevel : UInt32) :
    (cs.replace x hash reclevel).key = update cs.key x hash :=
  rfl

@[simp] theorem CacheSet.replace_minrec
    (hash : Key)
    (reclevel : UInt32) :
    (cs.replace x hash reclevel).minrec = update cs.minrec x reclevel :=
  rfl

/-- A node is taken off and planted with its new key. -/
theorem Represents.replace
    (represents : Represents cs tree)
    (isNode : x < nodes)
    (free : Free tree x)
    (notAlone : tree ≠ .node x .nil .nil)
    (hash : Key)
    (reclevel : UInt32) :
    Represents (cs.replace x hash reclevel)
      (insertRoot (sideOf hash cs.key) x (eraseLeaf x tree)) := by
  obtain ⟨rep, unused⟩ := represents.detach isNode free notAlone
  have sublist := inorder_eraseLeaf_sublist x tree
  refine plant_represents rep ?_ ?_ unused hash reclevel
  · exact nodup_cons.mpr ⟨notMem_eraseLeaf free represents.nodup, represents.nodup.sublist sublist⟩
  intro a mem
  rcases mem_cons.mp mem with rfl | isOld
  · exact isNode
  · exact represents.bound a (sublist.subset isOld)

theorem mem_inorder_replace
    {y : Nat}
    {side : Nat → Ordering}
    (free : Free tree x)
    (nodup : (inorder tree).Nodup) :
    y ∈ inorder (insertRoot side x (eraseLeaf x tree)) ↔ y = x ∨ y ∈ inorder tree := by
  rw [(inorder_insertRoot_perm side x (eraseLeaf x tree)).mem_iff, mem_cons]
  rcases free with absent | leaf
  · rw [eraseLeaf_of_notMem absent]
  · rw [inorder_eraseLeaf leaf nodup, List.Nodup.mem_erase_iff nodup]
    tauto

theorem pairwise_insert
    {front back : List Nat}
    (sorted : (front ++ back).Pairwise fun a b => cmp (key a) (key b) = .lt)
    (isNew : x ∉ front ++ back)
    (smaller : ∀ b ∈ front, sideOf hash key b = .gt)
    (greater : ∀ b ∈ back, sideOf hash key b = .lt) :
    (front ++ x :: back).Pairwise fun a b =>
      cmp (update key x hash a) (update key x hash b) = .lt := by
  have old : ∀ a ∈ front ++ back, update key x hash a = key a := by
    intro a mem
    have notNew : a ≠ x := fun same => isNew (same ▸ mem)
    exact update_of_ne notNew hash key
  have kept : (front ++ back).Pairwise fun a b =>
      cmp (update key x hash a) (update key x hash b) = .lt :=
    sorted.imp_of_mem fun {a b} isFirst isSecond before => by rwa [old a isFirst, old b isSecond]
  simp only [pairwise_append, pairwise_cons, mem_cons] at kept ⊢
  refine ⟨kept.1, ⟨fun b isBack => ?_, kept.2.1⟩, ?_⟩
  · rw [update_self, old b (by simp [isBack])]
    exact greater b isBack
  rintro a isFront b (rfl | isBack)
  · rw [update_self, old a (by simp [isFront])]
    exact cmp_eq_gt_iff.mp (smaller a isFront)
  · exact kept.2.2 a isFront b isBack

/-- The order is kept. -/
theorem SearchTree.replace
    (sorted : SearchTree key tree)
    (nodup : (inorder tree).Nodup)
    (absent : ∀ node ∈ inorder tree, key node ≠ hash)
    (free : Free (SplayTree.splay (sideOf hash key) tree) x)
    (notAlone : SplayTree.splay (sideOf hash key) tree ≠ .node x .nil .nil) :
    SearchTree (update key x hash) (insertRoot (sideOf hash key) x
        (eraseLeaf x (SplayTree.splay (sideOf hash key) tree))) := by
  by_cases isEmpty : tree = .nil
  · subst isEmpty
    simp [SearchTree, SplayTree.splay, descend, Split.join, eraseLeaf, insertRoot, inorder]
  obtain ⟨a, l, r, isSplay, smaller, greater⟩ := splay_spec isEmpty (sorted.ascending hash)
  have isInorder := @inorder_splay _ (sideOf hash key) tree
  have isSorted := sorted.splay (sideOf hash key)
  have splayNodup := isInorder ▸ nodup
  have isNew := notMem_eraseLeaf free splayNodup
  rw [isSplay] at isInorder notAlone isSorted isNew ⊢
  rw [eraseLeaf_node notAlone] at isNew ⊢
  simp only [inorder, mem_append, mem_cons, not_or] at isNew
  have notEqual : sideOf hash key a ≠ .eq := fun isEqual =>
    absent a (isInorder ▸ by simp [inorder]) (cmp_eq_eq_iff.mp isEqual).symm
  -- the new node belongs between the two subtrees, before or behind the old root
  have kept := List.Pairwise.sublist ((inorder_eraseLeaf_sublist x l).append
      ((inorder_eraseLeaf_sublist x r).cons_cons a)) isSorted
  have keptSmaller : ∀ b ∈ inorder (eraseLeaf x l), sideOf hash key b = .gt := fun b mem =>
    smaller b ((inorder_eraseLeaf_sublist x l).subset mem)
  have keptGreater : ∀ b ∈ inorder (eraseLeaf x r), sideOf hash key b = .lt := fun b mem =>
    greater b ((inorder_eraseLeaf_sublist x r).subset mem)
  rw [SearchTree, insertRoot]
  cases isSide : sideOf hash key a with
  | eq => exact absurd isSide notEqual
  | lt =>
    rw [if_pos rfl]
    have isGreater : ∀ b ∈ a :: inorder (eraseLeaf x r), sideOf hash key b = .lt := by
      simpa [isSide] using keptGreater
    have outside : x ∉ inorder (eraseLeaf x l) ++ a :: inorder (eraseLeaf x r) := by simp [isNew]
    exact pairwise_insert kept outside keptSmaller isGreater
  | gt =>
    rw [if_neg (by simp)]
    have isSmaller : ∀ b ∈ inorder (eraseLeaf x l) ++ [a], sideOf hash key b = .gt := by
      intro b mem
      rcases mem_append.mp mem with isFront | isRoot
      · exact keptSmaller b isFront
      · rwa [mem_singleton.mp isRoot]
    have outside : x ∉ inorder (eraseLeaf x l) ++ [a] ++ inorder (eraseLeaf x r) := by simp [isNew]
    rw [append_cons] at kept
    simpa [inorder] using pairwise_insert kept outside isSmaller keptGreater

end LibClamav.Cache
