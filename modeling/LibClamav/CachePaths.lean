import LibClamav.CacheRuns

namespace LibClamav.Cache

open SplayTree List Function

/-!
# A run that breaks the chain

Lookups of missing keys turn a tree into a path whose only end is the last node
of the chain.  The next new key takes that node, links it to itself in the chain
and cuts it off.  More lookups make it the end of the path again; then no node
for a new key is left.
-/

/-- A key with an empty digest. -/
def sizeKey (size : Nat) : Key := { digest0 := 0, digest1 := 0, size := UInt32.ofNat size }

theorem signed32_ofNat
    {size : Nat}
    (small : size < 2 ^ 31) :
    signed32 (UInt32.ofNat size) = size := by
  have isNat : (UInt32.ofNat size).toBitVec.toNat = size := by
    exact UInt32.toNat_ofNat_of_lt (Nat.lt_trans small (by decide))
  rw [signed32, BitVec.toInt_eq_toNat_of_lt (by omega), isNat]

/-- The keys of small sizes are ordered by size. -/
theorem cmp_sizeKey
    {a b : Nat}
    (smallFirst : a < 2 ^ 31)
    (smallSecond : b < 2 ^ 31) :
    cmp (sizeKey a) (sizeKey b) = if a < b then .lt else if b < a then .gt else .eq := by
  simp [cmp, sizeKey, signed32_ofNat smallFirst, signed32_ofNat smallSecond]

section

/-- A path down the left links. -/
def leftPath : List Nat → BinaryTree Nat
  | [] => .nil
  | a :: rest => .node a (leftPath rest) .nil

/-- A path down the right links. -/
def rightPath : List Nat → BinaryTree Nat
  | [] => .nil
  | a :: rest => .node a .nil (rightPath rest)

/-- A path to the left, read in order. -/
@[simp] theorem inorder_leftPath (path : List Nat) : inorder (leftPath path) = path.reverse := by
  induction path with
  | nil => rfl
  | cons a rest ih => simp [leftPath, inorder, ih]

@[simp] theorem inorder_rightPath (path : List Nat) : inorder (rightPath path) = path := by
  induction path with
  | nil => rfl
  | cons a rest ih => simp [rightPath, inorder, ih]

theorem leaf_leftPath
    {path : List Nat}
    {x : Nat}
    (leaf : Leaf x (leftPath path)) :
    path.getLast? = some x := by
  induction path with
  | nil => exact nomatch leaf
  | cons a rest ih =>
    cases rest with
    | nil =>
      cases leaf with
      | here => rfl
      | left leaf | right leaf => exact nomatch leaf
    | cons b rest =>
      cases leaf with
      | left leaf => exact ih leaf
      | right leaf => exact nomatch leaf

theorem leaf_rightPath
    {path : List Nat}
    {x : Nat}
    (leaf : Leaf x (rightPath path)) :
    path.getLast? = some x := by
  induction path with
  | nil => exact nomatch leaf
  | cons a rest ih =>
    cases rest with
    | nil =>
      cases leaf with
      | here => rfl
      | left leaf | right leaf => exact nomatch leaf
    | cons b rest =>
      cases leaf with
      | left leaf => exact nomatch leaf
      | right leaf => exact ih leaf

theorem eraseLeaf_rightPath
    {path : List Nat}
    {x : Nat}
    (isNew : x ∉ path) :
    eraseLeaf x (rightPath (path ++ [x])) = rightPath path := by
  induction path with
  | nil => simp [rightPath, eraseLeaf]
  | cons a rest ih =>
    simp only [mem_cons, not_or] at isNew
    simp [rightPath, eraseLeaf, Ne.symm isNew.1, ih isNew.2]

variable {side : Nat → Ordering} {down up : List Nat} {a b : Nat}

/-- A search beyond a left path leaves it as it is. -/
theorem splay_leftPath
    (isGreater : ∀ a ∈ down, side a = .gt) :
    SplayTree.splay side (leftPath down) = leftPath down := by
  cases down with
  | nil => rfl
  | cons a down =>
    rw [SplayTree.splay, leftPath, descend_of_gt_nil (isGreater a (by simp))]
    rfl

theorem splay_rightPath
    (isLess : ∀ a ∈ up, side a = .lt) :
    SplayTree.splay side (rightPath up) = rightPath up := by
  cases up with
  | nil => rfl
  | cons a up =>
    rw [SplayTree.splay, rightPath, descend_of_lt_nil (isLess a (by simp))]
    rfl

/-- A new node becomes the top of a path. -/
theorem insertRoot_leftPath
    (isGreater : ∀ a ∈ down, side a = .gt)
    (x : Nat) :
    insertRoot side x (leftPath down) = leftPath (x :: down) := by
  cases down with
  | nil => rfl
  | cons a down => simp [leftPath, insertRoot, isGreater a (by simp)]

theorem insertRoot_rightPath
    (isLess : ∀ a ∈ up, side a = .lt)
    (x : Nat) :
    insertRoot side x (rightPath up) = rightPath (x :: up) := by
  cases up with
  | nil => rfl
  | cons a up => simp [rightPath, insertRoot, isLess a (by simp)]

/-- A search between two nodes turns the path by one. -/
theorem splay_turnRight
    (isLess : side a = .lt)
    (isGreater : side b = .gt) :
    SplayTree.splay side (.node a (leftPath (b :: down)) (rightPath up)) =
      .node b (leftPath down) (rightPath (a :: up)) := by
  rw [SplayTree.splay, leftPath, descend_of_lt_gt isLess isGreater, descend_of_gt_nil isGreater]
  rfl

theorem splay_turnLeft
    (isGreater : side a = .gt)
    (isLess : side b = .lt) :
    SplayTree.splay side (.node a (leftPath down) (rightPath (b :: up))) =
      .node b (leftPath (a :: down)) (rightPath up) := by
  rw [SplayTree.splay, rightPath, descend_of_gt_lt isGreater isLess, descend_of_lt_nil isLess]
  rfl

end

section

/-- The nodes of a tree have keys with even sizes that ascend. -/
structure Ranked (key : Nat → Key) (rank : Nat → Nat) (line : List Nat) : Prop where
  isKey : ∀ a ∈ line, key a = sizeKey (rank a)
  even : ∀ a ∈ line, rank a % 2 = 0
  small : ∀ a ∈ line, rank a < 1024
  ascending : line.Pairwise fun a b => rank a < rank b

variable {key : Nat → Key} {rank : Nat → Nat} {line : List Nat} {tree : BinaryTree Nat}
variable {a size : Nat}

theorem Ranked.sideOf_eq
    (ranked : Ranked key rank line)
    (isNode : a ∈ line)
    (small : size < 1024) :
    sideOf (sizeKey size) key a =
      if size < rank a then .lt else if rank a < size then .gt else .eq := by
  have smallNode := ranked.small a isNode
  rw [sideOf, ranked.isKey a isNode, cmp_sizeKey (by omega) (by omega)]

/-- Nodes in the order of their sizes are a search tree. -/
theorem Ranked.searchTree (ranked : Ranked key rank (inorder tree)) : SearchTree key tree := by
  refine List.Pairwise.imp_of_mem (fun {a b} isFirst isSecond before => ?_) ranked.ascending
  have smallSecond := ranked.small b isSecond
  rw [ranked.isKey a isFirst, ranked.isKey b isSecond, cmp_sizeKey (by omega) (by omega),
    if_pos before]

theorem Ranked.absent
    (ranked : Ranked key rank line)
    (small : size < 1024)
    (differs : ∀ a ∈ line, rank a ≠ size) :
    ∀ a ∈ line, key a ≠ sizeKey size := by
  intro a isNode same
  have isEqual : sideOf (sizeKey size) key a = .eq := cmp_eq_eq_iff.mpr same.symm
  rw [ranked.sideOf_eq isNode small] at isEqual
  have notSame := differs a isNode
  split_ifs at isEqual
  omega

end

section

/-- A set in some run. -/
def Reached (cs : CacheSet) : Prop := ∃ calls, Run (fun _ _ => True) calls cs

variable {cs cs' : CacheSet} {rank : Nat → Nat} {tree : BinaryTree Nat}

/-- A call leads from a reached state to another. -/
theorem Reached.call
    (reached : Reached cs)
    {call : Call}
    (isCall : cs.call call = some cs') :
    Reached cs' := by
  obtain ⟨calls, run⟩ := reached
  exact ⟨calls ++ [call], run.step trivial isCall⟩

/-- A set of a run with a tree of ranked keys. -/
structure Ladder (cs : CacheSet) (rank : Nat → Nat) (tree : BinaryTree Nat) : Prop where
  reached : Reached cs
  represents : Represents cs tree
  ranked : Ranked cs.key rank (inorder tree)

/-- A lookup of a missing key that stands between two nodes. -/
theorem Ladder.between
    {a b : Nat}
    (ladder : Ladder cs rank tree)
    (isLower : a ∈ inorder tree)
    (isUpper : b ∈ inorder tree)
    (below : rank a < rank b) :
    ∃ side cs', side a = .gt ∧ side b = .lt ∧ Ladder cs' rank (SplayTree.splay side tree) ∧
      cs'.order = cs.order := by
  have ranked := ladder.ranked
  have small := ranked.small b isUpper
  have evenLower := ranked.even a isLower
  have evenUpper := ranked.even b isUpper
  have absent : ∀ p ∈ inorder tree, cs.key p ≠ sizeKey (rank b - 1) := by
    refine ranked.absent (by omega) fun p isNode same => ?_
    have isEven := ranked.even p isNode
    omega
  obtain ⟨links, root, splayed, isSplay⟩ :=
    splay_search ladder.represents ranked.searchTree (sizeKey (rank b - 1))
  rcases isSplay with ⟨p, isNode, isKey, -⟩ | ⟨-, isSplay⟩
  · exact absurd isKey (absent p isNode)
  have isCall : cs.call (.lookup (sizeKey (rank b - 1)) 0) = some { cs with links, root } := by
    simp [CacheSet.call, cachesetLookup, isSplay]
  refine ⟨_, { cs with links, root }, ?_, ?_, ⟨ladder.reached.call isCall, splayed, ?_⟩, rfl⟩
  · rw [ranked.sideOf_eq isLower (by omega), if_neg (by omega), if_pos (by omega)]
  · rw [ranked.sideOf_eq isUpper (by omega), if_pos (by omega)]
  · rw [inorder_splay]
    exact ranked

/-- Searches turn a ladder into a path to the right. -/
theorem Ladder.turnRight
    {a : Nat}
    {down up : List Nat}
    (ladder : Ladder cs rank (.node a (leftPath down) (rightPath up))) :
    ∃ cs', Ladder cs' rank (rightPath (down.reverse ++ a :: up)) ∧ cs'.order = cs.order := by
  induction down generalizing cs a up with
  | nil => exact ⟨cs, ladder, rfl⟩
  | cons b down ih =>
    have ascending := ladder.ranked.ascending
    simp only [inorder, inorder_leftPath, inorder_rightPath] at ascending
    have below : rank b < rank a := (pairwise_append.mp ascending).2.2 b (by simp) a (by simp)
    obtain ⟨side, cs', isGreater, isLess, turned, sameOrder⟩ :=
      ladder.between (by simp [inorder]) (by simp [inorder]) below
    rw [splay_turnRight isLess isGreater] at turned
    obtain ⟨final, isFinal, finalOrder⟩ := ih turned
    exact ⟨final, by simpa using isFinal, finalOrder.trans sameOrder⟩

/-- Or into one to the left. -/
theorem Ladder.turnLeft
    {a : Nat}
    {down up : List Nat}
    (ladder : Ladder cs rank (.node a (leftPath down) (rightPath up))) :
    ∃ cs', Ladder cs' rank (leftPath (up.reverse ++ a :: down)) ∧ cs'.order = cs.order := by
  induction up generalizing cs a down with
  | nil => exact ⟨cs, ladder, rfl⟩
  | cons b up ih =>
    have ascending := ladder.ranked.ascending
    simp only [inorder, inorder_leftPath, inorder_rightPath] at ascending
    have above : rank a < rank b :=
      (pairwise_cons.mp (pairwise_append.mp ascending).2.1).1 b (by simp)
    obtain ⟨side, cs', isGreater, isLess, turned, sameOrder⟩ :=
      ladder.between (by simp [inorder]) (by simp [inorder]) above
    rw [splay_turnLeft isGreater isLess] at turned
    obtain ⟨final, isFinal, finalOrder⟩ := ih turned
    exact ⟨final, by simpa using isFinal, finalOrder.trans sameOrder⟩

end

section

/-- A set after new keys in ascending order. -/
structure Filled (calls : List Call) (cs : CacheSet) (rank : Nat → Nat) (path cells : List Nat) :
    Prop where
  run : Run (fun _ _ => True) calls cs
  valid : Valid calls cs (leftPath path) cells
  ranked : Ranked cs.key rank path.reverse
  bound : ∀ a ∈ path, 0 < rank a ∧ rank a ≤ 2 * path.length
  last : cs.order.last = path.headD (nodes - 1)

variable {calls : List Call} {cs : CacheSet} {rank : Nat → Nat} {path cells : List Nat}

theorem Taken.notMem
    {tree : BinaryTree Nat}
    {hash : Key}
    {links : Links}
    {root : Option Nat}
    {x : Nat}
    (taken : Taken cs hash tree cells links root x)
    (valid : Valid calls cs tree cells)
    (notFull : (inorder tree).length < nodes) :
    x ∉ inorder tree := by
  intro inTree
  obtain ⟨front, back, isCells, isFirst⟩ := taken.isFirst
  have ordered := isCells ▸ valid.unusedFirst
  have subset : cells ⊆ inorder tree := by
    intro y isCell
    rw [isCells] at isCell
    rcases mem_append.mp isCell with isFront | isBack
    · by_contra notIn
      exact isFirst y isFront (.inl (by rwa [inorder_splay]))
    · rcases mem_cons.mp isBack with rfl | isLater
      · exact inTree
      · exact (pairwise_cons.mp (pairwise_append.mp ordered).2.1).1 y isLater inTree
  have length : cells.length = nodes := by simpa using valid.chained.all.length_eq
  have := (List.Nodup.subperm valid.chained.nodup subset).length_le
  omega

theorem Ranked.update
    {key : Nat → Key}
    {line line' : List Nat}
    {x size : Nat}
    (ranked : Ranked key rank line)
    (isOld : ∀ a ∈ line', a ≠ x → a ∈ line)
    (isEven : size % 2 = 0)
    (small : size < 1024)
    (ascending : line'.Pairwise fun a b => update rank x size a < update rank x size b) :
    Ranked (update key x (sizeKey size)) (update rank x size) line' := by
  refine ⟨fun a isNode => ?_, fun a isNode => ?_, fun a isNode => ?_, ascending⟩
  all_goals by_cases isSame : a = x
  · simp [isSame]
  · simpa [isSame] using ranked.isKey a (isOld a isNode isSame)
  · simp [isSame, isEven]
  · simpa [isSame] using ranked.even a (isOld a isNode isSame)
  · simp [isSame, small]
  · simpa [isSame] using ranked.small a (isOld a isNode isSame)

theorem ascending_update
    {line : List Nat}
    {x size : Nat}
    (ascending : line.Pairwise fun a b => rank a < rank b)
    (isNew : x ∉ line) :
    line.Pairwise fun a b => update rank x size a < update rank x size b := by
  have old : ∀ a ∈ line, a ≠ x := fun a isNode same => isNew (same ▸ isNode)
  refine ascending.imp_of_mem fun {a b} isFirst isSecond before => ?_
  simpa [old a isFirst, old b isSecond] using before

/-- A smaller size extends the path. -/
theorem Filled.add
    (filled : Filled calls cs rank path cells)
    (notFull : path.length < nodes) :
    ∃ calls cs rank x cells, Filled calls cs rank (x :: path) cells := by
  have isFew : path.length < 256 := notFull
  have small : 2 * path.length + 2 < 1024 := by omega
  have isGreater : ∀ a ∈ path, sideOf (sizeKey (2 * path.length + 2)) cs.key a = .gt := by
    intro a isNode
    have isBound := filled.bound a isNode
    rw [filled.ranked.sideOf_eq (by simpa using isNode) small, if_neg (by omega), if_pos (by omega)]
  have absent : ∀ a ∈ inorder (leftPath path), cs.key a ≠ sizeKey (2 * path.length + 2) := by
    rw [inorder_leftPath]
    refine filled.ranked.absent small fun a isNode same => ?_
    have isBound := filled.bound a (by simpa using isNode)
    omega
  obtain ⟨links, root, x, taken⟩ := filled.valid.exists_taken absent
  have isNew : x ∉ path := by simpa using taken.notMem filled.valid (by simpa using notFull)
  have notLast : x ≠ cs.order.last := by
    cases path with
    | nil =>
      refine taken.ne_last filled.valid.chained (y := 0) (by decide)
        (.inl (by simp [inorder_splay])) ?_
      rw [filled.last]
      decide
    | cons a path =>
      rw [filled.last]
      exact fun same => isNew (by simp [same])
  have replaced := filled.valid.replace absent taken notLast 0
  rw [splay_leftPath isGreater, eraseLeaf_of_notMem (by simpa using isNew),
    insertRoot_leftPath isGreater] at replaced
  have isCall : cs.call (.add (sizeKey (2 * path.length + 2)) 0) = _ := taken.add 0
  refine ⟨_, _, update rank x (2 * path.length + 2), x, _,
    filled.run.step trivial isCall, replaced, ?_, ?_, rfl⟩
  · rw [reverse_cons]
    refine filled.ranked.update (fun a isNode notNew => by simpa [notNew] using isNode) (by omega)
      small (pairwise_append.mpr ⟨ascending_update filled.ranked.ascending
        (by simpa using isNew), pairwise_singleton _ _, fun a isNode b isLast => ?_⟩)
    have isOld : a ∈ path := by simpa using isNode
    have isBound := filled.bound a isOld
    have notNew : a ≠ x := fun same => isNew (same ▸ isOld)
    rw [mem_singleton.mp isLast, update_self, update_of_ne notNew]
    omega
  · intro a mem
    by_cases isLatest : a = x
    · subst isLatest
      simp
      omega
    · have isBound := filled.bound a (by simpa [isLatest] using mem)
      simp only [update_of_ne isLatest, length_cons]
      omega

/-- A set can be filled to a path of any length. -/
theorem exists_filled : ∀ count ≤ nodes, ∃ calls cs rank path cells,
      Filled calls cs rank path cells ∧ path.length = count := by
  intro count
  induction count with
  | zero =>
    intro _
    refine ⟨[], cachesetInit, fun _ => 0, [], range nodes, ⟨.init, valid_init, ?_, ?_, rfl⟩, rfl⟩
    · exact ⟨by simp, by simp, by simp, by simp⟩
    · simp
  | succ count ih =>
    intro isBound
    obtain ⟨calls, cs, rank, path, cells, filled, isLength⟩ := ih (by omega)
    obtain ⟨calls', cs', rank', x, cells', filled'⟩ := filled.add (by omega)
    exact ⟨calls', cs', rank', x :: path, cells', filled', by simp [isLength]⟩

end

variable {cs : CacheSet} {rank : Nat → Nat} {line cells : List Nat} {x : Nat}

/-- All nodes are in one path to the right, which ends with the last node of the chain. -/
structure Ready (cs : CacheSet) (rank : Nat → Nat) (line cells : List Nat) (x : Nat) : Prop where
  ladder : Ladder cs rank (rightPath (line ++ [x]))
  chained : Chained cs.order cells
  isLast : cs.order.last = x
  positive : ∀ a ∈ line ++ [x], 0 < rank a
  full : (line ++ [x]).length = nodes

/-- A full set can be brought to a path whose end is evicted next. -/
theorem exists_ready : ∃ cs rank line cells x, Ready cs rank line cells x := by
  obtain ⟨calls, cs, rank, path, cells, filled, isLength⟩ := exists_filled nodes (Nat.le_refl _)
  cases path with
  | nil => exact nomatch isLength
  | cons x path =>
    have ladder : Ladder cs rank (.node x (leftPath path) (rightPath [])) :=
      ⟨⟨calls, filled.run⟩, filled.valid.represents, by
        simpa [inorder] using filled.ranked⟩
    obtain ⟨cs', turned, sameOrder⟩ := ladder.turnRight
    refine ⟨cs', rank, path.reverse, cells, x, turned, ?_, ?_, fun a isNode => ?_, ?_⟩
    · rw [sameOrder]
      exact filled.valid.chained
    · rw [sameOrder, filled.last]
      rfl
    · exact (filled.bound a (by simpa [or_comm] using isNode)).1
    · simpa using isLength

theorem Represents.mem_of_full
    {tree : BinaryTree Nat}
    (represents : Represents cs tree)
    (full : (inorder tree).length = nodes)
    {y : Nat}
    (isNode : y < nodes) :
    y ∈ inorder tree := by
  have subset : inorder tree ⊆ range nodes := fun a inTree =>
    mem_range.mpr (represents.bound a inTree)
  have subperm := List.Nodup.subperm represents.nodup subset
  have perm := subperm.perm_of_length_le (by simp [full])
  exact perm.mem_iff.mpr (mem_range.mpr isNode)

/-- The next size makes this node the root. -/
theorem Ready.add
    (ready : Ready cs rank line cells x) :
    ∃ cs', Ladder cs' (update rank x 0) (rightPath (x :: line)) ∧
      cs'.order = cs.order.requeue x := by
  obtain ⟨⟨reached, represents, ranked⟩, chained, isLast, positive, full⟩ := ready
  have nodup := represents.nodup
  have sorted := ranked.searchTree
  rw [inorder_rightPath] at nodup ranked
  have isNew : x ∉ line := fun mem => (nodup_append.mp nodup).2.2 x mem x (by simp) rfl
  have isLess : ∀ a ∈ line ++ [x], sideOf (sizeKey 0) cs.key a = .lt := fun a isNode => by
    rw [ranked.sideOf_eq isNode (by decide), if_pos (positive a isNode)]
  have absent : ∀ a ∈ inorder (rightPath (line ++ [x])), cs.key a ≠ sizeKey 0 := by
    rw [inorder_rightPath]
    exact ranked.absent (by decide) fun a isNode => Nat.ne_of_gt (positive a isNode)
  obtain ⟨links, root, splayed, isSplay⟩ := splay_search represents sorted (sizeKey 0)
  have isSplay := (isSplay.resolve_left fun ⟨p, isNode, isKey, _⟩ => absent p isNode isKey).2
  rw [splay_rightPath isLess] at splayed
  obtain ⟨y, isNode, isEnd, isFree, -⟩ := exists_firstEnd splayed chained
  have leaf : Leaf y (rightPath (line ++ [x])) := isFree.resolve_left
    (not_not.mpr (represents.mem_of_full (by simpa using full) isNode))
  have isSame : x = y := by simpa using leaf_rightPath leaf
  subst isSame
  have notAlone : rightPath (line ++ [x]) ≠ .node x .nil .nil := by
    intro isAlone
    have isShort := congrArg (fun tree => (inorder tree).length) isAlone
    simp [inorder] at isShort
    simp [isShort, nodes] at full
  have replaced := splayed.replace isNode isFree notAlone (sizeKey 0) 0
  rw [eraseLeaf_rightPath isNew,
    insertRoot_rightPath fun a isOld => isLess a (by simp [isOld])] at replaced
  have isCall : cs.call (.add (sizeKey 0) 0) =
      some ({ cs with links, root }.replace x (sizeKey 0) 0) := by
    simp [CacheSet.call, cachesetAdd, isSplay, isEnd, CacheSet.replace]
  refine ⟨_, ⟨reached.call isCall, replaced, ?_⟩, rfl⟩
  rw [inorder_rightPath]
  refine ranked.update (fun a isOld notNew => by simpa [notNew] using isOld) (by decide)
    (by decide) (pairwise_cons.mpr ⟨fun a isOld => ?_, ?_⟩)
  · have notNew : a ≠ x := fun same => isNew (same ▸ isOld)
    rw [update_self, update_of_ne notNew]
    exact positive a (by simp [isOld])
  · exact ascending_update (pairwise_append.mp ranked.ascending).1 isNew

/-- A run after which a node of the chain is linked to itself. -/
theorem chain_broken_after_missed_lookups :
    ∃ calls cs, Run (fun _ _ => True) calls cs ∧ ¬ ∃ cells, Chained cs.order cells := by
  obtain ⟨cs, rank, line, cells, x, ready⟩ := exists_ready
  obtain ⟨cs', ⟨⟨calls, run⟩, -⟩, isOrder⟩ := ready.add
  refine ⟨calls, cs', run, fun ⟨cells', chained⟩ => ?_⟩
  have isNode : x < nodes := ready.isLast ▸ ready.chained.last_lt
  refine chained.next_ne_self isNode ?_
  rw [isOrder, ← ready.isLast]
  exact requeue_last cs.order

/-- The cut chain then has no end of the tree. -/
theorem firstEnd_of_cut
    (chained : Chained cs.order cells)
    {cs' : CacheSet}
    {path : List Nat}
    (isLast : cs.order.last = x)
    (isOrder : cs'.order = cs.order.requeue x)
    (represents : Represents cs' (leftPath (path ++ [x])))
    (full : (path ++ [x]).length = nodes) :
    firstEnd cs' = .ok () := by
  subst isLast
  obtain ⟨front, rfl, isChain⟩ := chained.requeue_cut
  have length : (front ++ [cs.order.last]).length = nodes := by simpa using chained.all.length_eq
  have notEnd : front.find? cs'.links.isEnd = none := by
    refine find?_eq_none.mpr fun y isFront isEnd => ?_
    have isNode : y < nodes := chained.mem_iff.mp (by simp [isFront])
    have isFree := (represents.isEnd_iff isNode).mp isEnd
    have leaf := isFree.resolve_left
      (not_not.mpr (represents.mem_of_full (by simpa using full) isNode))
    have isSame : cs.order.last = y := by simpa using leaf_leftPath leaf
    exact (nodup_append.mp chained.nodup).2.2 y isFront y (by simp [isSame]) rfl
  rw [← isOrder] at isChain
  rw [firstEnd, LinkedChain.loop_eq_run front () isChain (by simp at length; omega), run_isEnd,
    notEnd]

/-- A run after which a key that was just added is not found. -/
theorem lookup_fails_after_add :
    ∃ calls cs, Run (fun _ _ => True) calls cs ∧ ∃ hash level reclevel cs' cs'',
      level ≤ reclevel ∧ cachesetAdd cs hash level = some cs' ∧
        cachesetLookup cs' hash reclevel = some (cs'', false) := by
  obtain ⟨before, rank, line, cells, x, ready⟩ := exists_ready
  obtain ⟨broken, ladder, isBroken⟩ := ready.add
  have ladder : Ladder broken _ (.node x (leftPath []) (rightPath line)) := ladder
  obtain ⟨cs, ⟨⟨calls, run⟩, represents, ranked⟩, sameOrder⟩ := ladder.turnLeft
  have sorted := ranked.searchTree
  have differs : ∀ a ∈ inorder (leftPath (line.reverse ++ [x])), update rank x 0 a ≠ 1023 := by
    intro a isNode same
    have isEven := ranked.even a isNode
    omega
  have absent := ranked.absent (by decide) differs
  have isGreater : ∀ a ∈ line.reverse ++ [x], sideOf (sizeKey 1023) cs.key a = .gt := by
    intro a isNode
    have inTree : a ∈ inorder (leftPath (line.reverse ++ [x])) := by
      rwa [inorder_leftPath, mem_reverse]
    have small := ranked.small a inTree
    have notSame := differs a inTree
    rw [ranked.sideOf_eq inTree (by decide), if_neg (by omega), if_pos (by omega)]
  obtain ⟨links, root, splayed, isSplay⟩ := splay_search represents sorted (sizeKey 1023)
  have isSplay := (isSplay.resolve_left fun found =>
    found.elim fun p isFound => absent p isFound.1 isFound.2.1).2
  rw [splay_leftPath isGreater] at splayed
  have noEnd : firstEnd { cs with links, root } = .ok () :=
    firstEnd_of_cut ready.chained ready.isLast (sameOrder.trans isBroken) splayed
      (by simpa using ready.full)
  have isAdd : cachesetAdd cs (sizeKey 1023) 0 = some { cs with links, root } := by
    simp [cachesetAdd, isSplay, noEnd]
  obtain ⟨links', root', -, isAgain⟩ := splay_search splayed sorted (sizeKey 1023)
  have isAgain := (isAgain.resolve_left fun found =>
    found.elim fun p isFound => absent p isFound.1 isFound.2.1).2
  refine ⟨calls, cs, run, sizeKey 1023, 0, 0, { cs with links, root },
    { cs with links := links', root := root' }, UInt32.le_refl 0, isAdd, ?_⟩
  simp only [cachesetLookup, isAgain]

end LibClamav.Cache
