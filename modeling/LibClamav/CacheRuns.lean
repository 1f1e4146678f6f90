import LibClamav.CacheAdd
import LibClamav.CacheChain

namespace LibClamav.Cache

open SplayTree List

/-!
# Runs of a cache set

What holds after any sequence of `cacheset_lookup` and `cacheset_add`, as long
as no new key needs the node at the end of the chain.
-/

section

/-- Read a tree from the links, down to a depth. -/
def treeOf (links : Links) : Nat → Option Nat → BinaryTree Nat
  | 0, _ => .nil
  | _ + 1, none => .nil
  | depth + 1, some a =>
    .node a (treeOf links depth (links.left a)) (treeOf links depth (links.right a))

/-- The tree of a set. -/
def CacheSet.tree (cs : CacheSet) : BinaryTree Nat := treeOf cs.links nodes cs.root

variable {links : Links} {tree : BinaryTree Nat} {up link : Option Nat} {cs : CacheSet}

theorem Rep.treeOf_eq
    (rep : Rep links up link tree)
    {depth : Nat}
    (enough : (inorder tree).length ≤ depth) :
    treeOf links depth link = tree := by
  induction tree generalizing up link depth with
  | nil =>
    cases rep
    cases depth <;> rfl
  | node a l r ihLeft ihRight =>
    obtain ⟨rfl, -, left, right⟩ := rep
    simp only [inorder, length_append, length_cons] at enough
    cases depth with
    | zero => omega
    | succ depth => rw [treeOf, ihLeft left (by omega), ihRight right (by omega)]

theorem Represents.tree_eq (represents : Represents cs tree) : cs.tree = tree :=
  represents.rep.treeOf_eq represents.length_le

end

/-- The calls for a set. -/
inductive Call where
  | lookup (hash : Key) (reclevel : UInt32)
  | add (hash : Key) (reclevel : UInt32)

/-- The set after a call; `none` if the call does not return. -/
def CacheSet.call (cs : CacheSet) : Call → Option CacheSet
  | .lookup hash reclevel => (cachesetLookup cs hash reclevel).map Prod.fst
  | .add hash reclevel => cachesetAdd cs hash reclevel

/-- A run from `cacheset_init` whose calls are all allowed in the state where they are made. -/
inductive Run (allowed : CacheSet → Call → Prop) : List Call → CacheSet → Prop where
  | init : Run allowed [] cachesetInit
  | step {calls : List Call} {cs cs' : CacheSet} {call : Call} :
      Run allowed calls cs → allowed cs call → cs.call call = some cs' →
      Run allowed (calls ++ [call]) cs'

/-- The set has the key, or some node without children in the splayed tree is not the last one
of the chain. -/
def CacheSet.Spares (cs : CacheSet) (hash : Key) : Prop :=
  (∃ node ∈ inorder cs.tree, cs.key node = hash) ∨ ∃ node < nodes, node ≠ cs.order.last ∧
      Free (SplayTree.splay (sideOf hash cs.key) cs.tree) node

/-- The calls that the chain survives. -/
def Safe (cs : CacheSet) : Call → Prop
  | .lookup _ _ => True
  | .add hash _ => cs.Spares hash

section

variable {cs : CacheSet} {tree : BinaryTree Nat} {cells : List Nat} {hash : Key}

/-- A search brings its key to the root. -/
theorem splay_search
    (represents : Represents cs tree)
    (sorted : SearchTree cs.key tree)
    (hash : Key) :
    ∃ links root, Represents { cs with links, root } (SplayTree.splay (sideOf hash cs.key) tree) ∧
      ((∃ p ∈ inorder tree, cs.key p = hash ∧ root = some p ∧
          splay hash cs = some ({ cs with links, root }, true)) ∨
        (∀ node ∈ inorder tree, cs.key node ≠ hash) ∧
          splay hash cs = some ({ cs with links, root }, false)) := by
  obtain ⟨links, root, found, isSplay, splayed, isFound⟩ := splay_represents represents hash
  refine ⟨links, root, splayed, ?_⟩
  cases found with
  | true =>
    have atRoot := isFound.mp rfl
    have isInorder := @inorder_splay _ (sideOf hash cs.key) tree
    cases isTree : SplayTree.splay (sideOf hash cs.key) tree with
    | nil =>
      rw [isTree] at atRoot
      exact atRoot.elim
    | node a l r =>
      rw [isTree] at atRoot isInorder splayed
      have isNode : a ∈ inorder tree := by simp [← isInorder, inorder]
      exact .inl ⟨a, isNode, (cmp_eq_eq_iff.mp atRoot).symm, splayed.rep.1, isSplay⟩
  | false =>
    refine .inr ⟨fun node isNode isKey => ?_, isSplay⟩
    cases isFound.mpr (sorted.atRoot_iff.mpr ⟨node, isNode, isKey⟩)

/-- Some node is free or a leaf. -/
theorem exists_firstEnd
    (represents : Represents cs tree)
    (chained : Chained cs.order cells) :
    ∃ x < nodes, firstEnd cs = .error (some x) ∧ Free tree x ∧
      (∃ front back, cells = front ++ x :: back ∧ ∀ y ∈ front, ¬ Free tree y) := by
  have exists_free : ∃ x < nodes, Free tree x := by
    by_cases isEmpty : tree = .nil
    · exact ⟨0, by decide, .inl (by simp [isEmpty, inorder])⟩
    · obtain ⟨x, leaf⟩ := exists_leaf isEmpty
      exact ⟨x, represents.bound x leaf.mem_inorder, .inr leaf⟩
  obtain ⟨free, isNode, isFree⟩ := exists_free
  have isSome : (cells.find? cs.links.isEnd).isSome := find?_isSome.mpr
      ⟨free, chained.mem_iff.mpr isNode, (represents.isEnd_iff isNode).mpr isFree⟩
  obtain ⟨x, isFirst⟩ := Option.isSome_iff_exists.mp isSome
  obtain ⟨isEnd, front, back, isCells, before⟩ := find?_eq_some_iff_append.mp isFirst
  have isCell : ∀ y, y ∈ cells → y < nodes := fun y => chained.mem_iff.mp
  have inCells : x ∈ cells := by simp [isCells]
  refine ⟨x, isCell x inCells, ?_, (represents.isEnd_iff (isCell x inCells)).mp isEnd, front, back,
    isCells, fun y isFront free => ?_⟩
  · rw [chained.firstEnd, isFirst]
  · have isBefore := before y isFront
    rw [(represents.isEnd_iff (isCell y (by simp [isCells, isFront]))).mpr free] at isBefore
    cases isBefore

end

section

/-- What all calls preserve: the tree is a search tree, the chain has all nodes with the unused
ones first, and every key comes from a call that added it with its level. -/
structure Valid (calls : List Call) (cs : CacheSet) (tree : BinaryTree Nat) (cells : List Nat) :
    Prop where
  represents : Represents cs tree
  sorted : SearchTree cs.key tree
  chained : Chained cs.order cells
  unusedFirst : cells.Pairwise fun a b => a ∈ inorder tree → b ∈ inorder tree
  levels : ∀ node ∈ inorder tree, Call.add (cs.key node) (cs.minrec node) ∈ calls

/-- A new set is valid. -/
theorem valid_init : Valid [] cachesetInit .nil (range nodes) where
  represents := ⟨rfl, nodup_nil, by simp [inorder], fun _ _ _ => ⟨rfl, rfl, rfl⟩⟩
  sorted := List.Pairwise.nil
  chained := chained_init
  unusedFirst := List.Pairwise.imp (fun _ isNode => (nomatch isNode)) nodup_range
  levels := fun node isNode => (nomatch isNode)

variable {calls more : List Call} {cs : CacheSet} {tree : BinaryTree Nat} {cells : List Nat}

variable (valid : Valid calls cs tree cells)

include valid

theorem Valid.mono
    (subset : calls ⊆ more) :
    Valid more cs tree cells :=
  { valid with levels := fun node isNode => subset (valid.levels node isNode) }

variable {links : Links} {root : Option Nat}

theorem Valid.splay
    {side : Nat → Ordering}
    (splayed : Represents { cs with links, root } (SplayTree.splay side tree)) :
    Valid calls { cs with links, root } (SplayTree.splay side tree) cells where
  represents := splayed
  sorted := valid.sorted.splay side
  chained := valid.chained
  unusedFirst := by simpa [inorder_splay] using valid.unusedFirst
  levels := by simpa [inorder_splay] using valid.levels

omit valid in
theorem unusedFirst_moved
    {nodes : List Nat}
    {p : Nat}
    (unusedFirst : (cells.erase p).Pairwise fun a b => a ∈ nodes → b ∈ nodes)
    (isNode : p ∈ nodes) :
    (cells.erase p ++ [p]).Pairwise fun a b => a ∈ nodes → b ∈ nodes := by
  refine pairwise_append.mpr ⟨unusedFirst, pairwise_singleton _ _, fun a _ b isLast _ => ?_⟩
  rwa [mem_singleton.mp isLast]

/-- A lookup keeps the set valid and finds what was added. -/
theorem Valid.lookup
    (hash : Key)
    (reclevel : UInt32) :
    ∃ cs' found tree' cells', cachesetLookup cs hash reclevel = some (cs', found) ∧
      Valid calls cs' tree' cells' ∧
      (found = true ↔ ∃ p ∈ inorder tree, cs.key p = hash ∧ cs.minrec p ≤ reclevel) := by
  obtain ⟨links, root, splayed, isSplay⟩ := splay_search valid.represents valid.sorted hash
  have validSplayed := valid.splay splayed
  rcases isSplay with ⟨p, isNode, isKey, rfl, isSplay⟩ | ⟨absent, isSplay⟩
  · have inSplayed : p ∈ inorder (SplayTree.splay (sideOf hash cs.key) tree) := by
      rwa [inorder_splay]
    refine ⟨{ cs with links, root := some p, order := cs.order.promote p }, reclevel ≥ cs.minrec p,
      _, cells.erase p ++ [p], by simp [cachesetLookup, isSplay],
      ⟨{ splayed with }, validSplayed.sorted,
      valid.chained.promote (valid.represents.bound p isNode),
      unusedFirst_moved (validSplayed.unusedFirst.sublist erase_sublist) inSplayed,
      validSplayed.levels⟩, ?_⟩
    rw [decide_eq_true_iff]
    constructor
    · exact fun isLevel => ⟨p, isNode, isKey, isLevel⟩
    · rintro ⟨other, isOther, otherKey, isLevel⟩
      rwa [valid.sorted.eq_of_key_eq isNode isOther (isKey.trans otherKey.symm)]
  · refine ⟨{ cs with links, root }, false, _, cells, by simp [cachesetLookup, isSplay],
      validSplayed, ?_⟩
    simp only [Bool.false_eq_true, false_iff, not_exists, not_and]
    exact fun p isNode isKey => absurd isKey (absent p isNode)

/-- A known key only gets its level. -/
theorem Valid.add_present
    {hash : Key}
    (present : ∃ node ∈ inorder tree, cs.key node = hash)
    (reclevel : UInt32) :
    ∃ cs' tree' cells', cachesetAdd cs hash reclevel = some cs' ∧
      Valid (calls ++ [.add hash reclevel]) cs' tree' cells' ∧
      ∃ p ∈ inorder tree', cs'.key p = hash ∧ cs'.minrec p ≤ reclevel := by
  obtain ⟨links, root, splayed, isSplay⟩ := splay_search valid.represents valid.sorted hash
  obtain ⟨p, isNode, isKey, rfl, isSplay⟩ := isSplay.resolve_right fun ⟨absent, _⟩ =>
      present.elim fun node ⟨inTree, isKey⟩ => absent node inTree isKey
  have validSplayed := valid.splay splayed
  have inSplayed : p ∈ inorder (SplayTree.splay (sideOf hash cs.key) tree) := by rwa [inorder_splay]
  by_cases isLower : cs.minrec p > reclevel
  · refine ⟨{ cs with links, root := some p, minrec := Function.update cs.minrec p reclevel }, _,
      cells, by simp [cachesetAdd, isSplay, isLower],
      ⟨{ splayed with }, validSplayed.sorted, valid.chained,
        validSplayed.unusedFirst, fun node inTree => ?_⟩, p, inSplayed, isKey, ?_⟩
    · by_cases isSame : node = p
      · subst isSame
        simp [isKey]
      · simpa [isSame] using .inl (validSplayed.levels node inTree)
    · simp
  · exact ⟨{ cs with links, root := some p }, _, cells, by simp [cachesetAdd, isSplay, isLower],
      validSplayed.mono (subset_append_left _ _), p, inSplayed, isKey,
      UInt32.not_lt.mp isLower⟩

variable {x : Nat}

theorem Valid.ne_alone
    {front back : List Nat}
    (isCells : cells = front ++ x :: back)
    (isFirst : ∀ y ∈ front, ¬ Free tree y) :
    tree ≠ .node x .nil .nil := by
  rintro rfl
  have unused : ∀ y, y ≠ x → y ∉ inorder (.node x .nil .nil) := fun y notSame => by
    simp [inorder, notSame]
  have distinct := isCells ▸ valid.chained.nodup
  have noFront : front = [] := by
    refine eq_nil_iff_forall_not_mem.mpr fun y isFront => isFirst y isFront ?_
    refine .inl (unused y ?_)
    rintro rfl
    exact (nodup_append.mp distinct).2.2 y isFront y (by simp) rfl
  have length : cells.length = nodes := by simpa using valid.chained.all.length_eq
  have ordered := isCells ▸ valid.unusedFirst
  cases back with
  | nil => simp [isCells, noFront, nodes] at length
  | cons y back =>
    rw [noFront, nil_append] at ordered distinct
    have isUsed := (pairwise_cons.mp ordered).1 y (by simp) (by simp [inorder])
    refine unused y ?_ isUsed
    rintro rfl
    exact (nodup_cons.mp distinct).1 (by simp)

/-- The node that `cacheset_add` takes for a new key. -/
structure Taken
    (cs : CacheSet) (hash : Key) (tree : BinaryTree Nat) (cells : List Nat) (links : Links)
    (root : Option Nat) (x : Nat) : Prop where
  splayed : Represents { cs with links, root } (SplayTree.splay (sideOf hash cs.key) tree)
  isNode : x < nodes
  isFree : Free (SplayTree.splay (sideOf hash cs.key) tree) x
  notAlone : SplayTree.splay (sideOf hash cs.key) tree ≠ .node x .nil .nil
  isFirst : ∃ front back, cells = front ++ x :: back ∧
    ∀ y ∈ front, ¬ Free (SplayTree.splay (sideOf hash cs.key) tree) y
  add : ∀ reclevel, cachesetAdd cs hash reclevel =
    some ({ cs with links, root }.replace x hash reclevel)

/-- For a new key a node is taken. -/
theorem Valid.exists_taken
    {hash : Key}
    (absent : ∀ node ∈ inorder tree, cs.key node ≠ hash) :
    ∃ links root x, Taken cs hash tree cells links root x := by
  obtain ⟨links, root, splayed, isSplay⟩ := splay_search valid.represents valid.sorted hash
  have isSplay := (isSplay.resolve_left fun ⟨p, isNode, isKey, _⟩ => absent p isNode isKey).2
  obtain ⟨x, isNode, isEnd, isFree, front, back, isCells, isFirst⟩ :=
    exists_firstEnd splayed valid.chained
  refine ⟨links, root, x, splayed, isNode, isFree,
    (valid.splay splayed).ne_alone isCells isFirst, ⟨front, back, isCells, isFirst⟩, ?_⟩
  intro reclevel
  simp [cachesetAdd, isSplay, isEnd, CacheSet.replace]

/-- The node then holds the new key. -/
theorem Valid.replace
    {hash : Key}
    (absent : ∀ node ∈ inorder tree, cs.key node ≠ hash)
    (taken : Taken cs hash tree cells links root x)
    (notLast : x ≠ cs.order.last)
    (reclevel : UInt32) :
    Valid (calls ++ [.add hash reclevel]) ({ cs with links, root }.replace x hash reclevel)
      (insertRoot (sideOf hash cs.key) x (eraseLeaf x (SplayTree.splay (sideOf hash cs.key) tree)))
      (cells.erase x ++ [x]) := by
  obtain ⟨splayed, isNode, free, notAlone, -, -⟩ := taken
  have splayNodup := splayed.nodup
  have isMember : ∀ y, y ∈ inorder (insertRoot (sideOf hash cs.key) x
      (eraseLeaf x (SplayTree.splay (sideOf hash cs.key) tree))) ↔ y = x ∨ y ∈ inorder tree := by
    intro y
    rw [mem_inorder_replace free splayNodup, inorder_splay]
  have chained : Chained (cs.order.requeue x) (cells.erase x ++ [x]) := by
    rw [valid.chained.requeue_eq isNode notLast]
    exact valid.chained.promote isNode
  refine ⟨splayed.replace isNode free notAlone hash reclevel, ?_, chained, ?_, ?_⟩
  · exact valid.sorted.replace valid.represents.nodup absent free notAlone
  · refine unusedFirst_moved ?_ ((isMember x).mpr (.inl rfl))
    refine (valid.unusedFirst.sublist erase_sublist).imp_of_mem fun {a b} isFirst _ used => ?_
    rw [isMember, isMember]
    have notNew : a ≠ x := ((List.Nodup.mem_erase_iff valid.chained.nodup).mp isFirst).1
    exact fun isNode => .inr (used (isNode.resolve_left notNew))
  intro node inTree
  by_cases isNew : node = x
  · subst isNew
    simp
  · have wasNode := ((isMember node).mp inTree).resolve_left isNew
    simpa [isNew] using .inl (valid.levels node wasNode)

omit valid in
theorem Taken.ne_last
    {hash : Key}
    {y : Nat}
    (taken : Taken cs hash tree cells links root x)
    (chained : Chained cs.order cells)
    (isNode : y < nodes)
    (isFree : Free (SplayTree.splay (sideOf hash cs.key) tree) y)
    (notLast : y ≠ cs.order.last) :
    x ≠ cs.order.last := by
  obtain ⟨front, back, rfl, isFirst⟩ := taken.isFirst
  have inCells := chained.mem_iff.mpr isNode
  have notFront : y ∉ front := fun isFront => isFirst y isFront isFree
  have isLast := chained.linked.last_eq
  intro same
  cases back with
  | nil => exact notLast (by simpa [notFront, same] using inCells)
  | cons z back =>
    have inBack : x ∈ z :: back := same ▸ mem_of_getLast? (by simpa using isLast)
    exact (nodup_cons.mp (nodup_append.mp chained.nodup).2.1).1 inBack

/-- An addition that spares the last node keeps the set valid. -/
theorem Valid.add
    {hash : Key}
    (spares : cs.Spares hash)
    (reclevel : UInt32) :
    ∃ cs' tree' cells', cachesetAdd cs hash reclevel = some cs' ∧
      Valid (calls ++ [.add hash reclevel]) cs' tree' cells' ∧
      ∃ p ∈ inorder tree', cs'.key p = hash ∧ cs'.minrec p ≤ reclevel := by
  rw [CacheSet.Spares, valid.represents.tree_eq] at spares
  by_cases present : ∃ node ∈ inorder tree, cs.key node = hash
  · exact valid.add_present present reclevel
  obtain ⟨y, isNode, notLast, isFree⟩ := spares.resolve_left present
  have absent : ∀ node ∈ inorder tree, cs.key node ≠ hash := fun node inTree isKey =>
    present ⟨node, inTree, isKey⟩
  obtain ⟨links, root, x, taken⟩ := valid.exists_taken absent
  have xNotLast := taken.ne_last valid.chained isNode isFree notLast
  refine ⟨_, _, _, taken.add reclevel, valid.replace absent taken xNotLast reclevel, x, ?_, ?_, ?_⟩
  · exact (mem_inorder_replace taken.isFree taken.splayed.nodup).mpr (.inl rfl)
  · simp
  · simp

end

variable {calls : List Call} {cs : CacheSet}

/-- So does every safe call. -/
theorem Valid.call
    {tree : BinaryTree Nat}
    {cells : List Nat}
    (valid : Valid calls cs tree cells)
    {call : Call}
    (safe : Safe cs call) :
    ∃ cs' tree' cells', cs.call call = some cs' ∧ Valid (calls ++ [call]) cs' tree' cells' := by
  cases call with
  | lookup hash reclevel =>
    obtain ⟨cs', found, tree', cells', isLookup, validAfter, -⟩ := valid.lookup hash reclevel
    exact ⟨cs', tree', cells', by simp [CacheSet.call, isLookup],
      validAfter.mono (subset_append_left _ _)⟩
  | add hash reclevel =>
    obtain ⟨cs', tree', cells', isAdd, validAfter, -⟩ := valid.add safe reclevel
    exact ⟨cs', tree', cells', isAdd, validAfter⟩

/-- So do all safe runs. -/
theorem Run.valid (run : Run Safe calls cs) : ∃ tree cells, Valid calls cs tree cells := by
  induction run with
  | init => exact ⟨.nil, _, valid_init⟩
  | @step calls cs cs' call _ safe isCall ih =>
    obtain ⟨tree, cells, valid⟩ := ih
    obtain ⟨after, tree', cells', isAfter, validAfter⟩ := valid.call safe
    cases isCall.symm.trans isAfter
    exact ⟨tree', cells', validAfter⟩

theorem Run.exists_step
    (run : Run Safe calls cs)
    {call : Call}
    (safe : Safe cs call) :
    ∃ cs', Run Safe (calls ++ [call]) cs' := by
  obtain ⟨tree, cells, valid⟩ := run.valid
  obtain ⟨cs', tree', cells', isCall, -⟩ := valid.call safe
  exact ⟨cs', run.step safe isCall⟩

theorem spares_init (hash : Key) : cachesetInit.Spares hash := by
  rw [CacheSet.Spares, valid_init.represents.tree_eq]
  exact .inr ⟨0, by decide, by decide, .inl (by simp [inorder_splay, inorder])⟩

/-- The key of a file with three bytes. -/
def threeBytes : Key := { digest0 := 1, digest1 := 2, size := 3 }

theorem Valid.spares_of_chained
    {tree : BinaryTree Nat}
    {cells cells' : List Nat}
    (valid : Valid calls cs tree cells)
    {hash : Key}
    {reclevel : UInt32}
    {cs' : CacheSet}
    (isAdd : cachesetAdd cs hash reclevel = some cs')
    (chained : Chained cs'.order cells') :
    cs.Spares hash := by
  rw [CacheSet.Spares, valid.represents.tree_eq]
  by_cases present : ∃ node ∈ inorder tree, cs.key node = hash
  · exact .inl present
  obtain ⟨links, root, x, taken⟩ := valid.exists_taken fun node inTree isKey =>
    present ⟨node, inTree, isKey⟩
  refine .inr ⟨x, taken.isNode, ?_, taken.isFree⟩
  rintro rfl
  cases isAdd.symm.trans (taken.add reclevel)
  exact chained.next_ne_self taken.isNode (requeue_last cs.order)

/-- The chain has every node once, with links in both directions that are inverse to each other;
a splay for a new key is always followed by a node without children. -/
theorem chain_complete_of_safe_run
    (run : Run Safe calls cs) :
    (∃ cells, Chained cs.order cells) ∧ (∀ a b, a < nodes → b < nodes →
        (cs.order.next a = some b ↔ cs.order.prev b = some a)) ∧
      (∀ hash, ∃ cs', Cache.splay hash cs = some (cs', true) ∨
        Cache.splay hash cs = some (cs', false) ∧ ∃ node, firstEnd cs' = .error (some node)) ∧
      ∀ hash reclevel cs', cachesetAdd cs hash reclevel = some cs' →
        ((∃ cells, Chained cs'.order cells) ↔ cs.Spares hash) := by
  obtain ⟨tree, cells, valid⟩ := run.valid
  refine ⟨⟨cells, valid.chained⟩, fun a b isFirst isSecond => ?_, fun hash => ?_,
    fun hash reclevel cs' isAdd => ⟨?_, fun spares => ?_⟩⟩
  · exact valid.chained.linked.next_iff_prev (valid.chained.mem_iff.mpr isFirst)
      (valid.chained.mem_iff.mpr isSecond)
  · obtain ⟨links, root, splayed, isSplay⟩ := splay_search valid.represents valid.sorted hash
    obtain ⟨x, -, isEnd, -⟩ := exists_firstEnd splayed valid.chained
    rcases isSplay with ⟨-, -, -, -, isSplay⟩ | ⟨-, isSplay⟩
    · exact ⟨_, .inl isSplay⟩
    · exact ⟨_, .inr ⟨isSplay, x, isEnd⟩⟩
  · exact fun ⟨cells', chained⟩ => valid.spares_of_chained isAdd chained
  · obtain ⟨after, tree', cells', isAfter, validAfter, -⟩ := valid.add spares reclevel
    cases isAdd.symm.trans isAfter
    exact ⟨cells', validAfter.chained⟩

theorem chain_complete_threeBytes :
    ∃ cs, Run Safe [.add threeBytes 1] cs ∧ ∃ cells, Chained cs.order cells := by
  have safe : Safe cachesetInit (.add threeBytes 1) := spares_init threeBytes
  obtain ⟨cs, run⟩ := Run.init.exists_step safe
  exact ⟨cs, run, (chain_complete_of_safe_run run).1⟩

/-- A lookup succeeds only for what was added, and it does so right after the call; the tree is a
search tree, and a splay keeps its keys and finds exactly them. -/
theorem lookup_sound_of_safe_run
    (run : Run Safe calls cs) :
    (∀ hash reclevel cs', cachesetLookup cs hash reclevel = some (cs', true) →
        ∃ level, Call.add hash level ∈ calls ∧ level ≤ reclevel) ∧
      (∀ hash level reclevel, cs.Spares hash → level ≤ reclevel →
        ∃ cs' cs'', cachesetAdd cs hash level = some cs' ∧
          cachesetLookup cs' hash reclevel = some (cs'', true)) ∧
      Represents cs cs.tree ∧ SearchTree cs.key cs.tree ∧
      ∀ hash, ∃ links root found, Cache.splay hash cs = some ({ cs with links, root }, found) ∧
        Represents { cs with links, root } (SplayTree.splay (sideOf hash cs.key) cs.tree) ∧
        inorder (SplayTree.splay (sideOf hash cs.key) cs.tree) = inorder cs.tree ∧
        (found = true ↔ ∃ node ∈ inorder cs.tree, cs.key node = hash) := by
  obtain ⟨tree, cells, valid⟩ := run.valid
  rw [valid.represents.tree_eq]
  refine ⟨fun hash reclevel cs' isLookup => ?_, fun hash level reclevel spares isLevel => ?_,
    valid.represents, valid.sorted, fun hash => ?_⟩
  · obtain ⟨after, found, -, -, isAfter, -, isFound⟩ := valid.lookup hash reclevel
    cases isLookup.symm.trans isAfter
    obtain ⟨p, isNode, rfl, isLevel⟩ := isFound.mp rfl
    exact ⟨cs.minrec p, valid.levels p isNode, isLevel⟩
  · obtain ⟨cs', tree', cells', isAdd, validAfter, p, isNode, isKey, isMin⟩ :=
      valid.add spares level
    obtain ⟨cs'', found, -, -, isLookup, -, isFound⟩ := validAfter.lookup hash reclevel
    have isTrue := isFound.mpr ⟨p, isNode, isKey, UInt32.le_trans isMin isLevel⟩
    exact ⟨cs', cs'', isAdd, isTrue ▸ isLookup⟩
  · obtain ⟨links, root, found, isSplay, splayed, isFound⟩ := splay_represents valid.represents hash
    exact ⟨links, root, found, isSplay, splayed, inorder_splay tree,
      isFound.trans valid.sorted.atRoot_iff⟩

/-- The key of a file with four bytes. -/
def fourBytes : Key := { threeBytes with size := 4 }

/-- The calls of a run: a lookup of the second key fails before that key is added. -/
def twoKeys : List Call :=
  [.add threeBytes 1, .lookup fourBytes 2, .add fourBytes 2, .lookup threeBytes 1]

theorem lookup_sound_twoKeys :
    ∃ cs, Run Safe twoKeys cs ∧
      (∀ hash reclevel cs', cachesetLookup cs hash reclevel = some (cs', true) →
        ∃ level, Call.add hash level ∈ twoKeys ∧ level ≤ reclevel) ∧
      SearchTree cs.key cs.tree := by
  have safe : Safe cachesetInit (.add threeBytes 1) := spares_init threeBytes
  have evaluates : (((cachesetInit.call (.add threeBytes 1)).bind
      (·.call (.lookup fourBytes 2))).map fun cs => (inorder cs.tree, cs.order.last)) =
        some ([0], 0) := by
    decide +kernel
  obtain ⟨missed, isMissed, isState⟩ := Option.map_eq_some_iff.mp evaluates
  obtain ⟨added, isAdded, isLookup⟩ := Option.bind_eq_some_iff.mp isMissed
  have looks : Safe added (.lookup fourBytes 2) := trivial
  have run := (Run.init.step safe isAdded).step looks isLookup
  have safe : Safe missed (.add fourBytes 2) := by
    refine .inr ⟨1, by decide, ?_, .inl ?_⟩
    · rw [show missed.order.last = 0 from congrArg Prod.snd isState]
      decide
    · rw [inorder_splay, show inorder missed.tree = [0] from congrArg Prod.fst isState]
      decide
  obtain ⟨both, run⟩ := run.exists_step safe
  obtain ⟨cs, run⟩ := @Run.exists_step _ _ run (.lookup threeBytes 1) trivial
  have sound := lookup_sound_of_safe_run run
  exact ⟨cs, run, sound.1, sound.2.2.2.1⟩

end LibClamav.Cache
