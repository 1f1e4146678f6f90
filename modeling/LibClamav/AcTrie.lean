import LibClamav.AcSource

namespace LibClamav.Ac

open LinkedChain List Function

/-!
# The trie of the loaded patterns

`cli_ac_addpatt` keeps a trie: every node stands for a word, and a transition
appends its byte.  Only the last node of a pattern can be without a table.
-/

namespace AcRoot

theorem node_setNode_self
    (root : AcRoot)
    (n : Nat)
    (write : AcNode → AcNode) :
    (root.setNode n write).node n = write (root.node n) :=
  update_self n _ _

theorem node_setNode_of_ne
    (root : AcRoot)
    {m n : Nat}
    (write : AcNode → AcNode)
    (different : m ≠ n) :
    (root.setNode n write).node m = root.node m :=
  update_of_ne different _ _

/-- A field that a write keeps is the same at all nodes. -/
theorem setNode_keeps
    {α : Type}
    (root : AcRoot)
    {n : Nat}
    {write : AcNode → AcNode}
    (field : AcNode → α)
    (keeps : ∀ node, field (write node) = field node)
    (m : Nat) :
    field ((root.setNode n write).node m) = field (root.node m) := by
  by_cases same : m = n
  · rw [same, node_setNode_self, keeps]
  · rw [node_setNode_of_ne _ _ same]

theorem exists_table
    {root : AcRoot}
    {n : Nat}
    (table : root.isLeaf n = false) :
    ∃ entries, (root.node n).trans = some entries :=
  Option.isSome_iff_exists.mp (Option.isNone_eq_false_iff.mp table)

end AcRoot

/-- A transition that is written. -/
theorem setTrans_trans
    (root : AcRoot)
    {n : Nat}
    (c : UInt8)
    (t : Nat)
    (table : root.isLeaf n = false)
    (k : Nat)
    (d : UInt8) :
    (root.setTrans n c t).trans k d = if k = n ∧ d = c then some t else root.trans k d := by
  unfold AcRoot.trans AcRoot.setTrans
  by_cases isN : k = n
  · subst isN
    obtain ⟨entries, isTable⟩ := AcRoot.exists_table table
    rw [root.node_setNode_self, isTable]
    simp only [Option.map_some, Option.bind_some, true_and]
    split_ifs with isC
    · rw [isC, update_self]
    · rw [update_of_ne isC]
  · rw [root.node_setNode_of_ne _ isN, if_neg fun both => isN both.1]

theorem setTrans_isLeaf
    (root : AcRoot)
    (n : Nat)
    (c : UInt8)
    (t k : Nat) :
    (root.setTrans n c t).isLeaf k = root.isLeaf k :=
  root.setNode_keeps (fun node => node.trans.isNone) (fun _ => Option.isNone_map) k

theorem setTrans_list
    (root : AcRoot)
    (n : Nat)
    (c : UInt8)
    (t : Nat) :
    ∀ k, ((root.setTrans n c t).node k).list = (root.node k).list :=
  root.setNode_keeps AcNode.list fun _ => rfl

theorem setTrans_fail
    (root : AcRoot)
    (n : Nat)
    (c : UInt8)
    (t : Nat) :
    ∀ k, ((root.setTrans n c t).node k).fail = (root.node k).fail :=
  root.setNode_keeps AcNode.fail fun _ => rfl

theorem setFail_list
    (root : AcRoot)
    (n f : Nat) :
    ∀ k, ((root.setFail n f).node k).list = (root.node k).list :=
  root.setNode_keeps AcNode.list fun _ => rfl

/-- Every node stands for a word; transitions append their byte. -/
structure Words (root : AcRoot) (word : Nat → List UInt8) : Prop where
  start : word 0 = []
  inj : ∀ {m n}, m ≤ root.acNodes → n ≤ root.acNodes → word m = word n → m = n
  child : ∀ {n c m}, root.trans n c = some m →
    n ≤ root.acNodes ∧ m ≤ root.acNodes ∧ word m = word n ++ [c]
  parent : ∀ {m}, m ≤ root.acNodes → m ≠ 0 → ∃ n c, root.trans n c = some m
  table : root.isLeaf 0 = false
  fresh : ∀ n, root.acNodes < n → root.node n = {}
  depth : ∀ {n}, n ≤ root.acNodes → (word n).length ≤ root.acMaxdepth

/-- Nothing but nodes and transitions is different. -/
structure SameLists (root later : AcRoot) : Prop where
  mindepth : later.acMindepth = root.acMindepth
  maxdepth : later.acMaxdepth = root.acMaxdepth
  pattable : later.acPattable = root.acPattable
  next : later.next = root.next
  nextSame : later.nextSame = root.nextSame
  list : ∀ n, (later.node n).list = (root.node n).list
  fail : ∀ n, (later.node n).fail = (root.node n).fail

theorem SameLists.refl (root : AcRoot) : SameLists root root :=
  ⟨rfl, rfl, rfl, rfl, rfl, fun _ => rfl, fun _ => rfl⟩

/-- Two changes that leave the lists alone. -/
theorem SameLists.trans
    {first second third : AcRoot}
    (left : SameLists first second)
    (right : SameLists second third) :
    SameLists first third :=
  ⟨right.mindepth.trans left.mindepth, right.maxdepth.trans left.maxdepth,
    right.pattable.trans left.pattable, right.next.trans left.next,
    right.nextSame.trans left.nextSame,
    fun n => (right.list n).trans (left.list n),
    fun n => (right.fail n).trans (left.fail n)⟩

theorem SameLists.setNode
    (root : AcRoot)
    (n : Nat)
    {write : AcNode → AcNode}
    (sameList : ∀ node, (write node).list = node.list)
    (sameFail : ∀ node, (write node).fail = node.fail) :
    SameLists root (root.setNode n write) := by
  exact ⟨rfl, rfl, rfl, rfl, rfl, root.setNode_keeps _ sameList, root.setNode_keeps _ sameFail⟩

section

variable (root : AcRoot) (pt : Nat) {word : Nat → List UInt8}

theorem allocTrans_trans
    (n : Nat)
    (c : UInt8) :
    (allocTrans root pt).trans n c = root.trans n c := by
  unfold AcRoot.trans allocTrans
  by_cases same : n = pt
  · subst same
    rw [root.node_setNode_self]
    cases (root.node n).trans with
    | none | some table => rfl
  · rw [root.node_setNode_of_ne _ same]

theorem allocTrans_isLeaf_self : (allocTrans root pt).isLeaf pt = false := by
  unfold AcRoot.isLeaf allocTrans
  rw [root.node_setNode_self]
  rfl

theorem allocTrans_isLeaf_of_ne
    {n : Nat}
    (different : n ≠ pt) :
    (allocTrans root pt).isLeaf n = root.isLeaf n := by
  unfold AcRoot.isLeaf allocTrans
  rw [root.node_setNode_of_ne _ different]

theorem allocTrans_sameLists : SameLists root (allocTrans root pt) :=
  SameLists.setNode root pt (fun _ => rfl) (fun _ => rfl)

/-- A new table changes no word. -/
theorem allocTrans_words
    (words : Words root word)
    (valid : pt ≤ root.acNodes) :
    Words (allocTrans root pt) word :=
  { words with
    child := by simp only [allocTrans_trans]; exact words.child
    parent := by simp only [allocTrans_trans]; exact words.parent
    table := by
      by_cases same : 0 = pt
      · subst same
        exact allocTrans_isLeaf_self root 0
      · rw [allocTrans_isLeaf_of_ne root pt same]
        exact words.table
    fresh := fun n outside => by
      have different : n ≠ pt := by
        rintro rfl
        exact absurd valid (not_le.mpr outside)
      exact (root.node_setNode_of_ne _ different).trans (words.fresh n outside) }

end

section

variable {root : AcRoot} {pt : Nat} {c : UInt8} {isLast : Bool}

theorem newNode_node_new
    (different : root.acNodes + 1 ≠ pt) :
    (newNode root pt c isLast).node (root.acNodes + 1) =
      { trans := if isLast then none else some fun _ => none } := by
  unfold newNode AcRoot.setTrans
  rw [AcRoot.node_setNode_of_ne _ _ different]
  exact update_self _ _ _

theorem newNode_node_of_ne
    {n : Nat}
    (old : n ≠ root.acNodes + 1)
    (different : n ≠ pt) :
    (newNode root pt c isLast).node n = root.node n := by
  unfold newNode AcRoot.setTrans
  rw [AcRoot.node_setNode_of_ne _ _ different]
  exact update_of_ne old _ _

theorem newNode_node_pt
    (old : pt ≠ root.acNodes + 1) :
    (newNode root pt c isLast).node pt = { root.node pt with
        trans := (root.node pt).trans.map fun table =>
          update table c (some (root.acNodes + 1)) } := by
  unfold newNode AcRoot.setTrans
  rw [AcRoot.node_setNode_self]
  have unchanged : update root.node (root.acNodes + 1)
        { trans := if isLast then none else some fun _ => none } pt = root.node pt :=
    update_of_ne old _ _
  exact congrArg (fun node : AcNode =>
      { node with
        trans := node.trans.map fun table => update table c (some (root.acNodes + 1)) })
    unchanged

/-- A new node has one transition to it. -/
theorem newNode_trans
    (valid : pt ≤ root.acNodes)
    (hasTable : root.isLeaf pt = false)
    (outside : root.node (root.acNodes + 1) = {})
    (n : Nat)
    (d : UInt8) :
    (newNode root pt c isLast).trans n d =
      if n = pt ∧ d = c then some (root.acNodes + 1) else root.trans n d := by
  have old : pt ≠ root.acNodes + 1 := by omega
  unfold AcRoot.trans
  by_cases isPt : n = pt
  · subst isPt
    obtain ⟨table, isTable⟩ := AcRoot.exists_table hasTable
    rw [newNode_node_pt old, isTable]
    simp only [Option.map_some, Option.bind_some, true_and]
    split_ifs with isC
    · rw [isC, update_self]
    · rw [update_of_ne isC]
  · rw [if_neg fun both => isPt both.1]
    by_cases isNew : n = root.acNodes + 1
    · subst isNew
      rw [newNode_node_new isPt, outside]
      cases isLast with
      | true | false => rfl
    · rw [newNode_node_of_ne isNew isPt]

theorem newNode_isLeaf_of_ne
    (valid : pt ≤ root.acNodes)
    {n : Nat}
    (old : n ≠ root.acNodes + 1) :
    (newNode root pt c isLast).isLeaf n = root.isLeaf n := by
  unfold AcRoot.isLeaf
  by_cases isPt : n = pt
  · subst isPt
    rw [newNode_node_pt old]
    exact Option.isNone_map
  · rw [newNode_node_of_ne old isPt]

theorem newNode_isLeaf_new
    (valid : pt ≤ root.acNodes) :
    (newNode root pt c isLast).isLeaf (root.acNodes + 1) = isLast := by
  unfold AcRoot.isLeaf
  rw [newNode_node_new (by omega)]
  cases isLast with
  | true | false => rfl

/-- It changes no list. -/
theorem newNode_sameLists
    (valid : pt ≤ root.acNodes)
    (outside : root.node (root.acNodes + 1) = {}) :
    SameLists root (newNode root pt c isLast) := by
  have old : pt ≠ root.acNodes + 1 := by omega
  refine ⟨rfl, rfl, rfl, rfl, rfl, fun n => ?_, fun n => ?_⟩
  all_goals
    by_cases isPt : n = pt
    · rw [isPt, newNode_node_pt old]
    by_cases isNew : n = root.acNodes + 1
    · subst isNew
      rw [newNode_node_new isPt, outside]
    · rw [newNode_node_of_ne isNew isPt]

/-- Its word is that of its parent and the byte. -/
theorem newNode_words
    {word : Nat → List UInt8}
    (words : Words root word)
    (valid : pt ≤ root.acNodes)
    (hasTable : root.isLeaf pt = false)
    (missing : root.trans pt c = none)
    (room : (word pt).length < root.acMaxdepth) :
    Words (newNode root pt c isLast) (update word (root.acNodes + 1) (word pt ++ [c])) := by
  have outside := words.fresh (root.acNodes + 1) (Nat.lt_succ_self _)
  have transitions := @newNode_trans root pt c isLast valid hasTable outside
  have oldWord {n : Nat} (isOld : n ≤ root.acNodes) :
      update word (root.acNodes + 1) (word pt ++ [c]) n = word n :=
    update_of_ne (by omega) _ _
  have newWord : update word (root.acNodes + 1) (word pt ++ [c])
        (root.acNodes + 1) = word pt ++ [c] :=
    update_self _ _ _
  -- no old node has the word of the new one
  have unused {n : Nat} (isOld : n ≤ root.acNodes) : word n ≠ word pt ++ [c] := by
    intro same
    have notRoot : n ≠ 0 := by
      rintro rfl
      rw [words.start] at same
      exact append_ne_nil_of_right_ne_nil _ (cons_ne_nil c []) same.symm
    obtain ⟨q, d, leads⟩ := words.parent isOld notRoot
    obtain ⟨qValid, -, qWord⟩ := words.child leads
    obtain ⟨samePt, sameByte⟩ := append_inj' (qWord.symm.trans same) rfl
    have isPt := words.inj qValid valid samePt
    rw [isPt, cons.inj sameByte |>.1, missing] at leads
    cases leads
  have split {n : Nat} (isNode : n ≤ root.acNodes + 1) :
      n ≤ root.acNodes ∨ n = root.acNodes + 1 := by
    omega
  refine
    { start := ?_
      inj := ?_
      child := ?_
      parent := ?_
      table := ?_
      fresh := ?_
      depth := ?_ }
  · rw [oldWord (Nat.zero_le _), words.start]
  · intro m n mNode nNode same
    rcases split mNode with mOld | mNew
    · rcases split nNode with nOld | nNew
      · rw [oldWord mOld, oldWord nOld] at same
        exact words.inj mOld nOld same
      · rw [nNew, oldWord mOld, newWord] at same
        exact absurd same (unused mOld)
    rcases split nNode with nOld | nNew
    · rw [mNew, oldWord nOld, newWord] at same
      exact absurd same.symm (unused nOld)
    · rw [mNew, nNew]
  · intro n d m leads
    rw [transitions] at leads
    split_ifs at leads with isEdge
    · obtain ⟨isPt, isC⟩ := isEdge
      cases leads
      rw [isPt, isC]
      exact ⟨Nat.le_succ_of_le valid, le_rfl, newWord.trans (by rw [oldWord valid])⟩
    · obtain ⟨nOld, mOld, mWord⟩ := words.child leads
      exact ⟨Nat.le_succ_of_le nOld, Nat.le_succ_of_le mOld, by
        rw [oldWord nOld, oldWord mOld, mWord]⟩
  · intro m isNode notRoot
    rcases split isNode with isOld | isNew
    · obtain ⟨n, d, leads⟩ := words.parent isOld notRoot
      refine ⟨n, d, ?_⟩
      rw [transitions, if_neg]
      · exact leads
      · rintro ⟨rfl, rfl⟩
        rw [missing] at leads
        cases leads
    · refine ⟨pt, c, ?_⟩
      rw [transitions, if_pos ⟨rfl, rfl⟩, isNew]
  · rw [newNode_isLeaf_of_ne valid (Nat.succ_ne_zero _).symm]
    exact words.table
  · intro n isOutside
    have isOutside' : root.acNodes + 1 < n := isOutside
    rw [newNode_node_of_ne (by omega) (by omega)]
    exact words.fresh n (by omega)
  · intro n isNode
    rcases split isNode with isOld | isNew
    · rw [oldWord isOld]
      exact words.depth isOld
    · rw [isNew, newWord, length_append, length_singleton]
      exact room

end

/-- What walking down a word does to the trie. -/
structure Walked (root : AcRoot) (word : Nat → List UInt8) (target : List UInt8) (later : AcRoot)
    (laterWord : Nat → List UInt8) (pt : Nat) : Prop where
  words : Words later laterWord
  grows : root.acNodes ≤ later.acNodes
  oldWords : ∀ {n}, n ≤ root.acNodes → laterWord n = word n
  valid : pt ≤ later.acNodes
  reached : laterWord pt = target
  added : ∀ {n}, root.acNodes < n → n ≤ later.acNodes → laterWord n <+: target
  same : SameLists root later
  leaves : ∀ {n}, later.isLeaf n = true → n ≤ later.acNodes →
    n = pt ∨ n ≤ root.acNodes ∧ root.isLeaf n = true

/-- Walking down a key adds the nodes that are missing. -/
theorem addNodes_walked
    (key : List UInt8)
    {root : AcRoot}
    {word : Nat → List UInt8}
    {pt : Nat}
    (words : Words root word)
    (valid : pt ≤ root.acNodes)
    (room : (word pt).length + key.length ≤ root.acMaxdepth) :
    ∃ laterWord, Walked root word (word pt ++ key) (addNodes root pt key).1 laterWord
      (addNodes root pt key).2 := by
  induction key generalizing root word pt with
  | nil =>
    refine ⟨word, words, le_rfl, fun _ => rfl, valid,
      (append_nil _).symm, ?_, SameLists.refl root, ?_⟩
    · intro n isNew isNode
      exact absurd isNew (not_lt.mpr isNode)
    · intro n isLeaf isNode
      exact .inr ⟨isNode, isLeaf⟩
  | cons c rest ih =>
    have allocWords := allocTrans_words root pt words valid
    have hasTable := allocTrans_isLeaf_self root pt
    have allocLists := allocTrans_sameLists root pt
    have allocLeaf {n : Nat} (isLeaf : (allocTrans root pt).isLeaf n = true) :
        root.isLeaf n = true := by
      have different : n ≠ pt := by
        rintro rfl
        rw [hasTable] at isLeaf
        cases isLeaf
      rw [← allocTrans_isLeaf_of_ne root pt different]
      exact isLeaf
    have append : word pt ++ c :: rest = word pt ++ [c] ++ rest := (append_cons _ _ _)
    rw [length_cons] at room
    rw [addNodes]
    cases leads : (allocTrans root pt).trans pt c with
    | some next =>
      obtain ⟨-, nextValid, nextWord⟩ := allocWords.child leads
      obtain ⟨laterWord, walked⟩ := ih allocWords nextValid (by
          rw [nextWord, length_append, length_singleton]
          show _ ≤ root.acMaxdepth
          omega)
      rw [nextWord, ← append] at walked
      refine ⟨laterWord, walked.words, walked.grows, walked.oldWords,
        walked.valid, walked.reached, walked.added,
        allocLists.trans walked.same, ?_⟩
      intro n isLeaf isNode
      rcases walked.leaves isLeaf isNode with isPt | ⟨isOld, wasLeaf⟩
      · exact .inl isPt
      · exact .inr ⟨isOld, allocLeaf wasLeaf⟩
    | none =>
      have outside := allocWords.fresh (root.acNodes + 1) (Nat.lt_succ_self _)
      have newWords := @newNode_words (allocTrans root pt) pt c
        rest.isEmpty word allocWords valid hasTable leads (by
          show _ < root.acMaxdepth
          omega)
      have newWord : update word (root.acNodes + 1) (word pt ++ [c])
            (root.acNodes + 1) = word pt ++ [c] :=
        update_self _ _ _
      obtain ⟨laterWord, walked⟩ := @ih _ _ (root.acNodes + 1) newWords (le_rfl) (by
            rw [show (allocTrans root pt).acNodes = root.acNodes from rfl,
              newWord, length_append, length_singleton]
            show _ ≤ root.acMaxdepth
            omega)
      rw [show (allocTrans root pt).acNodes = root.acNodes from rfl, newWord, ← append] at walked
      have newLists := @newNode_sameLists (allocTrans root pt) pt c rest.isEmpty valid outside
      refine ⟨laterWord, walked.words, le_trans (Nat.le_succ _) walked.grows, ?_, walked.valid,
        walked.reached, ?_,
        allocLists.trans (newLists.trans walked.same), ?_⟩
      · intro n isOld
        rw [walked.oldWords (Nat.le_succ_of_le isOld)]
        exact update_of_ne (by omega) _ _
      · intro n isNew isNode
        rcases lt_or_eq_of_le (Nat.succ_le_of_lt isNew) with
          isLater | isFirst
        · exact walked.added isLater isNode
        · have firstWord := (walked.oldWords (Nat.le_refl (root.acNodes + 1))).trans newWord
          rw [← isFirst, append]
          exact firstWord ▸ prefix_append _ _
      · intro n isLeaf isNode
        rcases walked.leaves isLeaf isNode with isPt | ⟨isOld, wasLeaf⟩
        · exact .inl isPt
        by_cases isNew : n = root.acNodes + 1
        · -- a new leaf is the end of the walk
          left
          subst isNew
          have isLast : (newNode (allocTrans root pt) pt c rest.isEmpty).isLeaf
                (root.acNodes + 1) = rest.isEmpty :=
            newNode_isLeaf_new valid
          rw [isLast, List.isEmpty_iff] at wasLeaf
          subst wasLeaf
          rfl
        · right
          have sameLeaf :=
            @newNode_isLeaf_of_ne (allocTrans root pt) pt c rest.isEmpty valid n isNew
          rw [sameLeaf] at wasLeaf
          have bound : n ≤ root.acNodes + 1 := isOld
          exact ⟨by omega, allocLeaf wasLeaf⟩

end LibClamav.Ac
