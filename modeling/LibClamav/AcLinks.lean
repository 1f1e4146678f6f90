import LibClamav.AcFail

namespace LibClamav.Ac

open LinkedChain List Option

/-!
# The first pass of `ac_maketrans`

The nodes are taken in breadth-first order, so that all nodes with shorter
words have their failure links and complete lists when the children of a node
are linked.
-/

theorem mem_allBytes (c : UInt8) : c ∈ allBytes :=
  mem_map.mpr ⟨c.toNat, mem_range.mpr c.toNat_lt, by simp⟩

theorem nodup_allBytes : allBytes.Nodup := by
  refine List.Nodup.map_on ?_ nodup_range
  intro a aSmall b bSmall same
  have values := congrArg UInt8.toNat same
  rw [UInt8.toNat_ofNat', UInt8.toNat_ofNat', Nat.mod_eq_of_lt (mem_range.mp aSmall),
    Nat.mod_eq_of_lt (mem_range.mp bSmall)] at values
  exact values

section

variable {base : AcRoot} {word : Nat → List UInt8} {c : UInt8} (words : Words base word)

/-- The children of a node, in the order of the loops over the bytes. -/
def kidsOf (base : AcRoot) (n : Nat) : List Nat := allBytes.filterMap (base.trans n)

/-- The children of a node. -/
theorem mem_kidsOf {n m : Nat} : m ∈ kidsOf base n ↔ ∃ c, base.trans n c = some m := by
  rw [kidsOf, mem_filterMap]
  exact ⟨fun ⟨c, _, edge⟩ => ⟨c, edge⟩, fun ⟨c, edge⟩ => ⟨c, mem_allBytes c, edge⟩⟩

/-- A node has one parent. -/
theorem Words.parent_unique
    (words : Words base word)
    {m n k : Nat}
    {b : UInt8}
    (first : base.trans m b = some k)
    (second : base.trans n c = some k) :
    m = n ∧ b = c := by
  obtain ⟨mValid, -, mWord⟩ := words.child first
  obtain ⟨nValid, -, nWord⟩ := words.child second
  obtain ⟨sameWord, sameByte⟩ := append_inj' (mWord.symm.trans nWord) rfl
  exact ⟨words.inj mValid nValid sameWord, (cons.inj sameByte).1⟩

theorem Words.child_length
    (words : Words base word)
    {n m : Nat}
    (edge : base.trans n c = some m) :
    (word m).length = (word n).length + 1 := by
  rw [(words.child edge).2.2, length_append, length_singleton]

theorem Words.child_ne_zero
    (words : Words base word)
    {n m : Nat}
    (edge : base.trans n c = some m) :
    m ≠ 0 := by
  rintro rfl
  have length := words.child_length edge
  rw [words.start] at length
  cases length

theorem kidsOf_of_isLeaf
    {n : Nat}
    (isLeaf : base.isLeaf n = true) :
    kidsOf base n = [] := by
  refine eq_nil_iff_forall_not_mem.mpr fun k mem => ?_
  obtain ⟨c, edge⟩ := mem_kidsOf.mp mem
  rw [trans_of_isLeaf isLeaf] at edge
  cases edge

/-- The trie without its root, as a forest. -/
def trieForest
    (base : AcRoot)
    (word : Nat → List UInt8)
    (words : Words base word) :
    BreadthFirst.Forest Nat where
  roots := kidsOf base 0
  kids := kidsOf base
  depth n := (word n).length
  rootDepth := 1
  depth_roots n mem := by
    obtain ⟨c, edge⟩ := mem_kidsOf.mp mem
    rw [words.child_length edge, words.start]
    rfl
  depth_kids n k mem := by
    obtain ⟨c, edge⟩ := mem_kidsOf.mp mem
    exact words.child_length edge
  nodup_roots := by
    refine List.Nodup.filterMap ?_ nodup_allBytes
    intro b c k bEdge cEdge
    exact (words.parent_unique bEdge cEdge).2
  nodup_kids n := by
    refine List.Nodup.filterMap ?_ nodup_allBytes
    intro b c k bEdge cEdge
    exact (words.parent_unique bEdge cEdge).2
  kids_disjoint mMember nMember := by
    obtain ⟨b, mEdge⟩ := mem_kidsOf.mp mMember
    obtain ⟨c, nEdge⟩ := mem_kidsOf.mp nMember
    exact (words.parent_unique mEdge nEdge).1

theorem trieForest_node_iff
    {n : Nat} :
    (trieForest base word words).Node n ↔ n ≤ base.acNodes ∧ n ≠ 0 := by
  constructor
  · intro isNode
    cases isNode with
    | root mem | kid _ mem =>
      obtain ⟨c, edge⟩ := mem_kidsOf.mp mem
      exact ⟨(words.child edge).2.1, words.child_ne_zero edge⟩
  rintro ⟨valid, notRoot⟩
  -- by induction on the length of the word, along the parents
  induction length : (word n).length using Nat.strong_induction_on generalizing n with
  | _ length ih =>
    obtain ⟨q, c, edge⟩ := words.parent valid notRoot
    have longer := words.child_length edge
    by_cases isRoot : q = 0
    · subst isRoot
      exact .root (mem_kidsOf.mpr ⟨c, edge⟩)
    · exact .kid (ih (word q).length (by omega) (words.child edge).1 isRoot rfl)
        (mem_kidsOf.mpr ⟨c, edge⟩)

theorem trieForest_finite
    (ns : List Nat)
    (nodup : ns.Nodup)
    (nodes : ∀ n ∈ ns, (trieForest base word words).Node n) :
    ns.length ≤ base.acNodes := by
  have isNode (n : Nat) (mem : n ∈ ns) := (trieForest_node_iff words).mp (nodes n mem)
  have withRoot : (0 :: ns).Nodup := nodup_cons.mpr ⟨fun mem => (isNode 0 mem).2 rfl, nodup⟩
  have below (n : Nat) (mem : n ∈ 0 :: ns) : n < base.acNodes + 1 := by
    rcases mem_cons.mp mem with isRoot | isOther
    · rw [isRoot]
      exact Nat.succ_pos _
    · exact Nat.lt_succ_of_le (isNode n isOther).1
  exact Nat.le_of_succ_le_succ (length_le_of_nodup withRoot below)

end

/-- The nodes whose parents are the root, a finished node, or `n` so far. -/
def SeenWith
    (base : AcRoot)
    (finished : List Nat)
    (n : Nat)
    (bytes : List UInt8)
    (k : Nat) :
    Prop :=
  ∃ q c, base.trans q c = some k ∧ (q = 0 ∨ q ∈ finished ∨ q = n ∧ c ∈ bytes)

/-- The nodes whose parents are the root or a finished node. -/
def SeenBy (base : AcRoot) (finished : List Nat) (k : Nat) : Prop :=
  ∃ q c, base.trans q c = some k ∧ (q = 0 ∨ q ∈ finished)

theorem Linked.congr
    {base root : AcRoot}
    {word : Nat → List UInt8}
    {own : List UInt8 → List Nat}
    {Seen Seen' Short : Nat → Prop}
    (linked : Linked base root word own Seen Short)
    (same : ∀ k, Seen k ↔ Seen' k) :
    Linked base root word own Seen' Short := by
  have equal : Seen = Seen' := funext fun k => propext (same k)
  rw [← equal]
  exact linked

section

variable {base root : AcRoot} {word : Nat → List UInt8}
variable {own : List UInt8 → List Nat} {group : Nat → List Nat}
variable {finished : List Nat} {n : Nat}

theorem seenBy_of_above
    (words : Words base word)
    (above : ∀ k, k ≤ base.acNodes → k ≠ 0 → (word k).length < (word n).length → k ∈ finished)
    {k : Nat}
    (valid : k ≤ base.acNodes)
    (notRoot : k ≠ 0)
    (short : (word k).length ≤ (word n).length) :
    SeenBy base finished k := by
  obtain ⟨q, c, edge⟩ := words.parent valid notRoot
  have longer := words.child_length edge
  by_cases isRoot : q = 0
  · exact ⟨q, c, edge, .inl isRoot⟩
  · exact ⟨q, c, edge, .inr (above q (words.child edge).1 isRoot (by omega))⟩

theorem seenWith_concat
    {front : List UInt8}
    {c : UInt8}
    {k : Nat} :
    SeenWith base finished n (front ++ [c]) k ↔
      SeenWith base finished n front k ∨ base.trans n c = some k := by
  simp only [SeenWith, mem_append, mem_singleton]
  grind

/-- The loop links all children of a node. -/
theorem linkLoop_spec
    (inv : AcInv base word own group)
    (notRoot : n ≠ 0)
    (nValid : n ≤ base.acNodes)
    (notFinished : n ∉ finished)
    (above : ∀ k, k ≤ base.acNodes → k ≠ 0 → (word k).length < (word n).length → k ∈ finished)
    (ordered : ∀ k ∈ finished, (word k).length ≤ (word n).length)
    (finishedNodes : ∀ k ∈ finished, k ≤ base.acNodes ∧ k ≠ 0)
    (rest : List UInt8) :
    ∀ {root : AcRoot} {front : List UInt8}, (front ++ rest).Nodup →
      Linked base root word own (SeenWith base finished n front) (· ∈ finished) →
      ∃ later, linkLoop n root rest = some (later, rest.filterMap (base.trans n)) ∧
          Linked base later word own (SeenWith base finished n (front ++ rest)) (· ∈ finished) := by
  have words := inv.words
  induction rest with
  | nil =>
    intro root front _ linked
    rw [append_nil]
    exact ⟨root, rfl, linked⟩
  | cons c rest ih =>
    intro root front nodup linked
    have regroup := append_cons front c rest
    rw [regroup] at nodup ⊢
    rw [linkLoop, linked.same notRoot c]
    cases edge : base.trans n c with
    | none =>
      have sameSeen (k : Nat) : SeenWith base finished n front k ↔
            SeenWith base finished n (front ++ [c]) k := by
        rw [seenWith_concat, edge, or_iff_left nofun]
      obtain ⟨later, loops, laterLinked⟩ := ih nodup (linked.congr sameSeen)
      refine ⟨later, ?_, laterLinked⟩
      rw [filterMap_cons_none edge]
      exact loops
    | some m =>
      have mLength := words.child_length edge
      have seenMore {k : Nat} (seen : SeenBy base finished k) :
          SeenWith base finished n front k := by
        obtain ⟨q, d, dEdge, isRoot | isFinished⟩ := seen
        · exact ⟨q, d, dEdge, .inl isRoot⟩
        · exact ⟨q, d, dEdge, .inr (.inl isFinished)⟩
      have fresh : ¬ SeenWith base finished n front m := by
        rintro ⟨q, d, dEdge, parent⟩
        obtain ⟨isN, isC⟩ := words.parent_unique dEdge edge
        rw [isN, isC] at parent
        rcases parent with isRoot | isFinished | ⟨-, inFront⟩
        · exact notRoot isRoot
        · exact notFinished isFinished
        · exact (nodup_append.mp (nodup_append.mp nodup).1).2.2 c inFront c
              (mem_singleton.mpr rfl) rfl
      have rootUnseen : ¬ SeenWith base finished n front 0 := by
        rintro ⟨q, d, dEdge, -⟩
        exact words.child_ne_zero dEdge rfl
      obtain ⟨child, links, childLinked⟩ := linkChild_spec inv linked rootUnseen
        (fun k isFinished => seenMore (seenBy_of_above words above (finishedNodes k isFinished).1
            (finishedNodes k isFinished).2 (ordered k isFinished)))
        (seenMore (seenBy_of_above words above nValid notRoot (le_rfl)))
        edge fresh
        (fun k valid kNotRoot short => seenMore (seenBy_of_above words above valid kNotRoot short))
        (by
          rintro k ⟨q, d, dEdge, parent⟩
          have kLength := words.child_length dEdge
          rcases parent with isRoot | isFinished | ⟨isN, -⟩
          · rw [isRoot, words.start] at kLength
            rw [kLength, mLength]
            exact Nat.succ_le_succ (Nat.zero_le _)
          · have short := ordered q isFinished
            omega
          · rw [isN] at kLength
            omega)
      have sameSeen (k : Nat) : (SeenWith base finished n front k ∨ k = m) ↔
            SeenWith base finished n (front ++ [c]) k := by
        rw [seenWith_concat, edge, some.injEq, eq_comm]
      obtain ⟨later, loops, laterLinked⟩ := ih nodup (childLinked.congr sameSeen)
      refine ⟨later, ?_, laterLinked⟩
      rw [filterMap_cons_some edge]
      simp only [links, loops]

theorem linkNode_leaf
    (words : Words base word)
    (linked : Linked base root word own (SeenBy base finished) (· ∈ finished))
    (isLeaf : base.isLeaf n = true)
    (nSeen : SeenBy base finished n)
    (above : ∀ k, k ≤ base.acNodes → k ≠ 0 → (word k).length < (word n).length → k ∈ finished) :
    ∃ later, linkNode root n = some (later, []) ∧ Linked base later word own (SeenBy base finished)
          (fun k => k ∈ finished ∨ k = n) := by
  obtain ⟨f, link, failOk⟩ := linked.fails nSeen
  have shorter := failOk.shorter
  have room := words.depth failOk.valid
  obtain ⟨g, climbs, gValid, gTable, gEnds, gLongest⟩ :=
    @climb_spec base root word (fun m => !root.isLeaf m) words (by
        intro m stops
        rw [linked.tables.leaf] at stops
        simpa using stops)
      (by
        rw [linked.tables.leaf, words.table]
        rfl)
      (root.acMaxdepth + 1) f failOk.valid
      (by
        rw [linked.tables.maxdepth]
        omega)
      (fun m valid notRoot short => linked.fails
        (seenBy_of_above words above valid notRoot (by omega)))
  rw [linked.tables.leaf] at gTable
  have gNotLeaf : base.isLeaf g = false := by simpa using gTable
  have gShort := gEnds.length_le
  have gFail : FailOk base word n g := by
    refine ⟨gValid, gEnds.trans failOk.ends, by omega, ?_⟩
    intro m valid table ends short
    have belowF := failOk.longest m valid table ends short
    refine gLongest m valid ?_ (suffix_of_suffix_length_le ends failOk.ends belowF)
    rw [linked.tables.leaf, table]
    rfl
  have sameTables := setFail_sameTables root n g
  have nNode : (root.setFail n g).node n = { root.node n with fail := some g } :=
    root.node_setNode_self n _
  have otherNode {k : Nat} (other : k ≠ n) : (root.setFail n g).node k = root.node k :=
    root.node_setNode_of_ne _ other
  refine ⟨root.setFail n g, ?_, ?_⟩
  · unfold linkNode
    rw [linked.tables.leaf, if_pos isLeaf, link]
    simp only [climbs]
  refine
    { tables := linked.tables.of_same sameTables
      same := ?_
      fails := ?_
      short := ?_
      seen := ?_
      unseen := ?_ }
  · exact fun notRoot c => (sameTables.edge _ c).trans (linked.same notRoot c)
  · intro k kSeen
    by_cases isN : k = n
    · rw [isN, nNode]
      exact ⟨g, rfl, gFail⟩
    · rw [otherNode isN]
      exact linked.fails kSeen
  · intro k h kShort kLeaf kLink
    by_cases isN : k = n
    · rw [isN, nNode] at kLink
      cases kLink
      exact gNotLeaf
    · rw [otherNode isN] at kLink
      exact linked.short (kShort.resolve_right isN) kLeaf kLink
  · intro k valid kSeen
    rw [setFail_list]
    exact linked.seen valid kSeen
  · intro k valid kUnseen
    rw [setFail_list]
    exact linked.unseen valid kUnseen

/-- A node from the queue has its children linked. -/
theorem linkNode_spec
    (inv : AcInv base word own group)
    (linked : Linked base root word own (SeenBy base finished) (· ∈ finished))
    (nValid : n ≤ base.acNodes)
    (notRoot : n ≠ 0)
    (notFinished : n ∉ finished)
    (above : ∀ k, k ≤ base.acNodes → k ≠ 0 → (word k).length < (word n).length → k ∈ finished)
    (ordered : ∀ k ∈ finished, (word k).length ≤ (word n).length)
    (finishedNodes : ∀ k ∈ finished, k ≤ base.acNodes ∧ k ≠ 0) :
    ∃ later, linkNode root n = some (later, kidsOf base n) ∧
        Linked base later word own (SeenBy base (finished ++ [n])) (· ∈ finished ++ [n]) := by
  have shortAppend (k : Nat) : k ∈ finished ++ [n] ↔ k ∈ finished ∨ k = n := by
    rw [mem_append, mem_singleton]
  cases isLeaf : base.isLeaf n with
  | true =>
    obtain ⟨later, links, laterLinked⟩ := linkNode_leaf inv.words linked
      isLeaf (seenBy_of_above inv.words above nValid notRoot (le_rfl)) above
    rw [kidsOf_of_isLeaf isLeaf]
    refine ⟨later, links, ?_⟩
    have sameSeen (k : Nat) : SeenBy base finished k ↔ SeenBy base (finished ++ [n]) k := by
      refine exists_congr fun q => exists_congr fun c => and_congr_right fun edge => ?_
      have different : q ≠ n := by
        rintro rfl
        rw [trans_of_isLeaf isLeaf] at edge
        cases edge
      rw [mem_append, mem_singleton, or_iff_left different]
    rw [funext fun k => propext (shortAppend k)]
    exact laterLinked.congr sameSeen
  | false =>
    have startSeen (k : Nat) : SeenBy base finished k ↔ SeenWith base finished n [] k := by
      refine exists_congr fun q => exists_congr fun c => and_congr_right fun _ => ?_
      simp
    obtain ⟨later, loops, laterLinked⟩ := linkLoop_spec inv
      notRoot nValid notFinished above ordered finishedNodes allBytes
      (show ([] ++ allBytes).Nodup from nodup_allBytes)
      (linked.congr startSeen)
    refine ⟨later, ?_, ?_⟩
    · unfold linkNode
      rw [linked.tables.leaf, isLeaf]
      exact loops
    have sameSeen (k : Nat) : SeenWith base finished n ([] ++ allBytes) k ↔
          SeenBy base (finished ++ [n]) k := by
      refine exists_congr fun q => exists_congr fun c => and_congr_right fun _ => ?_
      rw [nil_append, and_iff_left (mem_allBytes c), mem_append, mem_singleton]
    have newLinked := laterLinked.congr sameSeen
    refine { newLinked with short := ?_ }
    intro k f kShort kLeaf kLink
    refine newLinked.short ?_ kLeaf kLink
    refine ((shortAppend k).mp kShort).resolve_right ?_
    rintro rfl
    rw [isLeaf] at kLeaf
    cases kLeaf

end

/-- The state of the loop over the root after some of its rounds. -/
structure RootState (base root : AcRoot) (bytes : List UInt8) : Prop where
  nodes : root.acNodes = base.acNodes
  maxdepth : root.acMaxdepth = base.acMaxdepth
  pattable : root.acPattable = base.acPattable
  nextSame : root.nextSame = base.nextSame
  next : root.next = base.next
  leaf : ∀ n, root.isLeaf n = base.isLeaf n
  list : ∀ n, (root.node n).list = (base.node n).list
  others : ∀ {n}, n ≠ 0 → ∀ c, root.trans n c = base.trans n c
  done : ∀ {c}, c ∈ bytes → root.trans 0 c = some ((base.trans 0 c).getD 0)
  left : ∀ {c}, c ∉ bytes → root.trans 0 c = base.trans 0 c
  fails : ∀ {c m}, c ∈ bytes → base.trans 0 c = some m → (root.node m).fail = some 0

variable {base : AcRoot} {word : Nat → List UInt8}

theorem rootRound_state
    (words : Words base word)
    {root : AcRoot}
    {front : List UInt8}
    {c : UInt8}
    (fresh : c ∉ front)
    (state : RootState base root front) :
    RootState base (rootRound root c).1 (front ++ [c]) ∧
      (rootRound root c).2 = (base.trans 0 c).toList := by
  have member_iff (d : UInt8) : d ∈ front ++ [c] ↔ d ∈ front ∨ d = c := by
    rw [mem_append, mem_singleton]
  unfold rootRound
  rw [state.left fresh]
  cases edge : base.trans 0 c with
  | none =>
    refine ⟨?_, rfl⟩
    have transitions := setTrans_trans root c 0 ((state.leaf 0).trans words.table)
    refine
      { state with
        leaf := fun n => (setTrans_isLeaf root 0 c 0 n).trans (state.leaf n)
        list := fun n => (setTrans_list root 0 c 0 n).trans (state.list n)
        others := ?_
        done := ?_
        left := ?_
        fails := ?_ }
    · intro n notRoot d
      rw [transitions, if_neg fun both => notRoot both.1]
      exact state.others notRoot d
    · intro d mem
      rw [transitions]
      split_ifs with both
      · rw [both.2, edge]
        rfl
      · exact state.done (((member_iff d).mp mem).resolve_right fun isC => both ⟨rfl, isC⟩)
    · intro d outside
      rw [transitions, if_neg fun both => outside ((member_iff d).mpr (.inr both.2))]
      exact state.left fun inFront => outside ((member_iff d).mpr (.inl inFront))
    · intro d m mem dEdge
      refine (setTrans_fail root 0 c 0 m).trans
        (state.fails (((member_iff d).mp mem).resolve_right ?_) dEdge)
      rintro rfl
      rw [edge] at dEdge
      cases dEdge
  | some m =>
    refine ⟨?_, rfl⟩
    have sameTables := setFail_sameTables root m 0
    have mNode : (root.setFail m 0).node m = { root.node m with fail := some 0 } :=
      root.node_setNode_self m _
    have otherNode {n : Nat} (other : n ≠ m) : (root.setFail m 0).node n = root.node n :=
      root.node_setNode_of_ne _ other
    refine
      { state with
        leaf := fun n => (sameTables.leaf n).trans (state.leaf n)
        list := fun n => (setFail_list root m 0 n).trans (state.list n)
        others := fun notRoot d => (sameTables.edge _ d).trans (state.others notRoot d)
        done := ?_
        left := ?_
        fails := ?_ }
    · intro d mem
      rw [sameTables.edge]
      rcases (member_iff d).mp mem with inFront | isC
      · exact state.done inFront
      · rw [isC, state.left fresh, edge]
        rfl
    · intro d outside
      rw [sameTables.edge]
      exact state.left fun inFront => outside ((member_iff d).mpr (.inl inFront))
    · intro d k mem dEdge
      by_cases isM : k = m
      · rw [isM, mNode]
      rw [otherNode isM]
      refine state.fails (((member_iff d).mp mem).resolve_right ?_) dEdge
      rintro rfl
      rw [edge] at dEdge
      exact isM (some.inj dEdge).symm

/-- The loop over the root. -/
theorem rootLoop_state
    (words : Words base word)
    (rest : List UInt8)
    {root : AcRoot}
    {front : List UInt8}
    (nodup : (front ++ rest).Nodup)
    (state : RootState base root front) :
    RootState base (rootLoop root rest).1 (front ++ rest) ∧
      (rootLoop root rest).2 = rest.filterMap (base.trans 0) := by
  induction rest generalizing root front with
  | nil =>
    rw [append_nil]
    exact ⟨state, rfl⟩
  | cons c rest ih =>
    have fresh : c ∉ front := fun inFront =>
      (nodup_append.mp nodup).2.2 c inFront c mem_cons_self rfl
    obtain ⟨stepState, stepFound⟩ := rootRound_state words fresh state
    rw [append_cons] at nodup ⊢
    obtain ⟨laterState, laterFound⟩ := ih nodup stepState
    refine ⟨laterState, ?_⟩
    rw [rootLoop, filterMap_eq_flatMap_toList, flatMap_cons, ← filterMap_eq_flatMap_toList]
    simp only [stepFound, laterFound]

theorem RootState.linked
    {root : AcRoot}
    {own : List UInt8 → List Nat}
    {group : Nat → List Nat}
    (inv : AcInv base word own group)
    (state : RootState base root allBytes) :
    Linked base root word own (SeenBy base []) (· ∈ ([] : List Nat)) := by
  have words := inv.words
  have rootTrans (c : UInt8) := state.done (mem_allBytes c)
  have rootKid {k : Nat} (seen : SeenBy base [] k) : ∃ c, base.trans 0 c = some k := by
    obtain ⟨q, c, edge, isRoot | impossible⟩ := seen
    · rw [isRoot] at edge
      exact ⟨c, edge⟩
    · cases impossible
  have kidWord {k : Nat} {c : UInt8} (edge : base.trans 0 c = some k) : word k = [c] := by
    rw [(words.child edge).2.2, words.start, nil_append]
  have child_longest {n m : Nat} {c : UInt8} (edge : base.trans n c = some m) :
      Longest base word (word n ++ [c]) m := by
    obtain ⟨-, valid, mWord⟩ := words.child edge
    rw [← mWord]
    exact ⟨valid, suffix_refl _, fun k _ ends => ends.length_le⟩
  refine
    { tables :=
        { state with
          keeps := ?_
          sound := ?_
          start := fun c => ⟨_, rootTrans c⟩ }
      same := state.others
      fails := ?_
      short := nofun
      seen := ?_
      unseen := ?_ }
  · intro n c m edge
    by_cases isRoot : n = 0
    · subst isRoot
      rw [rootTrans, edge]
      rfl
    · rw [state.others isRoot]
      exact edge
  · intro n c t edge
    by_cases isRoot : n = 0
    · subst isRoot
      rw [rootTrans] at edge
      cases kid : base.trans 0 c with
      | some m =>
        rw [kid] at edge
        cases edge
        exact child_longest kid
      | none =>
        rw [kid] at edge
        have isStart : t = 0 := (some.inj edge).symm
        subst isStart
        -- no word of the trie is the byte `c` alone
        refine ⟨Nat.zero_le _, ?_, ?_⟩
        · rw [words.start]
          exact nil_suffix
        intro m valid ends
        rw [words.eq_root_of_ends valid kid ends]
    · rw [state.others isRoot] at edge
      exact child_longest edge
  · intro k seen
    obtain ⟨c, edge⟩ := rootKid seen
    refine ⟨0, state.fails (mem_allBytes c) edge, Nat.zero_le _, ?_, ?_, ?_⟩
    · rw [words.start]
      exact nil_suffix
    · rw [words.start, kidWord edge]
      exact Nat.one_pos
    · intro m _ _ _ short
      rw [kidWord edge, length_singleton] at short
      omega
  · intro k valid seen
    obtain ⟨c, edge⟩ := rootKid seen
    have ownChain := inv.lists.chain valid
    rw [state.next, state.list]
    rw [kidWord edge] at ownChain ⊢
    have cut : ([] : List UInt8) = [] ∧ startsWord base c = true :=
      ⟨rfl, isSome_iff_exists.mpr ⟨k, edge⟩⟩
    rw [full, if_pos cut, append_nil]
    exact ownChain
  · intro k valid _
    rw [state.next, state.list]
    exact inv.lists.chain valid

/-- The first pass links all nodes. -/
theorem firstPass_linked
    {own : List UInt8 → List Nat}
    {group : Nat → List Nat}
    (inv : AcInv base word own group) :
    ∃ later, BreadthFirst.loop linkNode (rootLoop base allBytes).1.acNodes
          (rootLoop base allBytes).2 (rootLoop base allBytes).1 =
        some later ∧
      Linked base later word own (fun k => k ≤ base.acNodes ∧ k ≠ 0)
        (fun k => k ≤ base.acNodes ∧ k ≠ 0) := by
  have words := inv.words
  have start : RootState base base [] :=
    { nodes := rfl
      maxdepth := rfl
      pattable := rfl
      nextSame := rfl
      next := rfl
      leaf := fun _ => rfl
      list := fun _ => rfl
      others := fun _ _ => rfl
      done := nofun
      left := fun _ => rfl
      fails := nofun }
  obtain ⟨state, found⟩ := rootLoop_state words allBytes
    (show ([] ++ allBytes).Nodup from nodup_allBytes) start
  rw [nil_append] at state
  rw [found, state.nodes]
  obtain ⟨all, later, loops, allNodes, allValid, linked⟩ := BreadthFirst.loop_rule
      (fun finished root =>
        (∀ k ∈ finished, k ≤ base.acNodes ∧ k ≠ 0) ∧
          Linked base root word own (SeenBy base finished) (· ∈ finished))
      (trieForest_finite words)
      (by
        rintro finished root n ⟨finishedNodes, linked⟩ isNode notFinished above ordered
        obtain ⟨nValid, notRoot⟩ := (trieForest_node_iff words).mp isNode
        obtain ⟨later, links, laterLinked⟩ := linkNode_spec inv linked nValid notRoot notFinished
          (fun k valid kNotRoot short => above k
            ((trieForest_node_iff words).mpr ⟨valid, kNotRoot⟩) short)
          ordered finishedNodes
        refine ⟨later, links, ?_, laterLinked⟩
        intro k mem
        rcases mem_append.mp mem with isOld | isNew
        · exact finishedNodes k isOld
        · rw [mem_singleton.mp isNew]
          exact ⟨nValid, notRoot⟩)
      base.acNodes [] (trieForest base word words).roots
      (rootLoop base allBytes).1
      (BreadthFirst.front_start (trieForest base word words))
      (Nat.le_add_left _ _)
      ⟨nofun, state.linked inv⟩
  refine ⟨later, loops, ?_⟩
  have isAll (k : Nat) : k ∈ all ↔ k ≤ base.acNodes ∧ k ≠ 0 :=
    ⟨allValid k, fun isNode => allNodes k ((trieForest_node_iff words).mpr isNode)⟩
  rw [← funext fun k => propext (isAll k)]
  refine linked.congr fun k => ?_
  rw [isAll]
  constructor
  · rintro ⟨q, c, edge, -⟩
    exact ⟨(words.child edge).2.1, words.child_ne_zero edge⟩
  rintro ⟨valid, notRoot⟩
  obtain ⟨q, c, edge⟩ := words.parent valid notRoot
  refine ⟨q, c, edge, ?_⟩
  by_cases isRoot : q = 0
  · exact .inl isRoot
  · exact .inr ((isAll q).mpr ⟨(words.child edge).1, isRoot⟩)

end LibClamav.Ac
