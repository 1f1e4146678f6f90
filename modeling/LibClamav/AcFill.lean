import LibClamav.AcLinks

namespace LibClamav.Ac

open LinkedChain List

/-!
# The second pass of `ac_maketrans`

The second pass completes the transitions: each one leads to the longest word
of the trie that ends the word of its node followed by its byte.  The
transitions are written in place, and the failure links are followed over
transitions that earlier rounds have already filled.
-/

/-- The state of the second pass: the nodes in `Done` are complete. -/
structure Filling
    (base first root : AcRoot) (word : Nat → List UInt8) (Done : Nat → UInt8 → Prop) : Prop where
  tables : Tables base root word
  next : root.next = first.next
  list : ∀ n, (root.node n).list = (first.node n).list
  fail : ∀ n, (root.node n).fail = (first.node n).fail
  complete : ∀ {n c}, Done n c → ∃ t, root.trans n c = some t
  untouched : ∀ {n c}, n ≠ 0 → ¬ Done n c → root.trans n c = base.trans n c

section

variable {base first root : AcRoot} {word : Nat → List UInt8}
variable {own : List UInt8 → List Nat} {group : Nat → List Nat} {n : Nat}

/-- All nodes but the root. -/
def Inner (base : AcRoot) (k : Nat) : Prop := k ≤ base.acNodes ∧ k ≠ 0

variable (inv : AcInv base word own group) {finished : List Nat}

include inv

theorem fillRound_missing
    {c : UInt8}
    {Done : Nat → UInt8 → Prop}
    (linked : Linked base first word own (Inner base) (Inner base))
    (filling : Filling base first root word Done)
    (isInner : Inner base n)
    (table : base.isLeaf n = false)
    (missing : base.trans n c = none)
    (notDone : ¬ Done n c) :
    ∃ later, fillRound root n c = some (later, []) ∧ Filling base first later word
          (fun k d => Done k d ∨ k = n ∧ d = c) := by
  have words := inv.words
  have links {k : Nat} (kInner : Inner base k) :
      ∃ f, (root.node k).fail = some f ∧ FailOk base word k f := by
    rw [filling.fail]
    exact linked.fails kInner
  obtain ⟨f, link, failOk⟩ := links isInner
  obtain ⟨t, target, tValid, tEnds, -, tLongest⟩ :=
    failTarget_spec words filling.tables (c := c) link failOk
      fun k valid notRoot _ => links ⟨valid, notRoot⟩
  have rootTable : root.isLeaf n = false := (filling.tables.leaf n).trans table
  have transitions := setTrans_trans root c t rootTable
  have emptyHere : root.trans n c = none := (filling.untouched isInner.2 notDone).trans missing
  refine ⟨root.setTrans n c t, ?_, ?_⟩
  · unfold fillRound
    simp only [emptyHere, target]
  refine
    { tables :=
        { filling.tables with
          leaf := ?_
          keeps := ?_
          sound := ?_
          start := ?_ }
      next := filling.next
      list := ?_
      fail := ?_
      complete := ?_
      untouched := ?_ }
  · exact fun k => (setTrans_isLeaf root n c t k).trans (filling.tables.leaf k)
  · intro k d m edge
    rw [transitions, if_neg]
    · exact filling.tables.keeps edge
    · rintro ⟨rfl, rfl⟩
      rw [missing] at edge
      cases edge
  · intro k d u edge
    rw [transitions] at edge
    split_ifs at edge with isHere
    · obtain ⟨rfl, rfl⟩ := isHere
      cases edge
      refine ⟨tValid, tEnds, ?_⟩
      intro m valid ends
      refine tLongest m valid ends ?_
      by_cases isRoot : m = 0
      · rw [isRoot, words.start]
        exact Nat.zero_le _
      obtain ⟨q, qEdge, qValid, mWord, qEnds⟩ := words.parent_of_ends valid isRoot ends
      rw [mWord, length_append, length_singleton]
      -- the whole text is no word, since the transition is missing
      refine lt_of_le_of_ne qEnds.length_le fun isWhole => ?_
      rw [words.inj qValid isInner.1 (qEnds.eq_of_length isWhole), missing] at qEdge
      cases qEdge
    · exact filling.tables.sound edge
  · intro d
    rw [transitions, if_neg fun both => isInner.2 both.1.symm]
    exact filling.tables.start d
  · exact fun k => (setTrans_list root n c t k).trans (filling.list k)
  · exact fun k => (setTrans_fail root n c t k).trans (filling.fail k)
  · intro k d isDone
    rw [transitions]
    by_cases isHere : k = n ∧ d = c
    · exact ⟨t, if_pos isHere⟩
    · rw [if_neg isHere]
      exact filling.complete (isDone.resolve_right isHere)
  · intro k d notRoot notYet
    rw [transitions, if_neg fun isHere => notYet (.inr isHere)]
    exact filling.untouched notRoot fun isDone => notYet (.inl isDone)

theorem list_of_isLeaf
    (linked : Linked base first word own (Inner base) (Inner base))
    {m : Nat}
    (isInner : Inner base m)
    (isLeaf : base.isLeaf m = true) :
    (first.node m).list ≠ none := by
  intro isNull
  have isChain := linked.seen isInner.1 isInner
  rw [isNull] at isChain
  obtain ⟨p, isOwn⟩ := exists_mem_of_ne_nil _ (inv.final isInner.1 isLeaf)
  have nonempty : word m ≠ [] := by
    intro isEmpty
    exact isInner.2 (inv.words.inj isInner.1 (Nat.zero_le _) (isEmpty.trans inv.words.start.symm))
  have inFull : p ∈ full own (startsWord base) (word m) := (mem_full _).mpr
      (.inl ⟨word m, nonempty, suffix_refl _, isOwn⟩)
  cases members : full own (startsWord base) (word m) with
  | nil =>
    rw [members] at inFull
    cases inFull
  | cons q rest =>
    rw [members] at isChain
    cases isChain.1

/-- One transition of a node is completed. -/
theorem fillRound_spec
    {c : UInt8}
    {Done : Nat → UInt8 → Prop}
    (linked : Linked base first word own (Inner base) (Inner base))
    (filling : Filling base first root word Done)
    (isInner : Inner base n)
    (table : base.isLeaf n = false)
    (notDone : ¬ Done n c) :
    ∃ later, fillRound root n c = some (later, (base.trans n c).toList) ∧
      Filling base first later word (fun k d => Done k d ∨ k = n ∧ d = c) := by
  cases edge : base.trans n c with
  | none => exact fillRound_missing inv linked filling isInner table edge notDone
  | some m =>
    have mInner : Inner base m := ⟨(inv.words.child edge).2.1, inv.words.child_ne_zero edge⟩
    have keeps := filling.tables.keeps edge
    refine ⟨root, ?_, { filling with complete := ?_, untouched := ?_ }⟩
    · unfold fillRound
      simp only [keeps]
      refine if_neg ?_
      rw [filling.tables.leaf, filling.list, Bool.and_eq_true]
      rintro ⟨isNull, isLeaf⟩
      exact list_of_isLeaf inv linked mInner isLeaf (Option.isNone_iff_eq_none.mp isNull)
    · rintro k d (isDone | ⟨rfl, rfl⟩)
      · exact filling.complete isDone
      · exact ⟨m, keeps⟩
    · exact fun notRoot notYet => filling.untouched notRoot fun isDone => notYet (.inl isDone)

/-- All transitions of a node are. -/
theorem fillLoop_spec
    (linked : Linked base first word own (Inner base) (Inner base))
    (isInner : Inner base n)
    (table : base.isLeaf n = false)
    (notFinished : n ∉ finished)
    (rest : List UInt8)
    {root : AcRoot}
    {front : List UInt8}
    (nodup : (front ++ rest).Nodup)
    (filling : Filling base first root word (fun k d => k ∈ finished ∧
      base.isLeaf k = false ∨ k = n ∧ d ∈ front)) :
    ∃ later, fillLoop n root rest = some (later, rest.filterMap (base.trans n)) ∧
      Filling base first later word (fun k d => k ∈ finished ∧ base.isLeaf k = false ∨
          k = n ∧ d ∈ front ++ rest) := by
  induction rest generalizing root front with
  | nil =>
    rw [append_nil]
    exact ⟨root, rfl, filling⟩
  | cons c rest ih =>
    have fresh : c ∉ front := fun inFront =>
      (nodup_append.mp nodup).2.2 c inFront c mem_cons_self rfl
    have notDone : ¬ (n ∈ finished ∧ base.isLeaf n = false ∨ n = n ∧ c ∈ front) := by
      rintro (⟨isFinished, -⟩ | ⟨-, inFront⟩)
      · exact notFinished isFinished
      · exact fresh inFront
    obtain ⟨step, fills, stepFilling⟩ := fillRound_spec inv linked filling isInner table notDone
    simp only [or_assoc, ← and_or_left, ← @mem_singleton _ _ c, ← mem_append] at stepFilling
    rw [append_cons] at nodup ⊢
    obtain ⟨later, loops, laterFilling⟩ := ih nodup stepFilling
    refine ⟨later, ?_, laterFilling⟩
    rw [fillLoop, filterMap_eq_flatMap_toList, flatMap_cons, ← filterMap_eq_flatMap_toList]
    simp only [fills, loops]

theorem rootKids_eq
    (tables : Tables base root word) :
    rootKids root = kidsOf base 0 := by
  refine filterMap_congr fun c _ => ?_
  obtain ⟨t, edge⟩ := tables.start c
  rw [edge]
  cases kid : base.trans 0 c with
  | some m =>
    rw [tables.keeps kid] at edge
    cases edge
    exact (Option.filter_eq_some_iff).mpr ⟨rfl, decide_eq_true (inv.words.child_ne_zero kid)⟩
  | none =>
    -- the longest word that ends one byte alone can only be the empty one
    have reached := tables.sound edge
    rw [inv.words.eq_root_of_ends reached.valid kid reached.ends]
    rfl

/-- So is a node from the queue. -/
theorem fillNode_spec
    (linked : Linked base first word own (Inner base) (Inner base))
    (filling : Filling base first root word (fun k _ => k ∈ finished ∧ base.isLeaf k = false))
    (isInner : Inner base n)
    (notFinished : n ∉ finished) :
    ∃ later, fillNode root n = some (later, kidsOf base n) ∧ Filling base first later word
          (fun k _ => k ∈ finished ++ [n] ∧ base.isLeaf k = false) := by
  unfold fillNode
  rw [filling.tables.leaf]
  cases isLeaf : base.isLeaf n with
  | true =>
    have sameDone : (fun (k : Nat) (_ : UInt8) => k ∈ finished ++ [n] ∧ base.isLeaf k = false) =
        (fun k _ => k ∈ finished ∧ base.isLeaf k = false) := by
      funext k _
      refine propext (and_congr_left fun kTable => ?_)
      have different : k ≠ n := by
        rintro rfl
        rw [isLeaf] at kTable
        cases kTable
      rw [mem_append, mem_singleton, or_iff_left different]
    rw [sameDone, kidsOf_of_isLeaf isLeaf]
    exact ⟨root, rfl, filling⟩
  | false =>
    have startDone : (fun (k : Nat) (_ : UInt8) => k ∈ finished ∧ base.isLeaf k = false) =
        (fun k d => k ∈ finished ∧ base.isLeaf k = false ∨ k = n ∧ d ∈ ([] : List UInt8)) := by
      funext k d
      refine propext (or_iff_left ?_).symm
      exact fun impossible => (nomatch impossible.2)
    have endDone : (fun (k : Nat) (_ : UInt8) => k ∈ finished ++ [n] ∧ base.isLeaf k = false) =
        (fun k d => k ∈ finished ∧ base.isLeaf k = false ∨ k = n ∧ d ∈ [] ++ allBytes) := by
      funext k d
      rw [nil_append, and_iff_left (mem_allBytes d), mem_append, mem_singleton, or_and_right]
      refine propext (or_congr_right (and_iff_left_of_imp ?_))
      rintro rfl
      exact isLeaf
    rw [startDone] at filling
    rw [endDone]
    exact fillLoop_spec inv linked isInner isLeaf notFinished allBytes
      (show ([] ++ allBytes).Nodup from nodup_allBytes) filling

end

/-- A matcher that `cli_ac_buildtrie` has completed. -/
structure Built
    (base built : AcRoot) (word : Nat → List UInt8) (own : List UInt8 → List Nat) : Prop where
  tables : Tables base built word
  complete : ∀ {n}, n ≤ base.acNodes → base.isLeaf n = false → ∀ c, ∃ t, built.trans n c = some t
  leafFail : ∀ {n}, n ≤ base.acNodes → base.isLeaf n = true →
    ∃ f, (built.node n).fail = some f ∧ FailOk base word n f ∧ base.isLeaf f = false
  chain : ∀ {n}, n ≤ base.acNodes → Chain built.next (built.node n).list
      (full own (startsWord base) (word n))

/-- `cli_ac_buildtrie` completes the matcher. -/
theorem cliAcBuildtrie_built
    {base : AcRoot}
    {word : Nat → List UInt8}
    {own : List UInt8 → List Nat}
    {group : Nat → List Nat}
    (inv : AcInv base word own group) :
    ∃ built, cliAcBuildtrie base = some built ∧ Built base built word own := by
  have words := inv.words
  obtain ⟨first, firstLoops, linked⟩ := firstPass_linked inv
  obtain ⟨all, built, loops, allNodes, filling⟩ := BreadthFirst.loop_rule
      (fun finished root => Filling base first root word
        (fun k _ => k ∈ finished ∧ base.isLeaf k = false))
      (trieForest_finite words)
      (fun finished root n filling isNode notFinished _ _ =>
        fillNode_spec inv linked filling ((trieForest_node_iff words).mp isNode) notFinished)
      base.acNodes [] (trieForest base word words).roots first
      (BreadthFirst.front_start (trieForest base word words))
      (Nat.le_add_left _ _)
      { tables := linked.tables
        next := rfl
        list := fun _ => rfl
        fail := fun _ => rfl
        complete := fun impossible => (nomatch impossible.1)
        untouched := fun notRoot _ => linked.same notRoot _ }
  refine ⟨built, ?_, ?_⟩
  · unfold cliAcBuildtrie acMaketrans
    simp only [firstLoops, linked.tables.nodes, rootKids_eq inv linked.tables]
    exact loops
  have isDone {n : Nat} (valid : n ≤ base.acNodes) (notRoot : n ≠ 0) : n ∈ all :=
    allNodes n ((trieForest_node_iff words).mpr ⟨valid, notRoot⟩)
  refine
    { tables := filling.tables
      complete := ?_
      leafFail := ?_
      chain := ?_ }
  · intro n valid table c
    by_cases isRoot : n = 0
    · rw [isRoot]
      exact filling.tables.start c
    · exact filling.complete ⟨isDone valid isRoot, table⟩
  · intro n valid isLeaf
    have notRoot : n ≠ 0 := by
      rintro rfl
      rw [words.table] at isLeaf
      cases isLeaf
    obtain ⟨f, link, failOk⟩ := linked.fails ⟨valid, notRoot⟩
    rw [filling.fail]
    exact ⟨f, link, failOk, linked.short ⟨valid, notRoot⟩ isLeaf link⟩
  · intro n valid
    rw [filling.next, filling.list]
    by_cases isRoot : n = 0
    · have isChain := linked.unseen valid fun isInner => isInner.2 isRoot
      rw [isRoot, words.start] at isChain ⊢
      exact isChain
    · exact linked.seen valid ⟨valid, isRoot⟩

end LibClamav.Ac
