import LibClamav.AcLists

namespace LibClamav.Ac

open LinkedChain
open List (cons_ne_nil length_append length_singleton nil_append suffix_cons suffix_cons_iff
  suffix_nil suffix_refl)

/-!
# Failure links

The first pass of `ac_maketrans`.  The failure link of a node leads to the
longest proper suffix of its word that is a word of the trie; for a leaf it is
shortened to the longest one that has transitions.  The list of a node is
continued by the list of the node that its failure link leads to before it is
shortened.
-/

variable {u v w : List UInt8} {c : UInt8} {p n : Nat}

theorem append_singleton_suffix_iff {b : UInt8} : u ++ [b] <:+ v ++ [c] ↔ u <:+ v ∧ b = c := by
  rw [← List.reverse_prefix, ← @List.reverse_prefix _ u v]
  simp only [List.reverse_append, List.reverse_cons, List.reverse_nil,
    nil_append, List.singleton_append, List.cons_prefix_cons]
  exact and_comm

section

variable (own : List UInt8 → List Nat) (starts : UInt8 → Bool)

/--
The patterns of all suffixes of a word, those of the longest one first.  The
children of the root do not get the list of the root, so the patterns of the
empty word are left out behind a byte that starts a word of the trie.
-/
def full : List UInt8 → List Nat
  | [] => own []
  | b :: w => own (b :: w) ++ if w = [] ∧ starts b then [] else full w

variable {own starts}

/-- The patterns that end with a word. -/
theorem mem_full
    (w : List UInt8) :
    p ∈ full own starts w ↔ (∃ u, u ≠ [] ∧ u <:+ w ∧ p ∈ own u) ∨
        p ∈ own [] ∧ ∀ b, [b] <:+ w → starts b = false := by
  induction w with
  | nil =>
    rw [full]
    constructor
    · intro mem
      refine .inr ⟨mem, ?_⟩
      intro b ends
      cases suffix_nil.mp ends
    · rintro (⟨u, nonempty, ends, -⟩ | ⟨mem, -⟩)
      · exact absurd (suffix_nil.mp ends) nonempty
      · exact mem
  | cons b w ih =>
    have isLonger : (∃ u, u ≠ [] ∧ u <:+ b :: w ∧ p ∈ own u) ↔
        p ∈ own (b :: w) ∨ ∃ u, u ≠ [] ∧ u <:+ w ∧ p ∈ own u := by
      constructor
      · rintro ⟨u, nonempty, ends, mem⟩
        rcases suffix_cons_iff.mp ends with rfl | isShorter
        · exact .inl mem
        · exact .inr ⟨u, nonempty, isShorter, mem⟩
      · rintro (mem | ⟨u, nonempty, ends, mem⟩)
        · exact ⟨_, cons_ne_nil b w, suffix_refl _, mem⟩
        · exact ⟨u, nonempty, ends.trans (suffix_cons b w), mem⟩
    rw [full, List.mem_append, isLonger, or_assoc]
    refine or_congr_right ?_
    split_ifs with cut
    · obtain ⟨rfl, isStart⟩ := cut
      refine iff_of_false List.not_mem_nil ?_
      rintro (⟨u, nonempty, ends, -⟩ | ⟨-, noStart⟩)
      · exact nonempty (suffix_nil.mp ends)
      · rw [noStart b (suffix_refl _)] at isStart
        cases isStart
    · rw [ih]
      refine or_congr_right (and_congr_right fun _ => ⟨fun noStart c ends => ?_,
        fun noStart c ends => noStart c (ends.trans (suffix_cons b w))⟩)
      rcases suffix_cons_iff.mp ends with isWhole | isShorter
      · obtain ⟨rfl, rfl⟩ := List.cons.inj isWhole
        exact Bool.eq_false_iff.mpr fun isStart => cut ⟨rfl, isStart⟩
      · exact noStart c isShorter

theorem own_of_mem_full (mem : p ∈ full own starts w) : ∃ u, u <:+ w ∧ p ∈ own u := by
  rcases (mem_full w).mp mem with ⟨u, -, ends, isOwn⟩ | ⟨isOwn, -⟩
  · exact ⟨u, ends, isOwn⟩
  · exact ⟨[], List.nil_suffix, isOwn⟩

/-- They are those of the word and of its longest end. -/
theorem full_split
    (w : List UInt8)
    (ends : v <:+ w)
    (proper : v.length < w.length)
    (empty : ∀ u, u <:+ w → v.length < u.length → u.length < w.length → own u = [])
    (noStart : v = [] → ∀ b, [b] <:+ w → starts b = false) :
    full own starts w = own w ++ full own starts v := by
  induction w with
  | nil => cases proper
  | cons b w ih =>
    rcases suffix_cons_iff.mp ends with isWhole | isShorter
    · rw [isWhole] at proper
      exact absurd proper (lt_irrefl _)
    have notCut : ¬ (w = [] ∧ starts b = true) := by
      rintro ⟨rfl, isStart⟩
      rw [noStart (suffix_nil.mp isShorter) b (suffix_refl _)] at isStart
      cases isStart
    rw [full, if_neg notCut]
    rcases lt_or_eq_of_le isShorter.length_le with shorter | isTail
    · have next := Nat.lt_succ_self w.length
      rw [ih isShorter shorter (fun u uEnds longer less =>
          empty u (uEnds.trans (suffix_cons b w)) longer (lt_trans less next))
        (fun isEmpty c cEnds => noStart isEmpty c (cEnds.trans (suffix_cons b w))),
        empty w (suffix_cons b w) shorter next, nil_append]
    · rw [isShorter.eq_of_length isTail]

theorem full_of_longest
    (ends : v <:+ w)
    (empty : ∀ u, u <:+ w → v.length < u.length → own u = [])
    (noStart : v = [] → ∀ b, [b] <:+ w → starts b = false) :
    full own starts w = full own starts v := by
  rcases lt_or_eq_of_le ends.length_le with proper | isWhole
  · rw [full_split w ends proper (fun u uEnds longer _ => empty u uEnds longer) noStart,
      empty w (suffix_refl w) proper, nil_append]
  · rw [ends.eq_of_length isWhole]

end

/-- The bytes that the root has children for. -/
def startsWord (base : AcRoot) (b : UInt8) : Bool := (base.trans 0 b).isSome

/-- The node of the longest word that ends a text. -/
structure Longest
    (base : AcRoot) (word : Nat → List UInt8) (text : List UInt8) (t : Nat) : Prop where
  valid : t ≤ base.acNodes
  ends : word t <:+ text
  longest : ∀ m, m ≤ base.acNodes → word m <:+ text → (word m).length ≤ (word t).length

/--
A failure link: a proper suffix, and no proper suffix with transitions is
longer.
-/
structure FailOk (base : AcRoot) (word : Nat → List UInt8) (n f : Nat) : Prop where
  valid : f ≤ base.acNodes
  ends : word f <:+ word n
  shorter : (word f).length < (word n).length
  longest : ∀ m, m ≤ base.acNodes → base.isLeaf m = false →
    word m <:+ word n → (word m).length < (word n).length →
    (word m).length ≤ (word f).length

/-- The transitions of a matcher while they are completed. -/
structure Tables (base root : AcRoot) (word : Nat → List UInt8) : Prop where
  nodes : root.acNodes = base.acNodes
  maxdepth : root.acMaxdepth = base.acMaxdepth
  pattable : root.acPattable = base.acPattable
  nextSame : root.nextSame = base.nextSame
  leaf : ∀ n, root.isLeaf n = base.isLeaf n
  keeps : ∀ {n c m}, base.trans n c = some m → root.trans n c = some m
  sound : ∀ {n c t}, root.trans n c = some t → Longest base word (word n ++ [c]) t
  start : ∀ c, ∃ t, root.trans 0 c = some t

section

variable {base root : AcRoot} {word : Nat → List UInt8}

theorem trans_of_isLeaf
    (isLeaf : base.isLeaf n = true)
    (c : UInt8) :
    base.trans n c = none := by
  unfold AcRoot.trans
  rw [Option.isNone_iff_eq_none.mp isLeaf]
  rfl

theorem table_of_edge
    {m : Nat}
    (edge : base.trans n c = some m) :
    base.isLeaf n = false := by
  refine Bool.eq_false_iff.mpr fun isLeaf => ?_
  rw [trans_of_isLeaf isLeaf] at edge
  cases edge

/-- A word that ends a text and one more byte is the word of a child by that byte. -/
theorem Words.parent_of_ends
    (words : Words base word)
    {m : Nat}
    (valid : m ≤ base.acNodes)
    (notRoot : m ≠ 0)
    (ends : word m <:+ u ++ [c]) :
    ∃ q, base.trans q c = some m ∧ q ≤ base.acNodes ∧ word m = word q ++ [c] ∧ word q <:+ u := by
  obtain ⟨q, d, edge⟩ := words.parent valid notRoot
  obtain ⟨qValid, -, mWord⟩ := words.child edge
  rw [mWord] at ends
  obtain ⟨qEnds, rfl⟩ := append_singleton_suffix_iff.mp ends
  exact ⟨q, edge, qValid, mWord, qEnds⟩

theorem Words.eq_root_of_ends
    (words : Words base word)
    {m : Nat}
    (valid : m ≤ base.acNodes)
    (missing : base.trans 0 c = none)
    (ends : word m <:+ word 0 ++ [c]) :
    m = 0 := by
  by_contra notRoot
  obtain ⟨q, edge, qValid, -, qEnds⟩ := words.parent_of_ends valid notRoot ends
  rw [words.start, suffix_nil] at qEnds
  rw [words.inj qValid (Nat.zero_le _) (qEnds.trans words.start.symm), missing] at edge
  cases edge

/--
Following the failure links from a node on leads to the longest suffix of its
word where the loop may stop, if all nodes on the way have their links.
-/
theorem climb_spec
    {stop : Nat → Bool}
    (words : Words base word)
    (stopTable : ∀ m, stop m = true → base.isLeaf m = false)
    (stopRoot : stop 0 = true)
    (fuel : Nat) :
    ∀ f, f ≤ base.acNodes → (word f).length < fuel →
      (∀ m, m ≤ base.acNodes → m ≠ 0 → (word m).length ≤ (word f).length →
        ∃ g, (root.node m).fail = some g ∧ FailOk base word m g) →
      ∃ g, climb root stop fuel f = some g ∧ g ≤ base.acNodes ∧ stop g = true ∧ word g <:+ word f ∧
          ∀ m, m ≤ base.acNodes → stop m = true → word m <:+ word f →
            (word m).length ≤ (word g).length := by
  induction fuel with
  | zero =>
    intro f _ enough
    cases enough
  | succ fuel ih =>
    intro f valid enough links
    rw [climb]
    split_ifs with stops
    · exact ⟨f, rfl, valid, stops, suffix_refl _, fun m _ _ ends => ends.length_le⟩
    have notRoot : f ≠ 0 := by
      rintro rfl
      exact stops stopRoot
    obtain ⟨f', link, failOk⟩ := links f valid notRoot (le_rfl)
    have shorter := failOk.shorter
    obtain ⟨g, climbs, gValid, gStops, gEnds, gLongest⟩ := ih f' failOk.valid (by omega)
        fun m mValid mNotRoot mShort => links m mValid mNotRoot (by omega)
    rw [link]
    refine ⟨g, climbs, gValid, gStops, gEnds.trans failOk.ends, ?_⟩
    intro m mValid mStops mEnds
    have proper : (word m).length < (word f).length := by
      refine lt_of_le_of_ne mEnds.length_le ?_
      intro sameLength
      have isF := words.inj mValid valid (mEnds.eq_of_length sameLength)
      rw [isF] at mStops
      exact stops mStops
    have below := failOk.longest m mValid (stopTable m mStops) mEnds proper
    exact gLongest m mValid mStops (List.suffix_of_suffix_length_le mEnds failOk.ends below)

/--
The target of the failure links: the longest word that ends the word of the
node and one more byte, apart from that whole text.
-/
theorem failTarget_spec
    (words : Words base word)
    (tables : Tables base root word)
    {f : Nat}
    (link : (root.node n).fail = some f)
    (failOk : FailOk base word n f)
    (links : ∀ m, m ≤ base.acNodes → m ≠ 0 → (word m).length < (word n).length →
      ∃ g, (root.node m).fail = some g ∧ FailOk base word m g) :
    ∃ t, failTarget root n c = some t ∧ t ≤ base.acNodes ∧
        word t <:+ word n ++ [c] ∧ (word t).length ≤ (word n).length ∧
        ∀ m, m ≤ base.acNodes → word m <:+ word n ++ [c] → (word m).length ≤ (word n).length →
          (word m).length ≤ (word t).length := by
  have leads_iff (m : Nat) : leads root c m = true ↔
        base.isLeaf m = false ∧ ∃ t, root.trans m c = some t := by
    unfold leads
    rw [tables.leaf, Bool.and_eq_true, Option.isSome_iff_exists]
    simp
  have shorter := failOk.shorter
  have room := words.depth failOk.valid
  obtain ⟨g, climbs, gValid, gLeads, gEnds, gLongest⟩ :=
    @climb_spec base root word (leads root c) words (fun m stops => ((leads_iff m).mp stops).1)
      ((leads_iff 0).mpr ⟨words.table, tables.start c⟩)
      (root.acMaxdepth + 1) f failOk.valid
      (by
        rw [tables.maxdepth]
        omega)
      (fun m mValid notRoot mShort => links m mValid notRoot (by omega))
  obtain ⟨t, edge⟩ := ((leads_iff g).mp gLeads).2
  have reached := tables.sound edge
  have gShorter := gEnds.length_le
  refine ⟨t, ?_, reached.valid, ?_, ?_, ?_⟩
  · unfold failTarget
    rw [link]
    simp only [climbs, edge]
  · exact reached.ends.trans (List.suffix_append_self_iff.mpr (gEnds.trans failOk.ends))
  · have tShort := reached.ends.length_le
    rw [length_append, length_singleton] at tShort
    omega
  intro m mValid mEnds mShort
  by_cases isRoot : m = 0
  · rw [isRoot, words.start]
    exact Nat.zero_le _
  obtain ⟨q, qEdge, qValid, mWord, qEnds⟩ := words.parent_of_ends mValid isRoot mEnds
  have qTable := table_of_edge qEdge
  have qShort : (word q).length < (word n).length := by
    rw [mWord, length_append, length_singleton] at mShort
    omega
  have qBelowF := failOk.longest q qValid qTable qEnds qShort
  have qEndsF := List.suffix_of_suffix_length_le qEnds failOk.ends qBelowF
  have qLeads := (leads_iff q).mpr ⟨qTable, m, tables.keeps qEdge⟩
  have qBelowG := gLongest q qValid qLeads qEndsF
  have qEndsG := List.suffix_of_suffix_length_le qEndsF gEnds qBelowG
  refine reached.longest m mValid ?_
  rw [mWord]
  exact List.suffix_append_self_iff.mpr qEndsG

end

/-- What all writes of the two passes leave alone. -/
structure SameTables (root later : AcRoot) : Prop where
  nodes : later.acNodes = root.acNodes
  maxdepth : later.acMaxdepth = root.acMaxdepth
  pattable : later.acPattable = root.acPattable
  nextSame : later.nextSame = root.nextSame
  trans : ∀ n, (later.node n).trans = (root.node n).trans

section

variable {root later : AcRoot} (same : SameTables root later)

include same

theorem SameTables.edge
    (n : Nat)
    (c : UInt8) :
    later.trans n c = root.trans n c :=
  congrArg (fun table => table.bind fun entries => entries c) (same.trans n)

theorem SameTables.leaf (n : Nat) : later.isLeaf n = root.isLeaf n :=
  congrArg Option.isNone (same.trans n)

/-- The transitions stay completed. -/
theorem Tables.of_same
    {base : AcRoot}
    {word : Nat → List UInt8}
    (tables : Tables base root word) :
    Tables base later word where
  nodes := same.nodes.trans tables.nodes
  maxdepth := same.maxdepth.trans tables.maxdepth
  pattable := same.pattable.trans tables.pattable
  nextSame := same.nextSame.trans tables.nextSame
  leaf := by simp only [same.leaf]; exact tables.leaf
  keeps := by simp only [same.edge]; exact tables.keeps
  sound := by simp only [same.edge]; exact tables.sound
  start := by simp only [same.edge]; exact tables.start

end

theorem setFail_sameTables
    (root : AcRoot)
    (n f : Nat) :
    SameTables root (root.setFail n f) :=
  ⟨rfl, rfl, rfl, rfl, root.setNode_keeps AcNode.trans fun _ => rfl⟩

/-- The effect of linking a child: its failure link, and its longer list. -/
structure Spliced (root later : AcRoot) (child target : Nat) (front back : List Nat) : Prop where
  tables : SameTables root later
  fail : (later.node child).fail = some target
  others : ∀ {n}, n ≠ child → later.node n = root.node n
  chain : Chain later.next (later.node child).list (front ++ back)
  frame : ∀ {link cells}, Chain root.next link cells →
    (∀ p ∈ cells, p ∉ front) → Chain later.next link cells

/-- The list of a failure link is appended. -/
theorem spliceList_spec
    {root : AcRoot}
    {child target : Nat}
    {front back : List Nat}
    (different : target ≠ child)
    (childChain : Chain root.next (root.node child).list front)
    (targetChain : Chain root.next (root.node target).list back)
    (nodup : front.Nodup)
    (disjoint : ∀ p ∈ back, p ∉ front)
    (enough : front.length ≤ root.acPattable.length) :
    ∃ later, spliceList (root.setFail child target) child target = some later ∧
        Spliced root later child target front back := by
  have childNode : (root.setFail child target).node child =
        { root.node child with fail := some target } :=
    root.node_setNode_self child _
  have otherNode {n : Nat} (other : n ≠ child) : (root.setFail child target).node n = root.node n :=
    root.node_setNode_of_ne _ other
  have linked := setFail_sameTables root child target
  unfold spliceList
  rw [childNode, otherNode different]
  cases front with
  | nil =>
    have empty : (root.node child).list = none := childChain
    refine ⟨_, by rw [empty], ?_⟩
    have writtenNode :
        ((root.setFail child target).setList child (root.node target).list).node child =
            { root.node child with
              fail := some target
              list := (root.node target).list } := by
      unfold AcRoot.setList
      rw [AcRoot.node_setNode_self, childNode]
    have writtenOther {n : Nat} (other : n ≠ child) : ((root.setFail child target).setList child
          (root.node target).list).node n = root.node n :=
      (AcRoot.node_setNode_of_ne _ _ other).trans (otherNode other)
    refine
      { tables := ⟨rfl, rfl, rfl, rfl, ?_⟩
        fail := by rw [writtenNode]
        others := writtenOther
        chain := ?_
        frame := fun isChain _ => isChain }
    · intro n
      by_cases isChild : n = child
      · rw [isChild, writtenNode]
      · rw [writtenOther isChild]
    · rw [writtenNode]
      exact targetChain
  | cons first rest =>
    obtain ⟨isFirst, isRest⟩ := childChain
    have lastCell := last_eq rest isRest enough
    have lastMember := List.getLast_mem (cons_ne_nil first rest)
    have found : last (root.setFail child target).next
          (root.setFail child target).acPattable.length first =
            some ((first :: rest).getLast (cons_ne_nil first rest)) :=
      lastCell
    refine ⟨_, by simp only [isFirst, found]; rfl, ?_⟩
    refine
      { tables := ⟨rfl, rfl, rfl, rfl, linked.trans⟩
        fail := ?_
        others := otherNode
        chain := ?_
        frame := ?_ }
    · show ((root.setFail child target).node child).fail = some target
      rw [childNode]
    · show Chain _ ((root.setFail child target).node child).list _
      rw [childNode]
      simp only [isFirst]
      exact targetChain.splice rest isRest nodup fun mem => disjoint _ mem lastMember
    · intro link cells isChain outside
      exact isChain.update _ cells fun mem => outside _ mem lastMember

/--
The state of the first pass: the nodes in `Seen` have their failure links and
complete lists, and the leaves in `Short` have shortened links.
-/
structure Linked (base root : AcRoot) (word : Nat → List UInt8) (own : List UInt8 → List Nat)
    (Seen Short : Nat → Prop) : Prop where
  tables : Tables base root word
  same : ∀ {n}, n ≠ 0 → ∀ c, root.trans n c = base.trans n c
  fails : ∀ {n}, Seen n → ∃ f, (root.node n).fail = some f ∧ FailOk base word n f
  short : ∀ {n f}, Short n → base.isLeaf n = true →
    (root.node n).fail = some f → base.isLeaf f = false
  seen : ∀ {n}, n ≤ base.acNodes → Seen n → Chain root.next (root.node n).list
      (full own (startsWord base) (word n))
  unseen : ∀ {n}, n ≤ base.acNodes → ¬ Seen n → Chain root.next (root.node n).list (own (word n))

/-- A child gets its failure link and list. -/
theorem linkChild_spec
    {base root : AcRoot}
    {word : Nat → List UInt8}
    {own : List UInt8 → List Nat}
    {group : Nat → List Nat}
    {Seen Short : Nat → Prop}
    {m : Nat}
    (inv : AcInv base word own group)
    (linked : Linked base root word own Seen Short)
    (rootUnseen : ¬ Seen 0)
    (shortSeen : ∀ k, Short k → Seen k)
    (nSeen : Seen n)
    (edge : base.trans n c = some m)
    (fresh : ¬ Seen m)
    (above : ∀ k, k ≤ base.acNodes → k ≠ 0 → (word k).length ≤ (word n).length → Seen k)
    (below : ∀ k, Seen k → (word k).length ≤ (word m).length) :
    ∃ later, linkChild root n c m = some later ∧
        Linked base later word own (fun k => Seen k ∨ k = m) Short := by
  obtain ⟨nValid, mValid, mWord⟩ := inv.words.child edge
  have mLength : (word m).length = (word n).length + 1 := by
    rw [mWord, length_append, length_singleton]
  obtain ⟨f, link, failOk⟩ := linked.fails nSeen
  obtain ⟨t, target, tValid, tEnds, tShort, tLongest⟩ :=
    failTarget_spec inv.words linked.tables (c := c) link failOk fun k kValid notRoot kShort =>
        linked.fails (above k kValid notRoot (le_of_lt kShort))
  rw [← mWord] at tEnds tLongest
  have different : t ≠ m := by
    rintro rfl
    omega
  have targetChain : Chain root.next (root.node t).list (full own (startsWord base) (word t)) := by
    by_cases isRoot : t = 0
    · have rootChain := linked.unseen (Nat.zero_le _) rootUnseen
      rw [inv.words.start] at rootChain
      rw [isRoot, inv.words.start, full]
      exact rootChain
    · exact linked.seen tValid (above t tValid isRoot tShort)
  -- the word of `m` differs from the words of the patterns of other nodes
  have onlyHere {w : List UInt8} {p : Nat} (here : p ∈ own (word m))
      (there : p ∈ own w) : w = word m := by
    rw [← inv.lists.key here, ← inv.lists.key there]
  have notInFull {k : Nat} (kValid : k ≤ base.acNodes)
      (other : k ≠ m) (short : (word k).length ≤ (word m).length) :
      ∀ p ∈ full own (startsWord base) (word k), p ∉ own (word m) := by
    intro p inFull here
    obtain ⟨u, uEnds, there⟩ := own_of_mem_full inFull
    rw [onlyHere here there] at uEnds
    have sameWord := uEnds.eq_of_length (le_antisymm uEnds.length_le short)
    exact other (inv.words.inj kValid mValid sameWord.symm)
  have nonempty : (word n).length ≠ 0 := by
    intro isEmpty
    have isRoot := inv.words.inj nValid (Nat.zero_le _)
      ((List.length_eq_zero_iff.mp isEmpty).trans inv.words.start.symm)
    rw [isRoot] at nSeen
    exact rootUnseen nSeen
  have split : full own (startsWord base) (word m) =
        own (word m) ++ full own (startsWord base) (word t) := by
    refine full_split _ tEnds (by omega) ?_ ?_
    · intro u uEnds longer proper
      refine List.eq_nil_iff_forall_not_mem.mpr fun p mem => ?_
      obtain ⟨k, kValid, kWord⟩ := inv.lists.located mem
      rw [← kWord] at uEnds longer proper
      have notLonger := tLongest k kValid uEnds (by omega)
      omega
    intro isEmpty b bEnds
    refine Bool.eq_false_iff.mpr fun isStart => ?_
    obtain ⟨k, bEdge⟩ := Option.isSome_iff_exists.mp isStart
    obtain ⟨-, kValid, kWord⟩ := inv.words.child bEdge
    rw [inv.words.start, nil_append] at kWord
    rw [← kWord] at bEnds
    have notLonger := tLongest k kValid bEnds (by
      rw [kWord, length_singleton]
      omega)
    rw [isEmpty, kWord] at notLonger
    cases notLonger
  have enough : (own (word m)).length ≤ root.acPattable.length := by
    rw [linked.tables.pattable]
    exact length_le_of_nodup (inv.lists.nodup _) fun p mem => inv.lists.valid mem
  obtain ⟨later, splices, spliced⟩ := spliceList_spec different
    (linked.unseen mValid fresh) targetChain (inv.lists.nodup _)
    (notInFull tValid different (by omega)) enough
  refine ⟨later, ?_, ?_⟩
  · unfold linkChild
    rw [target]
    exact splices
  have newFail : FailOk base word m t := by
    refine ⟨tValid, tEnds, by omega, ?_⟩
    intro k kValid _ kEnds kShort
    exact tLongest k kValid kEnds (by omega)
  refine
    { tables := linked.tables.of_same spliced.tables
      same := ?_
      fails := ?_
      short := ?_
      seen := ?_
      unseen := ?_ }
  · exact fun notRoot d => (spliced.tables.edge _ d).trans (linked.same notRoot d)
  · rintro k (kSeen | isM)
    · have other : k ≠ m := by
        rintro rfl
        exact fresh kSeen
      rw [spliced.others other]
      exact linked.fails kSeen
    · rw [isM]
      exact ⟨t, spliced.fail, newFail⟩
  · intro k g kShort kLeaf kLink
    have other : k ≠ m := by
      rintro rfl
      exact fresh (shortSeen k kShort)
    rw [spliced.others other] at kLink
    exact linked.short kShort kLeaf kLink
  · rintro k kValid (kSeen | isM)
    · have other : k ≠ m := by
        rintro rfl
        exact fresh kSeen
      rw [spliced.others other]
      exact spliced.frame (linked.seen kValid kSeen) (notInFull kValid other (below k kSeen))
    · rw [isM, split]
      exact spliced.chain
  · intro k kValid kUnseen
    have other : k ≠ m := fun isM => kUnseen (.inr isM)
    rw [spliced.others other]
    refine spliced.frame (linked.unseen kValid fun kSeen => kUnseen (.inl kSeen)) ?_
    intro p there here
    exact other (inv.words.inj kValid mValid (onlyHere here there))

end LibClamav.Ac
