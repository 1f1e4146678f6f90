import LibClamav.AcTrie
import Mathlib.Data.List.Perm.Subperm

namespace LibClamav.Ac

open LinkedChain List Function

/-!
# The lists and groups of the loaded patterns

The list of a node holds the patterns whose leading bytes are its word, the
newest first, except for those that have joined the group of another pattern.
The groups are the chains of `next_same` from the patterns of the lists on.
-/

variable {w : List UInt8} {n : Nat} {added : AcRoot}

/-- Cells without repetition are no more than their bound. -/
theorem length_le_of_nodup
    {cells : List Nat}
    {bound : Nat}
    (nodup : cells.Nodup)
    (below : ∀ p ∈ cells, p < bound) :
    cells.length ≤ bound := by
  have inRange : cells ⊆ range bound := fun p mem => mem_range.mpr (below p mem)
  have shorter := (subperm_of_subset nodup inRange).length_le
  rw [length_range] at shorter
  exact shorter

theorem mem_update_cons_iff
    {α β : Type}
    [DecidableEq α]
    {f : α → List β}
    {a x : α}
    {b y : β} :
    y ∈ update f a (b :: f a) x ↔ y ∈ f x ∨ x = a ∧ y = b := by
  rw [update_apply]
  split_ifs with isHere
  · simp [isHere, or_comm]
  · simp [isHere]

variable {p : Nat} {ph : AcPatt}

theorem AcRoot.patt_eq_getElem
    (root : AcRoot)
    (inside : p < root.acPattable.length) :
    root.patt p = root.acPattable[p] := by
  unfold AcRoot.patt
  rw [getD_eq_getElem?_getD, getElem?_eq_getElem inside]
  rfl

/-- The lists of the nodes: `own w` holds the patterns of the word `w`. -/
structure Lists (root : AcRoot) (word : Nat → List UInt8) (own : List UInt8 → List Nat) : Prop where
  chain : ∀ {n}, n ≤ root.acNodes → Chain root.next (root.node n).list (own (word n))
  nodup : ∀ w, (own w).Nodup
  valid : ∀ {w p}, p ∈ own w → p < root.acPattable.length
  key : ∀ {w p}, p ∈ own w → acKey root.acMaxdepth (root.patt p) = w
  located : ∀ {w p}, p ∈ own w → ∃ n, n ≤ root.acNodes ∧ word n = w
  mindepth : ∀ {w p}, p ∈ own w → root.acMindepth ≤ w.length
  depth : ∀ {p}, p < root.acPattable.length →
    (root.patt p).depth = (acKey root.acMaxdepth (root.patt p)).length

/-- A leaf is the end of some pattern. -/
def LeavesFinal
    (root : AcRoot)
    (word : Nat → List UInt8)
    (own : List UInt8 → List Nat) :
    Prop :=
  ∀ {n}, n ≤ root.acNodes → root.isLeaf n = true → own (word n) ≠ []

/-- The groups: `group p` is the chain of `next_same` from the head `p` on. -/
structure Groups (root : AcRoot) (own : List UInt8 → List Nat) (group : Nat → List Nat) : Prop where
  chain : ∀ {w p}, p ∈ own w → Chain root.nextSame (some p) (group p)
  nodup : ∀ {w p}, p ∈ own w → (group p).Nodup
  valid : ∀ {w p q}, p ∈ own w → q ∈ group p → q < root.acPattable.length
  same : ∀ {w p q}, p ∈ own w → q ∈ group p →
    q = p ∨ samePatt (root.patt p) (root.patt q) = some true
  disjoint : ∀ {v w p q r}, p ∈ own v → q ∈ own w → r ∈ group p → r ∈ group q → p = q
  covers : ∀ {q}, q < root.acPattable.length → ∃ w p, p ∈ own w ∧ q ∈ group p
  fresh : ∀ q, root.acPattable.length ≤ q → root.nextSame q = none

/-- What holds of a matcher that patterns have been loaded into. -/
structure AcInv (root : AcRoot) (word : Nat → List UInt8) (own : List UInt8 → List Nat)
    (group : Nat → List Nat) : Prop where
  words : Words root word
  lists : Lists root word own
  final : LeavesFinal root word own
  prefixes : ∀ {n}, n ≤ root.acNodes → n ≠ 0 → ∃ w p, p ∈ own w ∧ word n <+: w
  separate : ∀ {w p q}, p ∈ own w → q ∈ own w → p ≠ q →
    samePatt (root.patt p) (root.patt q) ≠ some true
  groups : Groups root own group

/-- The comparison of special elements is exact for fewer than 256. -/
theorem sameSpecials_true_iff
    {a b : List Special} :
    sameSpecials a b = some true ↔ a = b ∧ a.length < 256 := by
  unfold sameSpecials
  split_ifs with lengths begins few
  · exact ⟨nofun,
      fun ⟨same, _⟩ => absurd (congrArg length same) lengths⟩
  · refine ⟨fun _ => ⟨?_, few⟩, fun _ => rfl⟩
    rw [take_of_length_le (le_of_lt few), take_of_length_le (le_of_lt (not_not.mp lengths ▸ few))]
      at begins
    exact begins
  · exact ⟨nofun, fun ⟨_, isFew⟩ => absurd isFew few⟩
  · exact ⟨nofun,
      fun ⟨same, _⟩ => absurd (congrArg (take 256) same) begins⟩

/-- What the comparison of two patterns looks at. -/
theorem samePatt_true_iff
    {patt : AcPatt} :
    samePatt ph patt = some true ↔ ph.pattern = patt.pattern ∧ ph.prefixPat = patt.prefixPat ∧
        ph.anchorLeft.ch = patt.anchorLeft.ch ∧ ph.anchorRight.ch = patt.anchorRight.ch ∧
        ph.specialTable = patt.specialTable ∧ ph.specialTable.length < 256 := by
  unfold samePatt
  split_ifs with lengths texts
  · rw [sameSpecials_true_iff]
    exact ⟨fun ⟨specials, few⟩ => ⟨texts.1, texts.2, lengths.2.2.1, lengths.2.2.2, specials, few⟩,
      fun same => same.2.2.2.2⟩
  · exact ⟨nofun, fun same => absurd ⟨same.1, same.2.1⟩ texts⟩
  · refine ⟨nofun, fun same => ?_⟩
    obtain ⟨patterns, prefixes, left, right, -⟩ := same
    exact absurd ⟨congrArg length patterns, congrArg length prefixes, left, right⟩ lengths

/-- The comparison does not depend on the order. -/
theorem samePatt_symm
    {patt : AcPatt}
    (same : samePatt ph patt = some true) :
    samePatt patt ph = some true := by
  obtain ⟨patterns, prefixes, left, right, specials, few⟩ := samePatt_true_iff.mp same
  exact samePatt_true_iff.mpr ⟨patterns.symm, prefixes.symm, left.symm,
    right.symm, specials.symm, specials ▸ few⟩

theorem samePatt_trans
    {a b c : AcPatt}
    (first : samePatt a b = some true)
    (second : samePatt b c = some true) :
    samePatt a c = some true := by
  obtain ⟨patterns, prefixes, left, right, specials, few⟩ := samePatt_true_iff.mp first
  obtain ⟨patterns', prefixes', left', right', specials', -⟩ := samePatt_true_iff.mp second
  exact samePatt_true_iff.mpr ⟨patterns.trans patterns',
    prefixes.trans prefixes', left.trans left', right.trans right',
    specials.trans specials', few⟩

variable {root : AcRoot} {own : List UInt8 → List Nat} {group : Nat → List Nat}

/-- The head of a group comes first in it. -/
theorem Groups.eq_cons
    (groups : Groups root own group)
    (isHead : p ∈ own w) :
    ∃ rest, group p = p :: rest ∧ Chain root.nextSame (root.nextSame p) rest := by
  have isChain := groups.chain isHead
  cases members : group p with
  | nil =>
    rw [members] at isChain
    cases isChain
  | cons first rest =>
    rw [members] at isChain
    obtain ⟨isFirst, isRest⟩ := isChain
    cases isFirst
    exact ⟨rest, rfl, isRest⟩

/-- An empty matcher has the invariant. -/
theorem cliAcInit_inv
    (type mindepth maxdepth : Nat)
    (dconfPrefiltering : Bool) :
    AcInv (cliAcInit (freshRoot type) mindepth maxdepth dconfPrefiltering)
      (fun _ => []) (fun _ => []) (fun _ => []) := by
  have noEdge (n : Nat) (c : UInt8) :
      (cliAcInit (freshRoot type) mindepth maxdepth dconfPrefiltering).trans n c = none := by
    unfold AcRoot.trans cliAcInit
    by_cases isRoot : n = 0
    · subst isRoot
      simp only [update_self, Option.bind_some]
    · simp only [update_of_ne isRoot]
      rfl
  exact
    { words :=
        { start := rfl
          inj := fun mNode nNode _ => by rw [Nat.le_zero.mp mNode, Nat.le_zero.mp nNode]
          child := fun leads => by rw [noEdge] at leads; cases leads
          parent := fun isNode notRoot => absurd (Nat.le_zero.mp isNode) notRoot
          table := rfl
          fresh := fun n outside => by
            have notRoot : n ≠ 0 := ne_of_gt outside
            unfold cliAcInit
            simp only [update_of_ne notRoot]
            rfl
          depth := fun _ => Nat.zero_le _ }
      lists :=
        { chain := fun isNode => by rw [Nat.le_zero.mp isNode]; rfl
          nodup := fun _ => nodup_nil
          valid := nofun
          key := nofun
          located := nofun
          mindepth := nofun
          depth := fun inside => nomatch inside }
      final := fun isNode isLeaf => by rw [Nat.le_zero.mp isNode] at isLeaf; cases isLeaf
      prefixes := fun isNode notRoot => absurd (Nat.le_zero.mp isNode) notRoot
      separate := nofun
      groups :=
        { chain := nofun
          nodup := nofun
          valid := nofun
          same := nofun
          disjoint := nofun
          covers := nofun
          fresh := fun _ _ => rfl } }

/-- The search finds a pattern that compares equal if there is one. -/
theorem findSame_spec
    (root : AcRoot)
    (patt : AcPatt)
    (cells : List Nat)
    {link : Option Nat}
    {fuel : Nat}
    (isChain : Chain root.next link cells)
    (enough : cells.length ≤ fuel) :
    (∀ ph, findSame root patt fuel link = some (some ph) →
        ph ∈ cells ∧ samePatt (root.patt ph) patt = some true) ∧
      (findSame root patt fuel link = some none →
        ∀ ph ∈ cells, samePatt (root.patt ph) patt = some false) ∧
      (findSame root patt fuel link = none →
        ∃ ph ∈ cells, samePatt (root.patt ph) patt = none) := by
  induction cells generalizing link fuel with
  | nil =>
    cases isChain
    cases fuel with
    | zero | succ fuel =>
      exact ⟨nofun,
        nofun, nofun⟩
  | cons cell rest ih =>
    obtain ⟨rfl, isRest⟩ := isChain
    cases fuel with
    | zero => cases enough
    | succ fuel =>
      obtain ⟨found, misses, hangs⟩ := ih isRest (Nat.le_of_succ_le_succ enough)
      rw [findSame]
      cases test : samePatt (root.patt cell) patt with
      | none =>
        exact ⟨nofun, nofun,
          fun _ => ⟨cell, mem_cons_self, test⟩⟩
      | some same =>
        cases same with
        | true =>
          refine ⟨?_, nofun, nofun⟩
          intro ph result
          cases result
          exact ⟨mem_cons_self, test⟩
        | false =>
          refine ⟨?_, ?_, ?_⟩
          · intro ph result
            obtain ⟨mem, same⟩ := found ph result
            exact ⟨mem_cons_of_mem _ mem, same⟩
          · intro result ph mem
            rcases mem_cons.mp mem with isFirst | isLater
            · rw [isFirst]
              exact test
            · exact misses result ph isLater
          · intro result
            obtain ⟨ph, mem, same⟩ := hangs result
            exact ⟨ph, mem_cons_of_mem _ mem, same⟩

section

variable {root later : AcRoot} {word laterWord : Nat → List UInt8}
variable {own : List UInt8 → List Nat} {group : Nat → List Nat}
variable {target : List UInt8} {pt : Nat}

theorem SameLists.patt
    (same : SameLists root later)
    (p : Nat) :
    later.patt p = root.patt p := by
  unfold AcRoot.patt
  rw [same.pattable]

/-- Walking down a word changes no list. -/
theorem Walked.lists
    (walked : Walked root word target later laterWord pt)
    (words : Words root word)
    (lists : Lists root word own) :
    Lists later laterWord own := by
  have same := walked.same
  -- the word of a new node has no patterns yet
  have newEmpty {n : Nat} (isNode : n ≤ later.acNodes)
      (isNew : root.acNodes < n) : own (laterWord n) = [] := by
    refine eq_nil_iff_forall_not_mem.mpr fun p mem => ?_
    obtain ⟨m, isOld, mWord⟩ := lists.located mem
    rw [← walked.oldWords isOld] at mWord
    have isOldToo := walked.words.inj (le_trans isOld walked.grows) isNode mWord
    omega
  exact
    { chain := fun {n} isNode => by
        rw [same.next, same.list]
        by_cases isOld : n ≤ root.acNodes
        · rw [walked.oldWords isOld]
          exact lists.chain isOld
        · rw [newEmpty isNode (not_le.mp isOld), words.fresh n (not_le.mp isOld)]
          rfl
      nodup := lists.nodup
      valid := by rw [same.pattable]; exact lists.valid
      key := by simp only [same.maxdepth, same.patt]; exact lists.key
      located := fun mem => by
        obtain ⟨n, isOld, nWord⟩ := lists.located mem
        exact ⟨n, le_trans isOld walked.grows, (walked.oldWords isOld).trans nWord⟩
      mindepth := by rw [same.mindepth]; exact lists.mindepth
      depth := by simp only [same.pattable, same.maxdepth, same.patt]; exact lists.depth }

/-- Nor does it change a group. -/
theorem SameLists.groups
    (same : SameLists root later)
    (groups : Groups root own group) :
    Groups later own group :=
  { groups with
    chain := by rw [same.nextSame]; exact groups.chain
    valid := by rw [same.pattable]; exact groups.valid
    same := by simp only [same.patt]; exact groups.same
    covers := by rw [same.pattable]; exact groups.covers
    fresh := by simp only [same.pattable, same.nextSame]; exact groups.fresh }

theorem pushPatt_patt_of_lt
    (root : AcRoot)
    (placed : AcPatt)
    (old : p < root.acPattable.length) :
    (pushPatt root placed).patt p = root.patt p := by
  simp only [AcRoot.patt, pushPatt, getD_eq_getElem?_getD, getElem?_append_left old]

theorem pushPatt_patt_self
    (root : AcRoot)
    (placed : AcPatt) :
    (pushPatt root placed).patt root.acPattable.length = placed := by
  simp [AcRoot.patt, pushPatt, getD_eq_getElem?_getD]

theorem lt_pushPatt_iff
    {placed : AcPatt} :
    p < (pushPatt root placed).acPattable.length ↔
      p < root.acPattable.length ∨ p = root.acPattable.length := by
  rw [show (pushPatt root placed).acPattable.length = root.acPattable.length + 1 from length_append,
    Nat.lt_succ_iff_lt_or_eq]

/-- A new pattern alone is in no list. -/
theorem pushPatt_lists
    {placed : AcPatt}
    (lists : Lists root word own)
    (depth : placed.depth = (acKey root.acMaxdepth placed).length) :
    Lists (pushPatt root placed) word own :=
  { lists with
    valid := fun mem => lt_pushPatt_iff.mpr (.inl (lists.valid mem))
    key := fun mem => by
      rw [pushPatt_patt_of_lt root placed (lists.valid mem)]
      exact lists.key mem
    depth := fun inside => by
      rcases lt_pushPatt_iff.mp inside with old | isNew
      · rw [pushPatt_patt_of_lt root placed old]
        exact lists.depth old
      · rw [isNew, pushPatt_patt_self]
        exact depth }

/--
One more pattern in the group of `h`, which is an old head that agrees with it or the
new pattern itself.
-/
theorem Groups.extend
    {placed : AcPatt}
    {own' : List UInt8 → List Nat}
    {group' : Nat → List Nat}
    {h : Nat}
    (lists : Lists root word own)
    (groups : Groups root own group)
    (pattable : later.acPattable = (pushPatt root placed).acPattable)
    (keeps : ∀ {v p}, p ∈ own v → p ∈ own' v)
    (isHead : h ∈ own' w)
    (same : h = root.acPattable.length ∨
      h < root.acPattable.length ∧ samePatt (root.patt h) placed = some true)
    (member_iff : ∀ {v p q}, p ∈ own' v →
      (q ∈ group' p ↔ p ∈ own v ∧ q ∈ group p ∨ p = h ∧ q = root.acPattable.length))
    (chain : ∀ {v p}, p ∈ own' v → Chain later.nextSame (some p) (group' p))
    (nodup : ∀ {v p}, p ∈ own' v → (group' p).Nodup)
    (fresh : ∀ q, root.acPattable.length < q → later.nextSame q = none) :
    Groups later own' group' := by
  have old {v : List UInt8} {p : Nat} (pHead : p ∈ own v) : root.acPattable.length ∉ group p :=
    fun mem => lt_irrefl _ (groups.valid pHead mem)
  have patt (p : Nat) : later.patt p = (pushPatt root placed).patt p := by
    unfold AcRoot.patt
    rw [pattable]
  refine
    { chain := chain
      nodup := nodup
      valid := fun pHead mem => ?_
      same := fun {v p q} pHead mem => ?_
      disjoint := fun pHead qHead pMember qMember => ?_
      covers := fun inside => ?_
      fresh := fun q outside => ?_ }
  · rw [pattable, lt_pushPatt_iff]
    exact ((member_iff pHead).mp mem).imp (fun isOld => groups.valid isOld.1 isOld.2) And.right
  · rw [patt, patt]
    rcases (member_iff pHead).mp mem with ⟨pOld, isOld⟩ | ⟨rfl, rfl⟩
    · rw [pushPatt_patt_of_lt root placed (lists.valid pOld),
        pushPatt_patt_of_lt root placed (groups.valid pOld isOld)]
      exact groups.same pOld isOld
    rcases same with isNew | ⟨inside, agrees⟩
    · exact .inl isNew.symm
    · rw [pushPatt_patt_self, pushPatt_patt_of_lt root placed inside]
      exact .inr agrees
  · rcases (member_iff pHead).mp pMember with ⟨pOld, inP⟩ | ⟨pIs, pNew⟩
    · rcases (member_iff qHead).mp qMember with ⟨qOld, inQ⟩ | ⟨-, qNew⟩
      · exact groups.disjoint pOld qOld inP inQ
      · exact absurd (qNew ▸ inP) (old pOld)
    · rcases (member_iff qHead).mp qMember with ⟨qOld, inQ⟩ | ⟨qIs, -⟩
      · exact absurd (pNew ▸ inQ) (old qOld)
      · rw [pIs, qIs]
  · rw [pattable, lt_pushPatt_iff] at inside
    rcases inside with isOld | isNew
    · obtain ⟨v, p, pHead, mem⟩ := groups.covers isOld
      exact ⟨v, p, keeps pHead, (member_iff (keeps pHead)).mpr (.inl ⟨pHead, mem⟩)⟩
    · exact ⟨w, h, isHead, (member_iff isHead).mpr (.inr ⟨rfl, isNew⟩)⟩
  · rw [pattable, ← not_lt, lt_pushPatt_iff] at outside
    exact fresh q (by omega)

/-- A group after a pattern has joined it. -/
def joined (group : Nat → List Nat) (ph k : Nat) : Nat → List Nat :=
  update group ph (ph :: k :: (group ph).tail)

/-- A pattern joins the group of an equal one. -/
theorem joinGroup_groups
    {placed : AcPatt}
    {ph : Nat}
    (lists : Lists root word own)
    (groups : Groups root own group)
    (isHead : ph ∈ own w)
    (same : samePatt (root.patt ph) placed = some true) :
    Groups (joinGroup (pushPatt root placed) ph root.acPattable.length) own
      (joined group ph root.acPattable.length) := by
  obtain ⟨rest, members, isRest⟩ := groups.eq_cons isHead
  have headBelow := lists.valid isHead
  have notHead : root.acPattable.length ≠ ph := ne_of_gt headBelow
  have newGroup : joined group ph root.acPattable.length ph =
      ph :: root.acPattable.length :: rest := by
    rw [joined, update_self, members, tail_cons]
  have oldGroup {p : Nat} (other : p ≠ ph) : joined group ph root.acPattable.length p = group p :=
    update_of_ne other _ _
  have nodup := groups.nodup isHead
  rw [members] at nodup
  have old {v : List UInt8} {p : Nat} (pHead : p ∈ own v) : root.acPattable.length ∉ group p :=
    fun mem => lt_irrefl _ (groups.valid pHead mem)
  have notInRest : root.acPattable.length ∉ rest := by
    intro mem
    refine old isHead ?_
    rw [members]
    exact mem_cons_of_mem _ mem
  refine groups.extend lists rfl id isHead (.inr ⟨headBelow, same⟩) (fun {v p q} pHead => ?_)
    (fun {v p} pHead => ?_) (fun {v p} pHead => ?_) fun q outside => ?_
  · by_cases isPh : p = ph
    · subst isPh
      rw [newGroup, members]
      simp only [mem_cons, pHead, true_and]
      tauto
    · rw [oldGroup isPh]
      simp [isPh, pHead]
  · by_cases isPh : p = ph
    · subst isPh
      rw [newGroup]
      refine ⟨rfl, update_self _ _ _, ?_⟩
      have link :
          (joinGroup (pushPatt root placed) p root.acPattable.length).nextSame
            root.acPattable.length = root.nextSame p :=
        (update_of_ne notHead _ _).trans (update_self _ _ _)
      rw [link]
      exact (isRest.update _ rest notInRest).update _ rest (nodup_cons.mp nodup).1
    · rw [oldGroup isPh]
      have phOutside : ph ∉ group p := by
        intro mem
        refine isPh (groups.disjoint pHead isHead mem ?_)
        rw [members]
        exact mem_cons_self
      exact ((groups.chain pHead).update _ _ (old pHead)).update _ _ phOutside
  · by_cases isPh : p = ph
    · subst isPh
      rw [newGroup]
      obtain ⟨headFresh, restNodup⟩ := nodup_cons.mp nodup
      refine nodup_cons.mpr ⟨?_, nodup_cons.mpr ⟨notInRest, restNodup⟩⟩
      exact not_mem_cons_of_ne_of_not_mem notHead.symm headFresh
    · rw [oldGroup isPh]
      exact groups.nodup pHead
  · refine (update_of_ne (by omega) _ _).trans ((update_of_ne (by omega) _ _).trans ?_)
    exact groups.fresh q (by omega)

theorem pushList_node_self
    (root : AcRoot)
    (n k : Nat) :
    (pushList root n k).node n = { root.node n with list := some k } := by
  unfold pushList AcRoot.setList
  rw [AcRoot.node_setNode_self]

theorem pushList_node_of_ne
    (root : AcRoot)
    {m : Nat}
    (k : Nat)
    (different : m ≠ n) :
    (pushList root n k).node m = root.node m := by
  unfold pushList AcRoot.setList
  rw [AcRoot.node_setNode_of_ne _ _ different]

/-- A pattern becomes the first one of its node. -/
theorem pushList_lists
    {placed : AcPatt}
    (words : Words root word)
    (lists : Lists root word own)
    (valid : pt ≤ root.acNodes)
    (depth : placed.depth = (acKey root.acMaxdepth placed).length)
    (key : acKey root.acMaxdepth placed = word pt)
    (longEnough : root.acMindepth ≤ (word pt).length) :
    Lists (pushList (pushPatt root placed) pt root.acPattable.length) word
      (update own (word pt) (root.acPattable.length :: own (word pt))) := by
  have pushed := pushPatt_lists lists depth
  have old (w : List UInt8) : root.acPattable.length ∉ own w :=
    fun mem => lt_irrefl _ (lists.valid mem)
  exact
    { chain := fun {n} isNode => by
        by_cases isPt : n = pt
        · subst isPt
          rw [update_self, pushList_node_self]
          have link :
              (pushList (pushPatt root placed) n root.acPattable.length).next
                root.acPattable.length = (root.node n).list :=
            update_self _ _ _
          refine ⟨rfl, ?_⟩
          rw [link]
          exact (lists.chain isNode).update _ _ (old _)
        · have otherWord : word n ≠ word pt :=
            fun same => isPt (words.inj isNode valid same)
          rw [update_of_ne otherWord, pushList_node_of_ne _ _ isPt]
          exact (lists.chain isNode).update _ _ (old _)
      nodup := fun w => by
        by_cases isHere : w = word pt
        · rw [isHere, update_self]
          exact nodup_cons.mpr ⟨old _, lists.nodup _⟩
        · rw [update_of_ne isHere]
          exact lists.nodup w
      valid := fun mem => lt_pushPatt_iff.mpr <|
        (mem_update_cons_iff.mp mem).imp lists.valid And.right
      key := fun {w p} mem => by
        show acKey root.acMaxdepth ((pushPatt root placed).patt p) = w
        rcases mem_update_cons_iff.mp mem with isOld | ⟨isHere, isNew⟩
        · exact pushed.key isOld
        · rw [isNew, pushPatt_patt_self, key, isHere]
      located := fun mem => by
        rcases mem_update_cons_iff.mp mem with isOld | ⟨isHere, -⟩
        · exact lists.located isOld
        · exact ⟨pt, valid, isHere.symm⟩
      mindepth := fun mem => by
        rcases mem_update_cons_iff.mp mem with isOld | ⟨isHere, -⟩
        · exact lists.mindepth isOld
        · rw [isHere]
          exact longEnough
      depth := pushed.depth }

/-- There it is the head of a group of its own. -/
theorem pushList_groups
    {placed : AcPatt}
    (lists : Lists root word own)
    (groups : Groups root own group) :
    Groups (pushList (pushPatt root placed) pt root.acPattable.length)
      (update own w (root.acPattable.length :: own w))
      (update group root.acPattable.length [root.acPattable.length]) := by
  have newGroup : update group root.acPattable.length [root.acPattable.length]
        root.acPattable.length = [root.acPattable.length] :=
    update_self _ _ _
  have oldGroup {v : List UInt8} {p : Nat} (pHead : p ∈ own v) :
      update group root.acPattable.length [root.acPattable.length] p = group p :=
    update_of_ne (ne_of_lt (lists.valid pHead)) _ _
  have notOld (v : List UInt8) : root.acPattable.length ∉ own v :=
    fun mem => lt_irrefl _ (lists.valid mem)
  -- a head is an old one with its group, or the new one alone
  have head_cases {v : List UInt8} {p : Nat}
      (mem : p ∈ update own w (root.acPattable.length :: own w) v) :
      p ∈ own v ∨ p = root.acPattable.length :=
    (mem_update_cons_iff.mp mem).imp_right And.right
  refine groups.extend lists rfl (fun pHead => mem_update_cons_iff.mpr (.inl pHead))
    (mem_update_cons_iff.mpr (.inr ⟨rfl, rfl⟩)) (.inl rfl) (fun {v p q} pHead => ?_)
    (fun pHead => ?_) (fun pHead => ?_) fun q outside => groups.fresh q (le_of_lt outside)
  · rcases head_cases pHead with isOld | isNew
    · rw [oldGroup isOld]
      simp [isOld, ne_of_lt (lists.valid isOld)]
    · rw [isNew, newGroup]
      simp [notOld]
  · rcases head_cases pHead with isOld | isNew
    · rw [oldGroup isOld]
      exact groups.chain isOld
    · rw [isNew, newGroup]
      exact ⟨rfl, groups.fresh _ (le_rfl)⟩
  · rcases head_cases pHead with isOld | isNew
    · rw [oldGroup isOld]
      exact groups.nodup isOld
    · rw [isNew, newGroup]
      exact nodup_singleton _

end

variable {word : Nat → List UInt8} (patts : List AcPatt)

/-- The words belong to the nodes and transitions only. -/
theorem Words.of_same_nodes
    {later : AcRoot}
    (words : Words root word)
    (nodes : later.acNodes = root.acNodes)
    (maxdepth : later.acMaxdepth = root.acMaxdepth)
    (table : ∀ n, (later.node n).trans = (root.node n).trans)
    (outside : ∀ n, root.acNodes < n → later.node n = root.node n) :
    Words later word := by
  have sameTrans (n : Nat) (c : UInt8) : later.trans n c = root.trans n c := by
    unfold AcRoot.trans
    rw [table]
  exact
    { start := words.start
      inj := by rw [nodes]; exact words.inj
      child := by simp only [sameTrans, nodes]; exact words.child
      parent := by simp only [sameTrans, nodes]; exact words.parent
      table := by rw [AcRoot.isLeaf, table]; exact words.table
      fresh := fun n isOutside => by
        rw [nodes] at isOutside
        rw [outside n isOutside]
        exact words.fresh n isOutside
      depth := by rw [nodes, maxdepth]; exact words.depth }

/-- There are no more leading bytes than characters. -/
theorem leadingBytes_length_le
    (chars : List PatChar) :
    (leadingBytes chars).length ≤ chars.length := by
  induction chars with
  | nil => exact le_rfl
  | cons char rest inductionHypothesis =>
    cases char with
    | char c => exact Nat.succ_le_succ inductionHypothesis
    | _ => exact Nat.zero_le _

/-- A key is not longer than the depth of the trie. -/
theorem acKey_length_le
    (maxdepth : Nat)
    (patt : AcPatt) :
    (acKey maxdepth patt).length ≤ maxdepth := by
  refine le_trans (leadingBytes_length_le _) ?_
  rw [length_take]
  exact min_le_left _ _

/-- A pattern as `cli_ac_addpatt` stores it. -/
def placed (maxdepth : Nat) (patt : AcPatt) : AcPatt :=
  { patt with depth := (acKey maxdepth patt).length }

section

variable {later : AcRoot} {laterWord : Nat → List UInt8} {patt : AcPatt} {pt : Nat}
variable {target : List UInt8}

/--
What adding a pattern does: it walks down its word, and there it joins the group of a
head, or is a new head, or compares tables that are too long.
-/
theorem cliAcAddpatt_cases
    (inv : AcInv root word own group)
    (longEnough : root.acMindepth ≤ (acKey root.acMaxdepth patt).length)
    {stored : AcPatt}
    (isStored : placed root.acMaxdepth patt = stored) :
    ∃ later laterWord pt, Walked root word (acKey root.acMaxdepth patt) later laterWord pt ∧
      ((∃ ph ∈ own (laterWord pt), samePatt (root.patt ph) stored = some true ∧
          cliAcAddpatt root patt =
            some (.ok (joinGroup (pushPatt later stored) ph later.acPattable.length))) ∨
        ((∀ ph ∈ own (laterWord pt), samePatt (root.patt ph) stored = some false) ∧
          cliAcAddpatt root patt =
            some (.ok (pushList (pushPatt later stored) pt later.acPattable.length))) ∨
        ((∃ ph ∈ own (laterWord pt), samePatt (root.patt ph) stored = none) ∧
          cliAcAddpatt root patt = none)) := by
  obtain ⟨laterWord, walked⟩ := addNodes_walked (acKey root.acMaxdepth patt)
    inv.words (Nat.zero_le _) (by
      rw [inv.words.start, length_nil, zero_add]
      exact acKey_length_le root.acMaxdepth patt)
  rw [inv.words.start, nil_append] at walked
  have lists := walked.lists inv.words inv.lists
  refine ⟨_, laterWord, _, walked, ?_⟩
  unfold placed at isStored
  simp only [cliAcAddpatt, if_neg (not_lt.mpr longEnough), isStored]
  generalize addNodes root 0 (acKey root.acMaxdepth patt) = result at *
  obtain ⟨later, pt⟩ := result
  obtain ⟨found, misses, hangs⟩ := findSame_spec (pushPatt later stored) stored
    (own (laterWord pt)) (lists.chain walked.valid)
    (length_le_of_nodup (lists.nodup _) fun p mem => lists.valid mem)
  have same {p : Nat} (mem : p ∈ own (laterWord pt)) :
      (pushPatt later stored).patt p = root.patt p := by
    rw [pushPatt_patt_of_lt later stored (lists.valid mem), walked.same.patt]
  split
  · rename_i search
    obtain ⟨ph, mem, undecided⟩ := hangs search
    exact .inr (.inr ⟨⟨ph, mem, same mem ▸ undecided⟩, rfl⟩)
  · rename_i ph search
    obtain ⟨mem, isSame⟩ := found ph search
    exact .inl ⟨ph, mem, same mem ▸ isSame, rfl⟩
  · rename_i search
    exact .inr (.inl ⟨fun ph mem => same mem ▸ misses search ph mem, rfl⟩)

variable {stored : AcPatt}

section

variable (walked : Walked root word target later laterWord pt) (inv : AcInv root word own group)

include walked inv

/-- A leaf is the end of the walk or has a pattern. -/
theorem Walked.final
    (isNode : n ≤ later.acNodes)
    (isLeaf : later.isLeaf n = true) :
    n = pt ∨ own (laterWord n) ≠ [] := by
  rcases walked.leaves isLeaf isNode with isPt | ⟨isOld, wasLeaf⟩
  · exact .inl isPt
  · rw [walked.oldWords isOld]
    exact .inr (inv.final isOld wasLeaf)

/-- Every node is on the way to some pattern. -/
theorem Walked.prefixes
    (isNode : n ≤ later.acNodes)
    (notRoot : n ≠ 0) :
    (∃ w p, p ∈ own w ∧ laterWord n <+: w) ∨ laterWord n <+: laterWord pt := by
  by_cases isOld : n ≤ root.acNodes
  · rw [walked.oldWords isOld]
    exact .inl (inv.prefixes isOld notRoot)
  · rw [walked.reached]
    exact .inr (walked.added (not_le.mp isOld) isNode)

/-- The heads of a node differ from each other. -/
theorem Walked.separate
    {q : Nat}
    (pOwn : p ∈ own w)
    (qOwn : q ∈ own w)
    (different : p ≠ q) :
    samePatt ((pushPatt later stored).patt p) ((pushPatt later stored).patt q) ≠ some true := by
  have lists := walked.lists inv.words inv.lists
  rw [pushPatt_patt_of_lt later stored (lists.valid pOwn),
    pushPatt_patt_of_lt later stored (lists.valid qOwn), walked.same.patt, walked.same.patt]
  exact inv.separate pOwn qOwn different

/-- Joining a group keeps the invariant. -/
theorem Walked.joins
    (depth : stored.depth = (acKey later.acMaxdepth stored).length)
    {ph : Nat}
    (isHead : ph ∈ own (laterWord pt))
    (same : samePatt (root.patt ph) stored = some true) :
    AcInv (joinGroup (pushPatt later stored) ph later.acPattable.length) laterWord own
      (joined group ph later.acPattable.length) := by
  have lists := walked.lists inv.words inv.lists
  rw [← walked.same.patt] at same
  exact
    { words := walked.words.of_same_nodes rfl rfl (fun _ => rfl) fun _ _ => rfl
      lists := { pushPatt_lists lists depth with }
      final := fun isNode isLeaf => by
        rcases walked.final inv isNode isLeaf with isPt | nonempty
        · rw [isPt]
          exact ne_nil_of_mem isHead
        · exact nonempty
      prefixes := fun isNode notRoot => by
        rcases walked.prefixes inv isNode notRoot with old | isNew
        · exact old
        · exact ⟨laterWord pt, ph, isHead, isNew⟩
      separate := walked.separate inv
      groups := joinGroup_groups lists (walked.same.groups inv.groups) isHead same }

/-- A new head keeps the invariant. -/
theorem Walked.pushes
    (depth : stored.depth = (acKey later.acMaxdepth stored).length)
    (key : acKey later.acMaxdepth stored = laterWord pt)
    (longEnough : later.acMindepth ≤ (laterWord pt).length)
    (misses : ∀ q ∈ own (laterWord pt), samePatt (root.patt q) stored = some false) :
    AcInv (pushList (pushPatt later stored) pt later.acPattable.length) laterWord
      (update own (laterWord pt) (later.acPattable.length :: own (laterWord pt)))
      (update group later.acPattable.length [later.acPattable.length]) := by
  have lists := walked.lists inv.words inv.lists
  have sameTable (n : Nat) :
      ((pushList (pushPatt later stored) pt later.acPattable.length).node n).trans =
          (later.node n).trans := by
    by_cases isPt : n = pt
    · rw [isPt, pushList_node_self]
      rfl
    · rw [pushList_node_of_ne _ _ isPt]
      rfl
  have newSeparate {q : Nat} (qOwn : q ∈ own (laterWord pt)) :
      samePatt ((pushPatt later stored).patt q) stored ≠ some true := by
    rw [pushPatt_patt_of_lt later stored (lists.valid qOwn), walked.same.patt, misses q qOwn]
    exact nofun
  have isStored := pushPatt_patt_self later stored
  exact
    { words := walked.words.of_same_nodes rfl rfl sameTable fun n outside =>
        pushList_node_of_ne _ _ fun isPt => not_le.mpr outside (isPt ▸ walked.valid)
      lists := pushList_lists walked.words lists walked.valid depth key longEnough
      final := fun {n} isNode isLeaf => by
        unfold AcRoot.isLeaf at isLeaf
        rw [sameTable] at isLeaf
        by_cases isHere : laterWord n = laterWord pt
        · rw [isHere, update_self]
          exact cons_ne_nil _ _
        · rw [update_of_ne isHere]
          exact (walked.final inv isNode isLeaf).resolve_left fun isPt => isHere (isPt ▸ rfl)
      prefixes := fun isNode notRoot => by
        rcases walked.prefixes inv isNode notRoot with ⟨w, p, isOwn, begins⟩ | isNew
        · exact ⟨w, p, mem_update_cons_iff.mpr (.inl isOwn), begins⟩
        · exact ⟨laterWord pt, _, mem_update_cons_iff.mpr (.inr ⟨rfl, rfl⟩), isNew⟩
      separate := fun {w p q} pOwn qOwn different => by
        show samePatt ((pushPatt later stored).patt p) ((pushPatt later stored).patt q) ≠ some true
        rcases mem_update_cons_iff.mp pOwn with pOld | ⟨pHere, pNew⟩
        · rcases mem_update_cons_iff.mp qOwn with qOld | ⟨qHere, qNew⟩
          · exact walked.separate inv pOld qOld different
          · rw [qNew, isStored]
            exact newSeparate (qHere ▸ pOld)
        rcases mem_update_cons_iff.mp qOwn with qOld | ⟨-, qNew⟩
        · rw [pNew, isStored]
          exact fun same => newSeparate (pHere ▸ qOld) (samePatt_symm same)
        · exact absurd (pNew.trans qNew.symm) different
      groups := pushList_groups lists (walked.same.groups inv.groups) }

end

/-- Only a pattern with a long enough key is added. -/
theorem longEnough_of_adds
    (adds : cliAcAddpatt root patt = some (.ok added)) :
    root.acMindepth ≤ (acKey root.acMaxdepth patt).length := by
  by_contra tooShort
  simp only [cliAcAddpatt, if_pos (not_le.mp tooShort)] at adds
  cases adds

/-- `cli_ac_addpatt` keeps the invariant and appends its pattern. -/
theorem cliAcAddpatt_inv
    (inv : AcInv root word own group)
    (adds : cliAcAddpatt root patt = some (.ok added)) :
    (∃ word own group, AcInv added word own group) ∧ added.acMindepth = root.acMindepth ∧
      added.acMaxdepth = root.acMaxdepth ∧
      added.acPattable = root.acPattable ++ [placed root.acMaxdepth patt] := by
  have longEnough := longEnough_of_adds adds
  obtain ⟨later, laterWord, pt, walked, outcome⟩ := cliAcAddpatt_cases inv longEnough rfl
  have same := walked.same
  have depth : (placed root.acMaxdepth patt).depth =
      (acKey later.acMaxdepth (placed root.acMaxdepth patt)).length := by
    rw [same.maxdepth]
    rfl
  rw [adds] at outcome
  obtain ⟨ph, isHead, isSame, isAdded⟩ | ⟨misses, isAdded⟩ | ⟨-, hangs⟩ := outcome
  · cases isAdded
    exact ⟨⟨_, _, _, walked.joins inv depth isHead isSame⟩, same.mindepth, same.maxdepth,
      same.pattable ▸ rfl⟩
  · cases isAdded
    have key : acKey later.acMaxdepth (placed root.acMaxdepth patt) = laterWord pt := by
      rw [same.maxdepth, walked.reached]
      rfl
    rw [← same.mindepth, ← walked.reached] at longEnough
    exact ⟨⟨_, _, _, walked.pushes inv depth key longEnough misses⟩, same.mindepth,
      same.maxdepth, same.pattable ▸ rfl⟩
  · cases hangs

end

/-- Add patterns in order, up to the first one that is refused. -/
def acLoad (root : AcRoot) : List AcPatt → Option (Except ClError AcRoot)
  | [] => some (.ok root)
  | patt :: rest =>
    match cliAcAddpatt root patt with
    | none => none
    | some (.error code) => some (.error code)
    | some (.ok added) => acLoad added rest

/-- Loading keeps the invariant and appends the patterns. -/
theorem acLoad_inv
    {root loaded : AcRoot}
    {word : Nat → List UInt8}
    {own : List UInt8 → List Nat}
    {group : Nat → List Nat}
    (inv : AcInv root word own group)
    (loads : acLoad root patts = some (.ok loaded)) :
    (∃ word own group, AcInv loaded word own group) ∧ loaded.acMindepth = root.acMindepth ∧
      loaded.acMaxdepth = root.acMaxdepth ∧
      loaded.acPattable = root.acPattable ++ patts.map (placed root.acMaxdepth) := by
  induction patts generalizing root loaded word own group with
  | nil =>
    cases loads
    exact ⟨⟨word, own, group, inv⟩, rfl, rfl, (append_nil _).symm⟩
  | cons patt rest ih =>
    rw [acLoad] at loads
    split at loads
    · cases loads
    · cases loads
    rename_i added adds
    obtain ⟨⟨_, _, _, addedInv⟩, mindepth, maxdepth, table⟩ := cliAcAddpatt_inv inv adds
    obtain ⟨loadedInv, loadedMindepth, loadedMaxdepth, loadedTable⟩ := ih addedInv loads
    refine ⟨loadedInv, loadedMindepth.trans mindepth, loadedMaxdepth.trans maxdepth, ?_⟩
    rw [loadedTable, table, maxdepth, append_assoc]
    rfl

theorem samePatt_ne_none
    (ph : AcPatt)
    {patt : AcPatt}
    (few : patt.specialTable.length < 256) :
    samePatt ph patt ≠ none := by
  unfold samePatt sameSpecials
  split_ifs with _ _ _ _ many
  · exact nofun
  · exact nofun
  · intro _
    omega
  all_goals exact nofun

/-- A pattern with a long enough key and few special elements is added. -/
theorem cliAcAddpatt_succeeds
    {patt : AcPatt}
    (inv : AcInv root word own group)
    (longEnough : root.acMindepth ≤ (acKey root.acMaxdepth patt).length)
    (few : patt.specialTable.length < 256) :
    ∃ added, cliAcAddpatt root patt = some (.ok added) := by
  obtain ⟨later, laterWord, pt, -, outcome⟩ := cliAcAddpatt_cases inv longEnough rfl
  obtain ⟨ph, -, -, adds⟩ | ⟨-, adds⟩ | ⟨⟨ph, -, undecided⟩, -⟩ := outcome
  · exact ⟨_, adds⟩
  · exact ⟨_, adds⟩
  · exact absurd undecided (samePatt_ne_none _ few)

/-- All such patterns are loaded. -/
theorem acLoad_succeeds
    {root : AcRoot}
    {word : Nat → List UInt8}
    {own : List UInt8 → List Nat}
    {group : Nat → List Nat}
    (inv : AcInv root word own group)
    (accepted : ∀ patt ∈ patts, root.acMindepth ≤ (acKey root.acMaxdepth patt).length ∧
      patt.specialTable.length < 256) :
    ∃ loaded, acLoad root patts = some (.ok loaded) := by
  induction patts generalizing root word own group with
  | nil =>
    exact ⟨root, rfl⟩
  | cons patt rest ih =>
    obtain ⟨longEnough, few⟩ := accepted patt mem_cons_self
    obtain ⟨added, adds⟩ := cliAcAddpatt_succeeds inv longEnough few
    obtain ⟨⟨_, _, _, addedInv⟩, mindepth, maxdepth, -⟩ := cliAcAddpatt_inv inv adds
    obtain ⟨loaded, loads⟩ := ih addedInv (by
      intro other mem
      rw [mindepth, maxdepth]
      exact accepted other (mem_cons_of_mem _ mem))
    refine ⟨loaded, ?_⟩
    rw [acLoad, adds]
    exact loads

/-- A pattern that no other one has in its group: it stands on a list. -/
def AcRoot.IsHead (root : AcRoot) (p : Nat) : Prop :=
  p < root.acPattable.length ∧ ∀ q, root.nextSame q ≠ some p

/-- The heads are the patterns of the lists. -/
theorem AcInv.isHead_iff (inv : AcInv root word own group) : root.IsHead p ↔ ∃ w, p ∈ own w := by
  have groups := inv.groups
  constructor
  · rintro ⟨valid, unlinked⟩
    obtain ⟨w, h, isHead, mem⟩ := groups.covers valid
    obtain ⟨rest, members, isRest⟩ := groups.eq_cons isHead
    have isChain := groups.chain isHead
    rw [members] at mem isChain
    rcases mem_cons.mp mem with isFirst | isLater
    · exact ⟨w, isFirst ▸ isHead⟩
    · obtain ⟨q, points⟩ := isChain.link_of_mem_tail _ isLater
      exact absurd points (unlinked q)
  · rintro ⟨w, isOwn⟩
    refine ⟨inv.lists.valid isOwn, ?_⟩
    intro q points
    by_cases valid : q < root.acPattable.length
    · obtain ⟨v, h, isHead, mem⟩ := groups.covers valid
      have inTail := (groups.chain isHead).mem_of_link _ mem points
      have inGroup := mem_of_mem_tail inTail
      obtain ⟨rest, members, -⟩ := groups.eq_cons isOwn
      have inOwnGroup : p ∈ group p := by
        rw [members]
        exact mem_cons_self
      have same := groups.disjoint isHead isOwn inGroup inOwnGroup
      subst same
      have nodup := groups.nodup isOwn
      rw [members] at inTail nodup
      exact (nodup_cons.mp nodup).1 inTail
    · rw [groups.fresh q (not_lt.mp valid)] at points
      cases points

end LibClamav.Ac
