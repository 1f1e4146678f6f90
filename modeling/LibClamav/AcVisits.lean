import LibClamav.AcFill

namespace LibClamav.Ac

open LinkedChain List

/-!
# What the scan loop visits

The scan loop is always at the longest word with transitions that ends the
bytes read so far.  Its next transition leads to the longest word of all, and
the list there has the patterns of every word that ends the bytes.
-/

variable {n j p : Nat} {text : List UInt8} {b : UInt8} {starts : UInt8 → Bool}

section

variable {base built : AcRoot} {word : Nat → List UInt8}
variable {own : List UInt8 → List Nat} {group : Nat → List Nat}

/-- The node of the scan loop after the bytes of `text`. -/
structure Current
    (base : AcRoot) (word : Nat → List UInt8) (text : List UInt8) (n : Nat) : Prop where
  valid : n ≤ base.acNodes
  table : base.isLeaf n = false
  ends : word n <:+ text
  longest : ∀ m, m ≤ base.acNodes → base.isLeaf m = false →
    word m <:+ text → (word m).length ≤ (word n).length

theorem Current.start (words : Words base word) : Current base word [] 0 where
  valid := Nat.zero_le _
  table := words.table
  ends := words.start ▸ nil_suffix
  longest m _ _ ends := by
    rw [suffix_nil.mp ends]
    exact Nat.zero_le _

variable {t : Nat} (rest : List UInt8)

/-- The scan stands at the longest word behind it. -/
theorem Current.reached
    (words : Words base word)
    (tables : Tables base built word)
    (current : Current base word text n)
    (edge : built.trans n b = some t) :
    Longest base word (text ++ [b]) t := by
  obtain ⟨valid, ends, longest⟩ := tables.sound edge
  refine ⟨valid, ends.trans (suffix_append_self_iff.mpr current.ends), ?_⟩
  intro m mValid mEnds
  by_cases isRoot : m = 0
  · rw [isRoot, words.start]
    exact Nat.zero_le _
  obtain ⟨q, qEdge, qValid, mWord, qEnds⟩ := words.parent_of_ends mValid isRoot mEnds
  have qShort := current.longest q qValid (table_of_edge qEdge) qEnds
  have qInside := suffix_of_suffix_length_le qEnds current.ends qShort
  refine longest m mValid ?_
  rw [mWord]
  exact suffix_append_self_iff.mpr qInside

theorem Longest.current
    (reached : Longest base word text t)
    (table : base.isLeaf t = false) :
    Current base word text t :=
  ⟨reached.valid, table, reached.ends, fun m valid _ ends => reached.longest m valid ends⟩

theorem Longest.current_of_fail
    {f : Nat}
    (words : Words base word)
    (reached : Longest base word text t)
    (isLeaf : base.isLeaf t = true)
    (failOk : FailOk base word t f)
    (table : base.isLeaf f = false) :
    Current base word text f := by
  refine ⟨failOk.valid, table, failOk.ends.trans reached.ends, ?_⟩
  intro m valid mTable ends
  have short := reached.longest m valid ends
  have inside := suffix_of_suffix_length_le ends reached.ends short
  refine failOk.longest m valid mTable inside (lt_of_le_of_ne short fun sameLength => ?_)
  have isT := words.inj valid reached.valid (inside.eq_of_length sameLength)
  rw [isT, isLeaf] at mTable
  cases mTable

/-- Its node lists the patterns that end here. -/
theorem Longest.full_eq
    (inv : AcInv base word own group)
    (reached : Longest base word text t) :
    full own (startsWord base) text = full own (startsWord base) (word t) := by
  refine full_of_longest reached.ends ?_ ?_
  · intro u ends longer
    refine eq_nil_iff_forall_not_mem.mpr fun p mem => ?_
    obtain ⟨n, valid, isWord⟩ := inv.lists.located mem
    rw [← isWord] at ends longer
    exact absurd (reached.longest n valid ends) (not_le.mpr longer)
  intro isEmpty b ends
  refine Bool.eq_false_iff.mpr fun isStart => ?_
  obtain ⟨m, edge⟩ := Option.isSome_iff_exists.mp isStart
  obtain ⟨-, valid, mWord⟩ := inv.words.child edge
  rw [inv.words.start, nil_append] at mWord
  rw [← mWord] at ends
  have short := reached.longest m valid ends
  rw [mWord, isEmpty] at short
  cases short

/-- No pattern is listed twice. -/
theorem full_nodup
    (lists : Lists base word own)
    (starts : UInt8 → Bool)
    (w : List UInt8) :
    (full own starts w).Nodup := by
  induction w with
  | nil => exact lists.nodup []
  | cons b w ih =>
    rw [full]
    split
    · rw [append_nil]
      exact lists.nodup _
    refine nodup_append.mpr ⟨lists.nodup _, ih, ?_⟩
    rintro p isOwn _ inFull rfl
    -- a pattern is on the list of its key only
    obtain ⟨u, ends, isOwnToo⟩ := own_of_mem_full inFull
    have sameKey := (lists.key isOwn).symm.trans (lists.key isOwnToo)
    have short := ends.length_le
    rw [← sameKey, length_cons] at short
    exact absurd short (Nat.not_succ_le_self _)

theorem full_length_le
    (lists : Lists base word own)
    (starts : UInt8 → Bool)
    (w : List UInt8) :
    (full own starts w).length ≤ base.acPattable.length := by
  refine length_le_of_nodup (full_nodup lists starts w) fun p mem => ?_
  obtain ⟨u, -, isOwn⟩ := own_of_mem_full mem
  exact lists.valid isOwn

/-- The visits of a scan: at each index the patterns of all suffixes. -/
def visitsFrom
    (own : List UInt8 → List Nat)
    (starts : UInt8 → Bool) :
    List UInt8 → Nat → List UInt8 → List (Nat × Nat)
  | _, _, [] => []
  | text, i, b :: rest =>
    (full own starts (text ++ [b])).map (Prod.mk i) ++
      visitsFrom own starts (text ++ [b]) (i + 1) rest

/-- The scan visits these lists one after the other. -/
theorem scanLoop_eq_run
    {σ ε : Type}
    (visit : Nat → Nat → σ → Except ε σ)
    (stuck : ε)
    (inv : AcInv base word own group)
    (done : Built base built word own)
    (rest : List UInt8) :
    ∀ {text : List UInt8} {i n : Nat} (state : σ), Current base word text n →
      scanLoop built visit stuck rest i n state = run (fun met => visit met.1 met.2)
          (visitsFrom own (startsWord base) text i rest) state := by
  induction rest with
  | nil => exact fun state _ => rfl
  | cons b rest ih =>
    intro text i n state current
    obtain ⟨t, edge⟩ := done.complete current.valid current.table b
    have reached := current.reached inv.words done.tables edge
    have isChain := done.chain reached.valid
    rw [← reached.full_eq inv] at isChain
    have enough : (full own (startsWord base) (text ++ [b])).length ≤
        built.acPattable.length := by
      rw [done.tables.pattable]
      exact full_length_le inv.lists _ _
    rw [scanLoop, edge, visitsFrom, run_append, run_map]
    cases members : full own (startsWord base) (text ++ [b]) with
    | nil =>
      rw [members] at isChain
      have isNull : (built.node t).list = none := isChain
      have table : base.isLeaf t = false := by
        refine Bool.eq_false_iff.mpr fun isLeaf => ?_
        obtain ⟨p, isOwn⟩ := exists_mem_of_ne_nil _ (inv.final reached.valid isLeaf)
        have inFull : p ∈ full own (startsWord base) (text ++ [b]) :=
          (mem_full _).mpr (.inl ⟨word t, ?_, reached.ends, isOwn⟩)
        · rw [members] at inFull
          cases inFull
        intro isEmpty
        have isRoot := inv.words.inj reached.valid (Nat.zero_le _)
          (isEmpty.trans inv.words.start.symm)
        rw [isRoot, inv.words.table] at isLeaf
        cases isLeaf
      simp only [isNull]
      exact ih state (reached.current table)
    | cons p patts =>
      rw [members] at isChain enough
      have isFirst : (built.node t).list = some p := isChain.1
      have visits := @loop_eq_run _ _ _ (visit i) (p :: patts)
        built.next stuck (some p) built.acPattable.length state
        (isFirst ▸ isChain) enough
      have onward : ∃ f, (if built.isLeaf t then (built.node t).fail else some t) =
            some f ∧ Current base word (text ++ [b]) f := by
        rw [done.tables.leaf]
        cases isLeaf : base.isLeaf t with
        | false => exact ⟨t, rfl, reached.current isLeaf⟩
        | true =>
          obtain ⟨f, link, failOk, table⟩ := done.leafFail reached.valid isLeaf
          exact ⟨f, link, reached.current_of_fail inv.words isLeaf failOk table⟩
      obtain ⟨f, leads, later⟩ := onward
      simp only [isFirst, leads, visits]
      cases run (visit i) (p :: patts) state with
      | error result => rfl
      | ok state => exact ih state later

theorem visitsFrom_index :
    ∀ {text : List UInt8} {i : Nat}, (j, p) ∈ visitsFrom own starts text i rest → i ≤ j := by
  induction rest with
  | nil => exact nofun
  | cons b rest ih =>
    intro text i mem
    rcases mem_append.mp mem with isHere | isLater
    · obtain ⟨q, -, same⟩ := mem_map.mp isHere
      cases same
      exact le_rfl
    · exact Nat.le_of_succ_le (ih isLater)

theorem visitsFrom_nodup
    (lists : Lists base word own)
    (starts : UInt8 → Bool)
    (rest : List UInt8)
    (text : List UInt8)
    (i : Nat) :
    (visitsFrom own starts text i rest).Nodup := by
  induction rest generalizing text i with
  | nil => exact nodup_nil
  | cons b rest ih =>
    refine nodup_append.mpr ⟨?_, ih _ _, ?_⟩
    · exact List.Nodup.map (fun _ _ same => (Prod.mk.inj same).2) (full_nodup lists starts _)
    rintro _ isHere ⟨j, p⟩ isLater rfl
    obtain ⟨q, -, same⟩ := mem_map.mp isHere
    cases same
    exact absurd (visitsFrom_index rest isLater) (Nat.not_succ_le_self _)

/-- A visit is a pattern at the place where it ends. -/
theorem mem_visitsFrom
    {text : List UInt8}
    {i : Nat} :
    (j, p) ∈ visitsFrom own starts text i rest ↔
      i ≤ j ∧ j < i + rest.length ∧ p ∈ full own starts (text ++ rest.take (j - i + 1)) := by
  induction rest generalizing text i with
  | nil =>
    constructor
    · exact nofun
    · rintro ⟨low, high, -⟩
      exact absurd high (not_lt.mpr low)
  | cons b rest ih =>
    have isHere : (∃ q ∈ full own starts (text ++ [b]), (i, q) = (j, p)) ↔
        i = j ∧ p ∈ full own starts (text ++ [b]) := by
      simp [and_comm]
    rw [visitsFrom, mem_append, ih, mem_map, isHere, length_cons]
    rcases Nat.lt_trichotomy j i with isBefore | rfl | isLater
    · exact iff_of_false (by omega) (by omega)
    · rw [or_iff_left fun later => absurd later.1 (Nat.not_succ_le_self j)]
      simp
    · rw [show j - i + 1 = j - (i + 1) + 1 + 1 by omega, take_succ_cons,
        append_cons text b (rest.take _), or_iff_right fun same => absurd same.1 (ne_of_lt isLater)]
      exact and_congr (by omega) (and_congr_left fun _ => by omega)

/-- The visits of a whole buffer. -/
theorem acVisits_eq
    (inv : AcInv base word own group)
    (done : Built base built word own)
    (buffer : List UInt8) :
    acVisits built buffer = .ok (visitsFrom own (startsWord base) [] 0 buffer) := by
  unfold acVisits
  rw [scanLoop_eq_run _ _ inv done buffer [] (Current.start inv.words)]
  exact run_collect _ []

end

section

/--
The first `depth` characters of a pattern equal the `depth` bytes of the buffer
that end at index `i`.
-/
def LeadsAt (patt : AcPatt) (buffer : List UInt8) (i : Nat) : Prop :=
  patt.depth ≤ i + 1 ∧ patt.pattern.take patt.depth =
      ((buffer.drop (i + 1 - patt.depth)).take patt.depth).map .char

theorem leadingBytes_begins (chars : List PatChar) : (leadingBytes chars).map .char <+: chars := by
  induction chars with
  | nil => exact prefix_refl _
  | cons char rest ih =>
    cases char with
    | char c =>
      exact cons_prefix_cons.mpr ⟨rfl, ih⟩
    | _ => exact nil_prefix

theorem take_acKey
    (maxdepth : Nat)
    (patt : AcPatt) :
    patt.pattern.take (acKey maxdepth patt).length = (acKey maxdepth patt).map .char := by
  have isPrefix : (acKey maxdepth patt).map PatChar.char <+: patt.pattern :=
    (leadingBytes_begins _).trans ( take_prefix _ _)
  have whole := prefix_iff_eq_take.mp isPrefix
  rw [length_map] at whole
  exact whole.symm

theorem charMap_injective {u v : List UInt8} : u.map PatChar.char = v.map PatChar.char ↔ u = v :=
  map_inj_right fun _ _ same => PatChar.char.inj same

variable {w buffer : List UInt8} {i : Nat}

theorem suffix_take_iff
    (inside : i < buffer.length) :
    w <:+ buffer.take (i + 1) ↔ w.length ≤ i + 1 ∧
        w = (buffer.drop (i + 1 - w.length)).take w.length := by
  have lengthTake : (buffer.take (i + 1)).length = i + 1 := by rw [length_take, min_eq_left inside]
  rw [suffix_iff_eq_drop, lengthTake, drop_take]
  constructor
  · intro same
    have short : w.length ≤ i + 1 := by
      rw [same, length_take]
      omega
    rw [Nat.sub_sub_self short] at same
    exact ⟨short, same⟩
  · rintro ⟨short, same⟩
    rw [Nat.sub_sub_self short]
    exact same

variable {base : AcRoot} {word : Nat → List UInt8}
variable {own : List UInt8 → List Nat} {group : Nat → List Nat}

/-- A pattern leads where its key ends. -/
theorem AcInv.leadsAt_iff
    (inv : AcInv base word own group)
    (isOwn : p ∈ own w)
    (inside : i < buffer.length) :
    LeadsAt (base.patt p) buffer i ↔ w <:+ buffer.take (i + 1) := by
  have depth := inv.lists.depth (inv.lists.valid isOwn)
  have key := inv.lists.key isOwn
  have leading := take_acKey base.acMaxdepth (base.patt p)
  rw [key] at depth leading
  unfold LeadsAt
  rw [suffix_take_iff inside, depth, leading, charMap_injective]

theorem AcInv.startsWord_iff
    (inv : AcInv base word own group)
    (b : UInt8) :
    startsWord base b = true ↔ ∃ p, base.IsHead p ∧
        (acKey base.acMaxdepth (base.patt p)).head? = some b := by
  have words := inv.words
  constructor
  · intro isStart
    obtain ⟨m, edge⟩ := Option.isSome_iff_exists.mp isStart
    obtain ⟨-, valid, mWord⟩ := words.child edge
    rw [words.start, nil_append] at mWord
    obtain ⟨w, p, isOwn, begins⟩ := inv.prefixes valid (words.child_ne_zero edge)
    refine ⟨p, inv.isHead_iff.mpr ⟨w, isOwn⟩, ?_⟩
    rw [mWord] at begins
    obtain ⟨rest, rfl⟩ := begins
    rw [inv.lists.key isOwn]
    rfl
  · rintro ⟨p, isHead, begins⟩
    obtain ⟨w, isOwn⟩ := inv.isHead_iff.mp isHead
    rw [inv.lists.key isOwn] at begins
    obtain ⟨n, valid, nWord⟩ := inv.lists.located isOwn
    rw [← nWord] at begins
    clear nWord
    -- up the parents, to the child of the root
    induction length : (word n).length using Nat.strong_induction_on generalizing n with
    | _ length ih =>
      have notRoot : n ≠ 0 := by
        rintro rfl
        rw [words.start] at begins
        cases begins
      obtain ⟨q, c, edge⟩ := words.parent valid notRoot
      obtain ⟨qValid, -, nWord⟩ := words.child edge
      have longer := words.child_length edge
      cases qWord : word q with
      | nil =>
        have qRoot := words.inj qValid (Nat.zero_le _) (qWord.trans words.start.symm)
        rw [nWord, qWord] at begins
        cases begins
        rw [qRoot] at edge
        exact Option.isSome_iff_exists.mpr ⟨n, edge⟩
      | cons first rest =>
        rw [nWord, qWord] at begins
        refine ih (word q).length (by omega) q ?_ qValid rfl
        rw [qWord]
        exact begins

/--
No pattern has an empty key, or the buffer has no byte that begins a key: a
child of the root does not get the list of the root.
-/
def EmptyKeysReached (loaded : AcRoot) (buffer : List UInt8) : Prop :=
  (∀ p, loaded.IsHead p → (loaded.patt p).depth ≠ 0) ∨ ∀ b ∈ buffer, ∀ p, loaded.IsHead p →
      (acKey loaded.acMaxdepth (loaded.patt p)).head? ≠ some b

theorem AcInv.depth_eq_zero_iff
    (inv : AcInv base word own group)
    (isOwn : p ∈ own w) :
    (base.patt p).depth = 0 ↔ w = [] := by
  rw [inv.lists.depth (inv.lists.valid isOwn), inv.lists.key isOwn]
  exact length_eq_zero_iff

theorem AcInv.emptyKeysReached_iff
    (inv : AcInv base word own group)
    (buffer : List UInt8) :
    EmptyKeysReached base buffer ↔ ∀ p ∈ own [], ∀ b ∈ buffer, startsWord base b = false := by
  constructor
  · rintro (noEmpty | noStart) p isOwn b mem
    · exact absurd ((inv.depth_eq_zero_iff isOwn).mpr rfl)
        (noEmpty p (inv.isHead_iff.mpr ⟨[], isOwn⟩))
    · refine Bool.eq_false_iff.mpr fun isStart => ?_
      obtain ⟨q, isHead, begins⟩ := (inv.startsWord_iff b).mp isStart
      exact noStart b mem q isHead begins
  intro noStart
  by_cases someEmpty : ∃ p, p ∈ own []
  · obtain ⟨p, isOwn⟩ := someEmpty
    refine .inr fun b mem q isHead begins => ?_
    have isStart := (inv.startsWord_iff b).mpr ⟨q, isHead, begins⟩
    rw [noStart p isOwn b mem] at isStart
    cases isStart
  refine .inl fun p isHead isZero => ?_
  obtain ⟨w, isOwn⟩ := inv.isHead_iff.mp isHead
  rw [(inv.depth_eq_zero_iff isOwn).mp isZero] at isOwn
  exact someEmpty ⟨p, isOwn⟩

theorem singleton_suffix_take
    (inside : i < buffer.length) :
    [b] <:+ buffer.take (i + 1) ↔ b = buffer[i] := by
  rw [suffix_take_iff inside, length_singleton, Nat.add_sub_cancel,
    drop_eq_getElem_cons inside, take_succ_cons, take_zero,
    singleton_inj]
  exact and_iff_right (Nat.le_add_left _ _)

/-- The visits are the heads at the places they lead to. -/
theorem AcInv.visits_iff
    (inv : AcInv base word own group)
    (buffer : List UInt8) :
    (∀ i p, (i, p) ∈ visitsFrom own (startsWord base) [] 0 buffer ↔
      i < buffer.length ∧ base.IsHead p ∧ LeadsAt (base.patt p) buffer i) ↔
      EmptyKeysReached base buffer := by
  have visited_iff (i p : Nat) :
      (i, p) ∈ visitsFrom own (startsWord base) [] 0 buffer ↔ i < buffer.length ∧
          p ∈ full own (startsWord base) (buffer.take (i + 1)) := by
    rw [mem_visitsFrom, Nat.zero_add, Nat.sub_zero, nil_append]
    exact and_iff_right (Nat.zero_le _)
  have leads_iff {i p : Nat} (inside : i < buffer.length) :
      base.IsHead p ∧ LeadsAt (base.patt p) buffer i ↔
        ∃ w, p ∈ own w ∧ w <:+ buffer.take (i + 1) := by
    rw [inv.isHead_iff]
    constructor
    · rintro ⟨⟨w, isOwn⟩, leads⟩
      exact ⟨w, isOwn, (inv.leadsAt_iff isOwn inside).mp leads⟩
    · rintro ⟨w, isOwn, ends⟩
      exact ⟨⟨w, isOwn⟩, (inv.leadsAt_iff isOwn inside).mpr ends⟩
  rw [inv.emptyKeysReached_iff]
  constructor
  · intro reached p isOwn b mem
    obtain ⟨i, inside, rfl⟩ := getElem_of_mem mem
    have isVisited := (reached i p).mpr ⟨inside, (leads_iff inside).mpr ⟨[], isOwn, nil_suffix⟩⟩
    rcases (mem_full _).mp ((visited_iff i p).mp isVisited).2 with
      ⟨u, nonempty, -, isOwnToo⟩ | ⟨-, noStart⟩
    · have sameKey := (inv.lists.key isOwnToo).symm.trans (inv.lists.key isOwn)
      exact absurd sameKey nonempty
    · exact noStart _ ((singleton_suffix_take inside).mpr rfl)
  intro noStart i p
  rw [visited_iff]
  refine and_congr_right fun inside => ?_
  rw [leads_iff inside, mem_full]
  constructor
  · rintro (⟨u, -, ends, isOwn⟩ | ⟨isOwn, -⟩)
    · exact ⟨u, isOwn, ends⟩
    · exact ⟨[], isOwn, nil_suffix⟩
  rintro ⟨w, isOwn, ends⟩
  by_cases isEmpty : w = []
  · rw [isEmpty] at isOwn
    refine .inr ⟨isOwn, fun b ends => ?_⟩
    rw [(singleton_suffix_take inside).mp ends]
    exact noStart p isOwn _ (getElem_mem inside)
  · exact .inl ⟨w, isEmpty, ends, isOwn⟩

/--
For all patterns that `cli_ac_addpatt` inserts into a fresh matcher,
`cli_ac_buildtrie` succeeds and the scan loop visits every head at most once at
every index.  It visits exactly the heads that lead up to the index if and only
if the condition on empty keys holds, as it does for every positive
`ac_mindepth`.
-/
theorem ac_scan_visits_leading_heads_iff
    (type mindepth maxdepth : Nat)
    (prefiltering : Bool)
    (patts : List AcPatt) :
    ((∀ patt ∈ patts, mindepth ≤ (acKey maxdepth patt).length ∧ patt.specialTable.length < 256) →
      ∃ loaded, acLoad (cliAcInit (freshRoot type) mindepth maxdepth prefiltering)
          patts = some (.ok loaded)) ∧
    ∀ loaded, acLoad (cliAcInit (freshRoot type) mindepth maxdepth prefiltering)
          patts = some (.ok loaded) →
      (0 < mindepth → ∀ buffer, EmptyKeysReached loaded buffer) ∧
      ∃ built, cliAcBuildtrie loaded = some built ∧ ∀ buffer, ∃ visited,
          acVisits built buffer = .ok visited ∧
          visited.Nodup ∧
          ((∀ i p, (i, p) ∈ visited ↔ i < buffer.length ∧ loaded.IsHead p ∧
                LeadsAt (loaded.patt p) buffer i) ↔
            EmptyKeysReached loaded buffer) := by
  have startInv := cliAcInit_inv type mindepth maxdepth prefiltering
  refine ⟨acLoad_succeeds patts startInv, ?_⟩
  intro loaded loads
  obtain ⟨⟨word, own, group, inv⟩, sameMindepth, -, -⟩ := acLoad_inv patts startInv loads
  obtain ⟨built, builds, done⟩ := cliAcBuildtrie_built inv
  refine ⟨?_, built, builds, ?_⟩
  · intro positive buffer
    refine .inl fun p isHead isZero => ?_
    obtain ⟨w, isOwn⟩ := inv.isHead_iff.mp isHead
    have short := inv.lists.mindepth isOwn
    rw [(inv.depth_eq_zero_iff isOwn).mp isZero, sameMindepth] at short
    exact absurd short (not_le.mpr positive)
  · intro buffer
    exact ⟨_, acVisits_eq inv done buffer,
      visitsFrom_nodup inv.lists _ buffer [] 0, inv.visits_iff buffer⟩

end

/-- The patterns `6865`, `736865` and `68657273`. -/
def herPatts : List AcPatt := [{ pattern := [.char 0x68, .char 0x65] },
    { pattern := [.char 0x73, .char 0x68, .char 0x65] },
    { pattern := [.char 0x68, .char 0x65, .char 0x72, .char 0x73] }]

theorem ac_scan_visits_herPatts :
    ∃ loaded built visited, acLoad (cliAcInit (freshRoot 0) 2 3 true) herPatts = some (.ok loaded) ∧
      cliAcBuildtrie loaded = some built ∧
      acVisits built [0x75, 0x73, 0x68, 0x65, 0x72, 0x73] = .ok visited ∧
      visited.Nodup ∧
      ∀ i p, (i, p) ∈ visited ↔ i < 6 ∧ loaded.IsHead p ∧
          LeadsAt (loaded.patt p) [0x75, 0x73, 0x68, 0x65, 0x72, 0x73] i := by
  obtain ⟨succeeds, visits⟩ := ac_scan_visits_leading_heads_iff 0 2 3 true herPatts
  obtain ⟨loaded, loads⟩ := succeeds (by decide)
  obtain ⟨emptyKeys, built, builds, scans⟩ := visits loaded loads
  obtain ⟨visited, scan, nodup, same⟩ := scans [0x75, 0x73, 0x68, 0x65, 0x72, 0x73]
  exact ⟨loaded, built, visited, loads, builds, scan, nodup, same.mpr (emptyKeys (by decide) _)⟩

/-- `??61`: no byte before its first wildcard. -/
def emptyKeyPatt : AcPatt := { pattern := [.ignore, .char 0x61] }

/-- `61` -/
def letterPatt : AcPatt := { pattern := [.char 0x61] }

/--
With `ac_mindepth` zero, `??61` stands on the list of the root and is to be
visited at every index, but the node of `61` hides it.
-/
theorem ac_scan_skips_emptyKeyPatt :
    ∃ loaded built visited, acLoad (cliAcInit (freshRoot 0) 0 3 false) [emptyKeyPatt, letterPatt] =
        some (.ok loaded) ∧
      cliAcBuildtrie loaded = some built ∧
      acVisits built [0x61] = .ok visited ∧
      loaded.IsHead 0 ∧ LeadsAt (loaded.patt 0) [0x61] 0 ∧
      (0, 0) ∉ visited := by
  have loads : ∃ loaded, acLoad (cliAcInit (freshRoot 0) 0 3 false)
            [emptyKeyPatt, letterPatt] = some (.ok loaded) ∧
          loaded.acPattable = [emptyKeyPatt, { letterPatt with depth := 1 }] ∧
          (∀ q, loaded.nextSame q = none) ∧
          startsWord loaded 0x61 = true :=
    ⟨_, rfl, rfl, fun _ => rfl, rfl⟩
  obtain ⟨loaded, loads, table, unlinked, isStart⟩ := loads
  obtain ⟨⟨word, own, group, inv⟩, -, maxdepth, -⟩ := acLoad_inv _ (cliAcInit_inv 0 0 3 false) loads
  obtain ⟨built, builds, done⟩ := cliAcBuildtrie_built inv
  have isPatt : loaded.patt 0 = emptyKeyPatt := by
    rw [AcRoot.patt, table]
    rfl
  refine ⟨loaded, built, _, loads, builds, acVisits_eq inv done [0x61], ⟨?_, ?_⟩, ?_, ?_⟩
  · rw [table]
    exact Nat.succ_pos _
  · intro q
    rw [unlinked]
    exact fun impossible => by cases impossible
  · rw [isPatt]
    exact ⟨Nat.zero_le _, rfl⟩
  rw [mem_visitsFrom]
  rintro ⟨-, -, mem⟩
  rcases (mem_full _).mp mem with ⟨u, nonempty, -, isOwn⟩ | ⟨-, noStart⟩
  · have key := inv.lists.key isOwn
    rw [isPatt, maxdepth] at key
    exact nonempty key.symm
  · rw [noStart 0x61 (suffix_refl _)] at isStart
    cases isStart

end LibClamav.Ac
