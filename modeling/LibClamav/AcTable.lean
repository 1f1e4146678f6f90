import LibClamav.AcAddsig

namespace LibClamav.Ac

open LinkedChain List

/-!
# Tables whose patterns have keys of their own

Where no two patterns of a matcher enter the trie with the same bytes, every
pattern is the only one on its list and alone in its group, and a scan can be
computed from the table of the patterns.
-/

/-- The patterns of a table with one key. -/
def tableOwn (maxdepth : Nat) (table : List AcPatt) (w : List UInt8) : List Nat :=
  (range table.length).filter fun p => acKey maxdepth (table.getD p { pattern := [] }) = w

/-- A matcher that has nothing but a table. -/
def tableRoot (maxdepth : Nat) (table : List AcPatt) : AcRoot :=
  { acMindepth := 0
    acMaxdepth := maxdepth
    node := fun _ => {}
    acPattable := table }

/-- The hits of a scan, computed from the table. -/
def tableHits
    (maxdepth : Nat)
    (table : List AcPatt)
    (buffer : List UInt8)
    (args : ScanArgs) :
    List Hit :=
  (visitsFrom (tableOwn maxdepth table) (fun _ => false) [] 0 buffer).flatMap
    (hitsAt (tableRoot maxdepth table) (fun p => [p]) buffer args)

/-- A scan, computed from the table. -/
def tableScan
    (maxdepth : Nat)
    (table : List AcPatt)
    (buffer : List UInt8)
    (args : ScanArgs)
    (state : AcState) :
    AcCode × AcState :=
  scanReturn args (run (reportHit (tableRoot maxdepth table) args)
      (tableHits maxdepth table buffer args) { state with type := 0 })

/-- The keys of a table are nonempty and differ from each other. -/
structure OwnKeys (maxdepth : Nat) (table : List AcPatt) : Prop where
  nodup : (table.map (acKey maxdepth)).Nodup
  nonempty : ∀ patt ∈ table, acKey maxdepth patt ≠ []

instance (maxdepth : Nat) (table : List AcPatt) :
    Decidable (OwnKeys maxdepth table) :=
  decidable_of_iff ((table.map (acKey maxdepth)).Nodup ∧ ∀ patt ∈ table, acKey maxdepth patt ≠ [])
    ⟨fun both => ⟨both.1, both.2⟩, fun keys => ⟨keys.nodup, keys.nonempty⟩⟩

section

variable {base built : AcRoot} {word : Nat → List UInt8}
variable {own : List UInt8 → List Nat} {group : Nat → List Nat} {p : Nat}

theorem OwnKeys.inj
    (keys : OwnKeys base.acMaxdepth base.acPattable)
    {q : Nat}
    (pInside : p < base.acPattable.length)
    (qInside : q < base.acPattable.length)
    (same : acKey base.acMaxdepth (base.patt p) = acKey base.acMaxdepth (base.patt q)) :
    p = q := by
  rw [base.patt_eq_getElem pInside, base.patt_eq_getElem qInside] at same
  have pMapped : p < (base.acPattable.map (acKey base.acMaxdepth)).length := by simpa using pInside
  have qMapped : q < (base.acPattable.map (acKey base.acMaxdepth)).length := by simpa using qInside
  have sameKey : (base.acPattable.map (acKey base.acMaxdepth))[p] =
      (base.acPattable.map (acKey base.acMaxdepth))[q] := by
    rw [getElem_map, getElem_map]
    exact same
  exact keys.nodup.getElem_inj_iff.mp sameKey

section

variable (keys : OwnKeys base.acMaxdepth base.acPattable) (inv : AcInv base word own group)

include keys inv

/-- With keys of their own patterns are alone in their groups. -/
theorem OwnKeys.group_eq
    {w : List UInt8}
    (isOwn : p ∈ own w) :
    group p = [p] := by
  obtain ⟨rest, isGroup, -⟩ := inv.groups.eq_cons isOwn
  have nodup := inv.groups.nodup isOwn
  have onlyHead {q : Nat} (mem : q ∈ group p) : q = p := by
    rcases inv.groups.same isOwn mem with isHead | same
    · exact isHead
    · refine keys.inj (inv.groups.valid isOwn mem) (inv.lists.valid isOwn) ?_
      unfold acKey
      rw [(samePatt_true_iff.mp same).1]
  rw [isGroup] at nodup onlyHead ⊢
  cases rest with
  | nil => rfl
  | cons q rest =>
    have isHead : q = p := onlyHead (by simp)
    rw [isHead] at nodup
    simp at nodup

theorem OwnKeys.mem_own_iff
    {w : List UInt8} :
    p ∈ own w ↔ p < base.acPattable.length ∧ acKey base.acMaxdepth (base.patt p) = w := by
  constructor
  · exact fun isOwn => ⟨inv.lists.valid isOwn, inv.lists.key isOwn⟩
  rintro ⟨inside, isKey⟩
  obtain ⟨v, head, isOwn, mem⟩ := inv.groups.covers inside
  rw [keys.group_eq inv isOwn, mem_singleton] at mem
  rw [← mem] at isOwn
  rw [← isKey, inv.lists.key isOwn]
  exact isOwn

/-- The lists are those of the table. -/
theorem OwnKeys.own_eq : own = tableOwn base.acMaxdepth base.acPattable := by
  funext w
  have sameMembers : ∀ p, p ∈ own w ↔ p ∈ tableOwn base.acMaxdepth base.acPattable w := by
    intro p
    rw [keys.mem_own_iff inv, tableOwn, mem_filter, mem_range, decide_eq_true_iff]
    exact Iff.rfl
  have perm := (perm_ext_iff_of_nodup (inv.lists.nodup w) (nodup_range.filter _)).mpr sameMembers
  have nodup := inv.lists.nodup w
  cases isOwn : own w with
  | nil =>
    rw [isOwn] at perm
    exact perm.nil_eq
  | cons p rest =>
    cases rest with
    | nil =>
      rw [isOwn] at perm
      exact perm.singleton_eq
    | cons q rest =>
      have pOwn := (keys.mem_own_iff inv (p := p) (w := w)).mp (by simp [isOwn])
      have qOwn := (keys.mem_own_iff inv (p := q) (w := w)).mp (by simp [isOwn])
      have same := keys.inj pOwn.1 qOwn.1 (pOwn.2.trans qOwn.2.symm)
      rw [isOwn, same] at nodup
      simp at nodup

end

theorem full_starts
    (own : List UInt8 → List Nat)
    (starts : UInt8 → Bool)
    (noRoot : own [] = [])
    (w : List UInt8) :
    full own starts w = full own (fun _ => false) w := by
  induction w with
  | nil => rfl
  | cons b w ih =>
    rw [full, full, ih]
    by_cases isLast : w = []
    · subst isLast
      simp [full, noRoot]
    · simp [isLast]

theorem visitsFrom_starts
    (own : List UInt8 → List Nat)
    (starts : UInt8 → Bool)
    (noRoot : own [] = [])
    (rest : List UInt8)
    (text : List UInt8)
    (i : Nat) :
    visitsFrom own starts text i rest =
      visitsFrom own (fun _ => false) text i rest := by
  induction rest generalizing text i with
  | nil => rfl
  | cons b rest ih =>
    rw [visitsFrom, visitsFrom, full_starts own starts noRoot, ih]

theorem tableRoot_patt
    (done : Built base built word own)
    (p : Nat) :
    built.patt p = (tableRoot base.acMaxdepth base.acPattable).patt p := by
  unfold AcRoot.patt
  rw [done.tables.pattable]
  rfl

/-- So are the hits. -/
theorem OwnKeys.hitsOf_eq
    (keys : OwnKeys base.acMaxdepth base.acPattable)
    (inv : AcInv base word own group)
    (done : Built base built word own)
    (buffer : List UInt8)
    (args : ScanArgs) :
    hitsOf base built own group buffer args =
      tableHits base.acMaxdepth base.acPattable buffer args := by
  have noRoot : own [] = [] := by
    refine eq_nil_iff_forall_not_mem.mpr fun p isOwn => ?_
    have inside := inv.lists.valid isOwn
    refine keys.nonempty _ (getElem_mem inside) ?_
    rw [← base.patt_eq_getElem inside]
    exact inv.lists.key isOwn
  unfold hitsOf tableHits
  rw [visitsFrom_starts own _ noRoot, ← keys.own_eq inv]
  refine flatMap_congr fun visit mem => ?_
  obtain ⟨i, p⟩ := visit
  obtain ⟨w, -, isOwn⟩ := own_of_mem_full ((mem_visitsFrom buffer).mp mem).2.2
  have isGroup := keys.group_eq inv isOwn
  have alone : built.nextSame p = none := by
    have chain := inv.groups.chain isOwn
    rw [isGroup] at chain
    rw [done.tables.nextSame]
    exact chain.2
  have noSkip : skipsHead built args p =
      skipsHead (tableRoot base.acMaxdepth base.acPattable) args p := by
    funext realoff
    unfold skipsHead
    rw [tableRoot_patt done, alone]
    rfl
  unfold hitsAt
  rw [isGroup, noSkip, tableRoot_patt done]

end

/-- What a completed matcher does is computed from a table. -/
theorem Loaded.scan_eq_tableScan
    {base : AcRoot}
    (loaded : Loaded base)
    (keys : OwnKeys base.acMaxdepth base.acPattable) :
    ∃ built, cliAcBuildtrie base = some built ∧
      cliAcScanbuff built = tableScan base.acMaxdepth base.acPattable := by
  obtain ⟨word, own, group, inv⟩ := loaded
  obtain ⟨built, builds, done⟩ := cliAcBuildtrie_built inv
  have samePatt := tableRoot_patt done
  have sameReport : reportHit built = reportHit (tableRoot base.acMaxdepth base.acPattable) := by
    funext args hit state
    unfold reportHit
    rw [samePatt, samePatt]
  refine ⟨built, builds, ?_⟩
  funext buffer args state
  rw [cliAcScanbuff_eq inv done, keys.hitsOf_eq inv done, sameReport]
  rfl

end LibClamav.Ac
