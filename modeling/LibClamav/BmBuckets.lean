import LibClamav.BmSource
import Mathlib.Data.List.Sort

namespace LibClamav.Bm

open List (map_cons mem_cons mem_map pairwise_cons)

/-!
# Load balanced buckets

What `cli_bm_addpatt` keeps true of the table: every pattern stands in the
bucket of its block, the chains are sorted by first byte, the shift of a bucket
is zero exactly when it has patterns, and the count of the head is the length
of the chain, in 16 bits.
-/

variable {chain : List BmPatt} {q : BmPatt}

/-- A signature without wildcards, as it is handed to `cli_bm_addpatt`. -/
structure BmSig where
  bytes : List UInt8
  virname : List Char := []
  boundaryEol : Bool := false
  longEnough : bmMinLength ≤ bytes.length
  fitsLength : bytes.length < 2 ^ 16

variable {sig : BmSig}

/-- The freshly allocated pattern of a signature. -/
def BmSig.patt (sig : BmSig) : BmPatt :=
  { pattern := sig.bytes
    length := sig.bytes.length
    virname := sig.virname
    boundaryEol := sig.boundaryEol }

/-- Add signatures with the offset `*`, in order. -/
def bmLoad (root : BmRoot) : List BmSig → Except ClError BmRoot
  | [] => .ok root
  | sig :: rest =>
    match cliBmAddpatt root sig.patt ['*'] with
    | .error code => .error code
    | .ok added => bmLoad added rest

/-- A pattern of the table that was made from a signature. -/
structure StoredAs (p : BmPatt) (sig : BmSig) : Prop where
  split : p.prefixLength + p.length = sig.bytes.length
  block : bmMinLength ≤ p.length
  pattern : p.pattern = sig.bytes.drop p.prefixLength
  whole : p.prefixLength ≠ 0 → p.prefixBytes = sig.bytes
  pattern0 : p.pattern0 = byteAt p.pattern 0
  offsetMin : p.offsetMin = offAny
  virname : p.virname = sig.virname
  boundaryEol : p.boundaryEol = sig.boundaryEol

/-- A pattern without its count, which belongs to its chain. -/
def BmPatt.core (p : BmPatt) : BmPatt := { p with cnt := 0 }

variable {p : BmPatt} (patt : BmPatt)

theorem storedAs_core_iff : StoredAs p.core sig ↔ StoredAs p sig :=
  ⟨fun stored => { stored with }, fun stored => { stored with }⟩

/-- Chains are sorted by first byte, the greatest one first. -/
def SortedChain (chain : List BmPatt) : Prop :=
  chain.Pairwise fun earlier later => later.pattern0 ≤ earlier.pattern0

/-- The order of a chain. -/
abbrev Precedes (earlier later : BmPatt) : Prop := later.pattern0 ≤ earlier.pattern0

instance : Std.Total Precedes := ⟨fun a b => UInt8.le_total b.pattern0 a.pattern0⟩

instance : IsTrans BmPatt Precedes := ⟨fun _ _ _ first second => UInt8.le_trans second first⟩

theorem placeBehind_core
    (chain : List BmPatt) :
    (placeBehind patt chain).map BmPatt.core =
      (chain.map BmPatt.core).orderedInsert Precedes patt.core := by
  induction chain with
  | nil => rfl
  | cons next rest ih =>
    rw [placeBehind, map_cons, List.orderedInsert_cons, ← ih]
    exact apply_ite (List.map BmPatt.core) _ _ _

/-- Apart from the counts, a pattern is inserted in order. -/
theorem chainInsert_core
    (chain : List BmPatt) :
    (chainInsert patt chain).map BmPatt.core =
      (chain.map BmPatt.core).orderedInsert Precedes patt.core := by
  cases chain with
  | nil => rfl
  | cons head rest =>
    rw [chainInsert, map_cons, List.orderedInsert_cons, ← placeBehind_core]
    exact apply_ite (List.map BmPatt.core) _ _ _

/-- A chain stays sorted. -/
theorem chainInsert_sorted
    {patt : BmPatt}
    (sorted : SortedChain chain) :
    SortedChain (chainInsert patt chain) := by
  have inserted : ((chainInsert patt chain).map BmPatt.core).Pairwise Precedes := by
    rw [chainInsert_core]
    exact List.Pairwise.orderedInsert patt.core _ (List.pairwise_map.mpr sorted)
  exact List.pairwise_map.mp inserted

/-- It has one pattern more. -/
theorem chainInsert_perm
    (chain : List BmPatt) :
    ((chainInsert patt chain).map BmPatt.core).Perm (patt.core :: chain.map BmPatt.core) := by
  rw [chainInsert_core]
  exact List.perm_orderedInsert Precedes _ _

/-- The head of a chain counts its patterns, in 16 bits. -/
def CountedChain (chain : List BmPatt) : Prop :=
  ∀ head ∈ chain.head?, head.cnt = chain.length % 2 ^ 16

/-- Its head counts the patterns. -/
theorem chainInsert_counted
    {patt : BmPatt}
    (fresh : patt.cnt = 0)
    (counted : CountedChain chain) :
    CountedChain (chainInsert patt chain) := by
  intro head isHead
  have lengths := (chainInsert_perm patt chain).length_eq
  rw [List.length_map, List.length_cons, List.length_map] at lengths
  rw [lengths]
  cases chain with
  | nil =>
    cases isHead
    simp [fresh]
  | cons first rest =>
    have firstCount := counted first rfl
    rw [List.length_cons] at firstCount ⊢
    have next : (first.cnt + 1) % 2 ^ 16 = (rest.length + 1 + 1) % 2 ^ 16 := by omega
    rw [chainInsert] at isHead
    split at isHead
    · cases isHead
      exact next
    · cases isHead
      exact next

variable {root : BmRoot}

/-- The block that is chosen lies within the pattern. -/
theorem freeBlock_fits
    {patt : BmPatt}
    (fuel : Nat)
    {i block : Nat}
    (finds : freeBlock root patt fuel i = some block) :
    block + bmMinLength ≤ patt.length := by
  induction fuel generalizing i block with
  | zero =>
    cases finds
  | succ fuel ih =>
    rw [freeBlock] at finds
    split_ifs at finds with fits empty
    · cases finds
      exact fits
    · exact ih finds

/-- A pattern of the table that stands for some bytes. -/
structure Holds (p : BmPatt) (bytes : List UInt8) : Prop where
  split : p.prefixLength + p.length = bytes.length
  block : bmMinLength ≤ p.length
  pattern : p.pattern = bytes.drop p.prefixLength
  whole : p.prefixLength ≠ 0 → p.prefixBytes = bytes
  pattern0 : p.pattern0 = byteAt p.pattern 0

theorem StoredAs.holds (stored : StoredAs p sig) : Holds p sig.bytes :=
  { stored with }

theorem Holds.of_core
    {bytes : List UInt8}
    (holds : Holds q bytes)
    (same : p.core = q.core) :
    Holds p bytes := by
  cases p
  cases q
  cases same
  exact { holds with }

/-- A pattern that was shifted to the block `cli_bm_addpatt` chooses for it. -/
def chooseBlock (root : BmRoot) (patt : BmPatt) : BmPatt :=
  match freeBlock root patt patt.length 0 with
  | some i => shiftPatt patt i
  | none => patt

/-- The pattern that `cli_bm_addpatt` puts into its bucket. -/
def placedPatt (root : BmRoot) (patt : BmPatt) (off : Offset) : BmPatt :=
  { chooseBlock root patt with
    offdata := off.offdata
    offsetMin :=
      if root.bmOffmode ∧ ¬ off.offdata.type = .absolute then
        root.bmPatterns
      else
        off.offsetMin
    offsetMax := off.offsetMax
    pattern0 := byteAt (chooseBlock root patt).pattern 0 }

theorem chooseBlock_keeps
    (root : BmRoot)
    (patt : BmPatt) :
    (chooseBlock root patt).virname = patt.virname ∧
      (chooseBlock root patt).boundaryEol = patt.boundaryEol ∧
      (chooseBlock root patt).filesize = patt.filesize ∧
      (chooseBlock root patt).cnt = patt.cnt := by
  unfold chooseBlock shiftPatt
  split
  · split
    · exact ⟨rfl, rfl, rfl, rfl⟩
    · exact ⟨rfl, rfl, rfl, rfl⟩
  · exact ⟨rfl, rfl, rfl, rfl⟩

theorem placedPatt_holds
    {patt : BmPatt}
    (root : BmRoot)
    (off : Offset)
    (unshifted : patt.prefixLength = 0)
    (whole : patt.length = patt.pattern.length)
    (longEnough : bmMinLength ≤ patt.length) :
    Holds (placedPatt root patt off) patt.pattern := by
  have stays (same : chooseBlock root patt = patt) :
      Holds (placedPatt root patt off) patt.pattern := by
    rw [placedPatt, same]
    exact
      { split := by
          show patt.prefixLength + patt.length = patt.pattern.length
          omega
        block := longEnough
        pattern := by
          show patt.pattern = patt.pattern.drop patt.prefixLength
          rw [unshifted, List.drop_zero]
        whole := fun shifted => absurd unshifted shifted
        pattern0 := rfl }
  cases finds : freeBlock root patt patt.length 0 with
  | none => exact stays (by simp only [chooseBlock, finds])
  | some block =>
    have fits := freeBlock_fits _ finds
    have same : chooseBlock root patt = shiftPatt patt block := by simp only [chooseBlock, finds]
    by_cases first : block = 0
    · exact stays (by rw [same, shiftPatt, if_pos first])
    · rw [placedPatt, same, shiftPatt, if_neg first]
      exact
        { split := by
            show block + (patt.length - block) = patt.pattern.length
            omega
          block := by
            show bmMinLength ≤ patt.length - block
            omega
          pattern := rfl
          whole := fun _ => rfl
          pattern0 := rfl }

/-- The place of a pattern in a table, and what else `cli_bm_addpatt` changes. -/
structure AddsPatt (root added : BmRoot) (patt : BmPatt) : Prop where
  type : added.type = root.type
  offmode : added.bmOffmode = root.bmOffmode
  patterns : added.bmPatterns = root.bmPatterns + 1
  pattab : added.bmPattab =
    if root.bmOffmode then root.bmPattab ++ [patt] else root.bmPattab
  shift : ∀ h, added.bmShift h =
    if h = bmHashAt patt.pattern 0 then min (root.bmShift h) 0
    else root.bmShift h
  suffix : ∀ h, added.bmSuffix h =
    if h = bmHashAt patt.pattern 0 then chainInsert patt (root.bmSuffix h)
    else root.bmSuffix h

/-- A pattern is put into the bucket of its block. -/
theorem cliBmAddpatt_adds
    {patt : BmPatt}
    {offset : List Char}
    {off : Offset}
    (longEnough : bmMinLength ≤ patt.length)
    (decodes : cliCaloff offset root.type = .ok off) :
    ∃ added, cliBmAddpatt root patt offset = .ok added ∧
        AddsPatt root added (placedPatt root patt off) := by
  unfold cliBmAddpatt
  rw [if_neg (not_lt.mpr longEnough), decodes]
  exact ⟨_, rfl, rfl, rfl, rfl, rfl, fun _ => rfl, fun _ => rfl⟩

/--
What holds of a table that items were loaded into; `Stored` says how an item is
kept.
-/
structure Table (Stored : BmPatt → α → Prop) (root : BmRoot) (items : List α) : Prop where
  shift : ∀ h, root.bmShift h = if root.bmSuffix h = [] then 1 else 0
  sorted : ∀ h, SortedChain (root.bmSuffix h)
  counted : ∀ h, CountedChain (root.bmSuffix h)
  sound : ∀ h, ∀ p ∈ root.bmSuffix h, bmHashAt p.pattern 0 = h ∧ ∃ item ∈ items, Stored p item
  complete : ∀ item ∈ items, ∃ h, ∃ p ∈ root.bmSuffix h, Stored p item

theorem cliBmInit_table
    (Stored : BmPatt → α → Prop)
    (root : BmRoot) :
    Table Stored (cliBmInit root) [] where
  shift _ := rfl
  sorted _ := List.Pairwise.nil
  counted _ := by
    intro head isHead
    cases isHead
  sound h p mem := by cases mem
  complete item mem := by cases mem

theorem mem_chainInsert
    {patt : BmPatt}
    (mem : p ∈ chainInsert patt chain) :
    ∃ q ∈ patt :: chain, p.core = q.core := by
  have inCores : p.core ∈ (chainInsert patt chain).map BmPatt.core := List.mem_map_of_mem mem
  rw [(chainInsert_perm patt chain).mem_iff, ← map_cons] at inCores
  obtain ⟨q, inChain, same⟩ := mem_map.mp inCores
  exact ⟨q, inChain, same.symm⟩

theorem chainInsert_mem
    {patt : BmPatt}
    (mem : q ∈ patt :: chain) :
    ∃ p ∈ chainInsert patt chain, p.core = q.core := by
  have inCores : q.core ∈ (patt :: chain).map BmPatt.core := List.mem_map_of_mem mem
  rw [map_cons, ← (chainInsert_perm patt chain).mem_iff] at inCores
  exact mem_map.mp inCores

/-- The table holds one pattern more. -/
theorem Table.insert
    {Stored : BmPatt → α → Prop}
    {root added : BmRoot}
    {items : List α}
    {item : α}
    {patt : BmPatt}
    (table : Table Stored root items)
    (adds : AddsPatt root added patt)
    (keeps : ∀ p q other, p.core = q.core → Stored q other → Stored p other)
    (fresh : patt.cnt = 0)
    (placed : Stored patt item) :
    Table Stored added (items ++ [item]) := by
  have isMember : item ∈ items ++ [item] := List.mem_append_right _ (List.mem_singleton.mpr rfl)
  refine
    { shift := ?_
      sorted := ?_
      counted := ?_
      sound := ?_
      complete := ?_ }
  · intro h
    rw [adds.shift, adds.suffix]
    by_cases here : h = bmHashAt patt.pattern 0
    · have nonempty : chainInsert patt (root.bmSuffix h) ≠ [] := by
        intro empty
        obtain ⟨p, mem, -⟩ := chainInsert_mem (List.mem_cons_self : patt ∈ patt :: root.bmSuffix h)
        rw [empty] at mem
        cases mem
      rw [if_pos here, if_pos here, if_neg nonempty, Nat.min_zero]
    · rw [if_neg here, if_neg here]
      exact table.shift h
  · intro h
    rw [adds.suffix]
    split
    · exact chainInsert_sorted (table.sorted h)
    · exact table.sorted h
  · intro h
    rw [adds.suffix]
    split
    · exact chainInsert_counted fresh (table.counted h)
    · exact table.counted h
  · intro h p mem
    rw [adds.suffix] at mem
    split_ifs at mem with here
    · obtain ⟨q, inChain, same⟩ := mem_chainInsert mem
      have samePattern : p.pattern = q.pattern := by
        show p.core.pattern = q.core.pattern
        rw [same]
      rcases mem_cons.mp inChain with isPatt | isOld
      · subst q
        rw [samePattern]
        exact ⟨here.symm, item, isMember, keeps p patt item same placed⟩
      · obtain ⟨hash, other, otherMember, stored⟩ := table.sound h q isOld
        rw [samePattern]
        exact ⟨hash, other, List.mem_append_left _ otherMember, keeps p q other same stored⟩
    · obtain ⟨hash, other, otherMember, stored⟩ := table.sound h p mem
      exact ⟨hash, other, List.mem_append_left _ otherMember, stored⟩
  · intro other otherMember
    have keepsChain (h : Nat) (q : BmPatt)
        (inChain : q ∈ root.bmSuffix h ∨ (q = patt ∧ h = bmHashAt patt.pattern 0))
        (stored : Stored q other) :
        ∃ h, ∃ p ∈ added.bmSuffix h, Stored p other := by
      by_cases here : h = bmHashAt patt.pattern 0
      · have inNew : q ∈ patt :: root.bmSuffix h := by
          rcases inChain with isOld | ⟨isPatt, -⟩
          · exact List.mem_cons_of_mem _ isOld
          · rw [isPatt]
            exact List.mem_cons_self
        obtain ⟨p, mem, same⟩ := chainInsert_mem inNew
        refine ⟨h, p, ?_, keeps p q other same stored⟩
        rw [adds.suffix, if_pos here]
        exact mem
      · refine ⟨h, q, ?_, stored⟩
        rw [adds.suffix, if_neg here]
        exact inChain.resolve_right fun ⟨_, isHere⟩ => here isHere
    rcases List.mem_append.mp otherMember with isOld | isNew
    · obtain ⟨h, q, mem, stored⟩ := table.complete other isOld
      exact keepsChain h q (.inl mem) stored
    · rw [List.mem_singleton.mp isNew] at keepsChain ⊢
      exact keepsChain _ patt (.inr ⟨rfl, rfl⟩) placed

/-- What holds of a table that signatures were loaded into. -/
structure BmInv (root : BmRoot) (sigs : List BmSig) : Prop where
  offmode : root.bmOffmode = false
  table : Table StoredAs root sigs

theorem cliBmInit_inv (offmode : root.bmOffmode = false) : BmInv (cliBmInit root) [] :=
  ⟨offmode, cliBmInit_table _ _⟩

/-- The range of the offset `*`. -/
def anyOffset : Offset := ⟨{ type := .any }, offAny, offAny⟩

theorem placedPatt_storedAs
    (sig : BmSig)
    (offmode : root.bmOffmode = false) :
    StoredAs (placedPatt root sig.patt anyOffset) sig := by
  have holds := @placedPatt_holds sig.patt root anyOffset rfl rfl sig.longEnough
  obtain ⟨virname, boundaryEol, -, -⟩ := chooseBlock_keeps root sig.patt
  refine { holds with offsetMin := ?_, virname, boundaryEol }
  show (if root.bmOffmode = true ∧ ¬ OffType.any = OffType.absolute then
    root.bmPatterns else offAny) = offAny
  rw [offmode, if_neg fun ⟨set, _⟩ => Bool.noConfusion set]

theorem cliBmAddpatt_star
    (root : BmRoot)
    (sig : BmSig) :
    ∃ added, cliBmAddpatt root sig.patt ['*'] = .ok added ∧
        AddsPatt root added (placedPatt root sig.patt anyOffset) :=
  cliBmAddpatt_adds sig.longEnough rfl

/-- A signature keeps the invariant. -/
theorem cliBmAddpatt_inv
    {sigs : List BmSig}
    (sig : BmSig)
    (inv : BmInv root sigs) :
    ∃ added, cliBmAddpatt root sig.patt ['*'] = .ok added ∧ BmInv added (sigs ++ [sig]) := by
  obtain ⟨added, adds, changes⟩ := cliBmAddpatt_star root sig
  refine ⟨added, adds, changes.offmode.trans inv.offmode, ?_⟩
  refine inv.table.insert changes ?_ ?_ (placedPatt_storedAs sig inv.offmode)
  · intro p q other same stored
    rw [← storedAs_core_iff, same, storedAs_core_iff]
    exact stored
  · exact (chooseBlock_keeps root sig.patt).2.2.2

/-- So do all signatures. -/
theorem bmLoad_inv
    (sigs : List BmSig)
    (root : BmRoot)
    (loaded : List BmSig)
    (inv : BmInv root loaded) :
    ∃ final,
      bmLoad root sigs = .ok final ∧ BmInv final (loaded ++ sigs) := by
  induction sigs generalizing root loaded with
  | nil =>
    rw [List.append_nil]
    exact ⟨root, rfl, inv⟩
  | cons sig rest ih =>
    obtain ⟨added, adds, addedInv⟩ := cliBmAddpatt_inv sig inv
    obtain ⟨final, loads, finalInv⟩ := ih added (loaded ++ [sig]) addedInv
    refine ⟨final, ?_, ?_⟩
    · rw [bmLoad, adds]
      exact loads
    · rw [List.append_assoc] at finalInv
      exact finalInv

end LibClamav.Bm
