import Mathlib.Data.Finset.Card
import Mathlib.Algebra.Order.BigOperators.Group.List
import Mathlib.Algebra.Order.Ring.Nat
import Mathlib.Algebra.Module.NatInt

namespace LibClamav.Ole2

open List

/-!
# The walk through the properties of an OLE2 file

`ole2_walk_property_tree` follows links that the file chooses, and gives the
streams on its way to a handler.  A property is visited at most once, so the
properties bound the calls that are active together and the streams that are
given away; the recursion level does not.
-/

/-- A property as it stands in the file. -/
structure Property where
  type : UInt8
  prev : UInt32
  next : UInt32
  child : UInt32
  size : UInt32

/-- The links in the order of the calls; a call takes an `int32_t`. -/
def Property.links (p : Property) : List Int :=
  [p.prev, p.next, p.child].map fun link => link.toInt32.toInt

/--
The properties that can be read, and what the calls made for each of them return.
A handler that scans its stream also raises `ctx->scannedfiles`.
-/
structure Header where
  maxBlockNo : UInt32
  property : Nat → Option Property
  handler : Nat → Nat → Int × Nat
  mkdir : Nat → Int

/-- `(int32_t) hdr->max_block_no` -/
def lastIndex (maxBlockNo : UInt32) : Int := maxBlockNo.toInt32.toInt

/-- The number of the indices that a call accepts. -/
def indices (maxBlockNo : UInt32) : Nat := (lastIndex maxBlockNo + 1).toNat

/-- The limits of the engine; 0 is none. -/
structure Limits where
  maxfiles : Nat
  maxreclevel : Nat
  maxfilesize : Nat

/-- The state of a walk, with the sizes of the streams that the handler has got. -/
structure Walk where
  bitset : Finset Nat
  fileCount : Nat
  scannedfiles : Nat
  scansize : Nat
  streams : List UInt32

def clSuccess : Int := 0

def clBreak : Int := 23

def Walk.mark (s : Walk) (index : Nat) : Walk :=
  { s with bitset := insert index s.bitset }

/-- A stream is counted and given away; the counter is an `unsigned long` of `w` bits. -/
def Walk.give (w : Nat) (s : Walk) (size : UInt32) (scannedfiles : Nat) : Walk :=
  { s with fileCount := s.fileCount + 1
           scannedfiles := scannedfiles
           scansize := (s.scansize + 2 ^ w - size.toNat) % 2 ^ w
           streams := size :: s.streams }

/-- The test of a stream, from the limits and the bytes left to its size. -/
abbrev Test := Limits → Nat → UInt32 → Bool

/-- The test of the code: one of the two limits is enough. -/
def eitherLimit : Test := fun lim scansize size =>
  lim.maxfilesize = 0 ∨ size.toNat ≤ lim.maxfilesize ∨ size.toNat ≤ scansize

/-- A call returns, or goes on with the links of its property. -/
inductive Visit where
  | ends (ret : Int) (s : Walk)
  | follows (level : Nat) (links : List Int) (s : Walk)

def Visit.state : Visit → Walk
  | .ends _ s => s
  | .follows _ _ s => s

section

variable (w : Nat) (admits : Test) (o : Header) (lim : Limits)

/-- The body of the function up to its calls for the links. -/
def visit (propIndex : Int) (recLevel : Nat) (s : Walk) : Visit :=
  if propIndex < 0 ∨ lastIndex o.maxBlockNo < propIndex ∨ 100 < recLevel ∨ 100000 < s.fileCount ∨
      (lim.maxfiles ≠ 0 ∧ lim.maxfiles < s.fileCount) ∨
      (lim.maxreclevel ≠ 0 ∧ lim.maxreclevel < recLevel) then
    .ends clSuccess s
  else
    match o.property propIndex.toNat with
    | none => .ends clSuccess s
    | some p =>
      let marked := s.mark propIndex.toNat
      if p.type = 0 then .ends clSuccess s
      else if propIndex.toNat ∈ s.bitset then .ends clBreak s
      else if p.type = 5 then
        if propIndex ≠ 0 ∨ recLevel ≠ 0 ∨ s.fileCount ≠ 0 then .ends clSuccess marked
        else .follows (recLevel + 1) p.links marked
      else if p.type = 2 then
        if lim.maxfiles ≠ 0 ∧ lim.maxfiles < (s.scannedfiles + s.fileCount) % 2 ^ 32 then
          .ends clBreak marked
        else if admits lim s.scansize p.size then
          let (ret, scannedfiles) := o.handler propIndex.toNat s.scannedfiles
          let given := marked.give w p.size scannedfiles
          if ret = clSuccess then .follows recLevel p.links given else .ends ret given
        else .follows recLevel p.links marked
      else if p.type = 1 then
        if o.mkdir propIndex.toNat = 0 then .follows (recLevel + 1) p.links marked
        else .ends clBreak marked
      else .ends clSuccess marked

/-- The calls for the links of a property, up to the first one that does not succeed. -/
def walkLinks (call : Int → Walk → Option (Int × Walk)) : List Int → Walk → Option (Int × Walk)
  | [], s => some (clSuccess, s)
  | link :: links, s =>
    match call link s with
    | none => none
    | some (ret, s) => if ret = clSuccess then walkLinks call links s else some (ret, s)

/-- The walk with room for a number of active calls; `none` when it needs more. -/
def walkWith : Nat → Int → Nat → Walk → Option (Int × Walk)
  | 0, _, _, _ => none
  | calls + 1, propIndex, recLevel, s =>
    match visit w admits o lim propIndex recLevel s with
    | .ends ret s => some (ret, s)
    | .follows level links s => walkLinks (walkWith calls · level) links s

/-- `ole2_walk_property_tree` -/
def walkPropertyTree : Nat → Int → Nat → Walk → Option (Int × Walk) :=
  walkWith w eitherLimit o lim

end

/--
The bytes that `cli_ole2_extract` lets a walk give away; it does not start one if
the limit has been reached.
-/
def startScansize (w maxscansize scanned : Nat) : Option Nat :=
  if maxscansize ≠ 0 then
    if scanned < maxscansize then some ((maxscansize - scanned) % 2 ^ w) else none
  else
    some (2 ^ w - 1)

/-- The walk starts with no property visited. -/
def start (scansize scannedfiles : Nat) : Walk := ⟨∅, 0, scannedfiles, scansize, []⟩

section

variable (o : Header)

/-- The properties that a walk can still visit. -/
def unvisited (s : Walk) : Nat := (Finset.range (indices o.maxBlockNo) \ s.bitset).card

/-- A walk starts with every property before it. -/
theorem unvisited_start
    (scansize scannedfiles : Nat) :
    unvisited o (start scansize scannedfiles) = indices o.maxBlockNo := by
  rw [unvisited, start, Finset.sdiff_empty, Finset.card_range]

variable {o} {s : Walk} {index : Nat}

/-- A visit of a new property leaves one less. -/
theorem unvisited_mark
    (inside : index < indices o.maxBlockNo)
    (fresh : index ∉ s.bitset) :
    unvisited o (s.mark index) + 1 = unvisited o s := by
  have here : index ∈ Finset.range (indices o.maxBlockNo) \ s.bitset :=
    Finset.mem_sdiff.mpr ⟨Finset.mem_range.mpr inside, fresh⟩
  rw [unvisited, Walk.mark, Finset.sdiff_insert, Finset.card_erase_add_one here, unvisited]

variable {w : Nat} {admits : Test} {lim : Limits} {propIndex : Int} {recLevel : Nat}

/-- What one call does to the state before it follows the links. -/
inductive Touches (w : Nat) (admits : Test) (o : Header) (lim : Limits) (index : Nat) (s : Walk) :
    Walk → Prop where
  | mark : Touches w admits o lim index s (s.mark index)
  | give (p : Property) (scannedfiles : Nat)
      (isProperty : o.property index = some p)
      (isFile : p.type = 2)
      (few : s.fileCount ≤ 100000)
      (admitted : admits lim s.scansize p.size = true) :
      Touches w admits o lim index s ((s.mark index).give w p.size scannedfiles)

/--
A call returns in its state, or it visits a property for the first time: it marks
the property, and gives away its stream if the test admits it.
-/
theorem visit_cases
    (w : Nat)
    (admits : Test)
    (o : Header)
    (lim : Limits)
    (propIndex : Int)
    (recLevel : Nat)
    (s : Walk) :
    (∃ ret, visit w admits o lim propIndex recLevel s = .ends ret s) ∨
      propIndex.toNat < indices o.maxBlockNo ∧ propIndex.toNat ∉ s.bitset ∧
        Touches w admits o lim propIndex.toNat s
          (visit w admits o lim propIndex recLevel s).state := by
  rw [visit]
  split
  case isTrue => exact .inl ⟨_, rfl⟩
  case isFalse accepted =>
  push Not at accepted
  have inside : propIndex.toNat < indices o.maxBlockNo := by
    unfold indices
    omega
  cases isProperty : o.property propIndex.toNat with
  | none => exact .inl ⟨_, rfl⟩
  | some p =>
    by_cases fresh : propIndex.toNat ∈ s.bitset
    · simp only [if_pos fresh]
      split_ifs
      · exact .inl ⟨_, rfl⟩
      · exact .inl ⟨_, rfl⟩
    dsimp only
    have marks : Touches w admits o lim propIndex.toNat s (s.mark propIndex.toNat) := .mark
    split_ifs with _ _ _ isFile _ admitted
    · exact .inl ⟨_, rfl⟩
    · exact .inr ⟨inside, fresh, marks⟩
    · exact .inr ⟨inside, fresh, marks⟩
    · exact .inr ⟨inside, fresh, marks⟩
    · exact .inr ⟨inside, fresh, .give p _ isProperty isFile (by omega) admitted⟩
    · exact .inr ⟨inside, fresh, .give p _ isProperty isFile (by omega) admitted⟩
    · exact .inr ⟨inside, fresh, marks⟩
    · exact .inr ⟨inside, fresh, marks⟩
    · exact .inr ⟨inside, fresh, marks⟩
    · exact .inr ⟨inside, fresh, marks⟩

/-- An invariant that no visit of a new property breaks. -/
def Kept
    (w : Nat)
    (admits : Test)
    (o : Header)
    (lim : Limits)
    (I : Walk → Prop) :
    Prop :=
  ∀ s s' index, index < indices o.maxBlockNo → index ∉ s.bitset →
    Touches w admits o lim index s s' → I s → I s'

variable {I : Walk → Prop} {call : Int → Walk → Option (Int × Walk)} {calls : Nat} {ret : Int}
  {s' : Walk}

/-- A visit keeps what the visit of a new property keeps. -/
theorem Kept.visit
    (kept : Kept w admits o lim I)
    (here : I s) :
    I (visit w admits o lim propIndex recLevel s).state := by
  rcases visit_cases w admits o lim propIndex recLevel s with
    ⟨ret, stays⟩ | ⟨inside, fresh, touches⟩
  · rwa [stays]
  · exact kept _ _ _ inside fresh touches here

/-- The calls for the links keep what each of them keeps. -/
theorem walkLinks_keeps
    (keeps : ∀ link s ret s', call link s = some (ret, s') → I s → I s')
    {links : List Int}
    (result : walkLinks call links s = some (ret, s'))
    (here : I s) :
    I s' := by
  induction links generalizing s with
  | nil =>
    cases result
    exact here
  | cons link links inductionHypothesis =>
    rw [walkLinks] at result
    cases called : call link s with
    | none =>
      rw [called] at result
      cases result
    | some after =>
      have next := keeps _ _ _ _ called here
      rw [called] at result
      dsimp only at result
      split_ifs at result
      · exact inductionHypothesis result next
      · cases result
        exact next

/-- A whole walk keeps what the visit of a new property keeps. -/
theorem walk_keeps
    (kept : Kept w admits o lim I)
    (result : walkWith w admits o lim calls propIndex recLevel s = some (ret, s'))
    (here : I s) :
    I s' := by
  induction calls generalizing propIndex recLevel s ret s' with
  | zero => cases result
  | succ calls inductionHypothesis =>
    have next : I (visit w admits o lim propIndex recLevel s).state := kept.visit here
    rw [walkWith] at result
    cases isVisit : visit w admits o lim propIndex recLevel s with
    | ends ret after =>
      rw [isVisit] at result next
      cases result
      exact next
    | follows level links after =>
      rw [isVisit] at result next
      exact walkLinks_keeps (fun _ _ _ _ => inductionHypothesis) result next

/-- The walk returns, in a state with the invariant. -/
def Ends (I : Walk → Prop) (result : Option (Int × Walk)) : Prop :=
  ∃ ret s', result = some (ret, s') ∧ I s'

/-- The calls for the links return if each of them does. -/
theorem walkLinks_ends
    (ends : ∀ link s, I s → Ends I (call link s))
    (links : List Int)
    (here : I s) :
    Ends I (walkLinks call links s) := by
  induction links generalizing s with
  | nil => exact ⟨_, s, rfl, here⟩
  | cons link links inductionHypothesis =>
    obtain ⟨ret, next, result, holds⟩ := ends link s here
    rw [walkLinks, result]
    dsimp only
    split_ifs with success
    · exact inductionHypothesis holds
    · exact ⟨ret, next, rfl, holds⟩

/-- No visit of a new property brings a property back. -/
theorem unvisited_touches
    {s' : Walk}
    (inside : index < indices o.maxBlockNo)
    (fresh : index ∉ s.bitset)
    (touches : Touches w admits o lim index s s') :
    unvisited o s' + 1 = unvisited o s := by
  cases touches with
  | mark => exact unvisited_mark inside fresh
  | give => exact unvisited_mark inside fresh

/-- Only fewer properties are left than a number. -/
theorem kept_unvisited (left : Nat) : Kept w admits o lim fun s => unvisited o s ≤ left := by
  intro s s' index inside fresh touches few
  have fewer := unvisited_touches inside fresh touches
  omega

/-- A call visits a property that no active call visits, so the properties bound the calls. -/
theorem walk_returns
    (enough : unvisited o s < calls) :
    ∃ ret s', walkWith w admits o lim calls propIndex recLevel s = some (ret, s') := by
  induction calls generalizing propIndex recLevel s with
  | zero => exact absurd enough (Nat.not_lt_zero _)
  | succ calls inductionHypothesis =>
    rw [walkWith]
    cases isVisit : visit w admits o lim propIndex recLevel s with
    | ends ret after => exact ⟨ret, after, rfl⟩
    | follows level links after =>
      have fewer : unvisited o after + 1 = unvisited o s := by
        rcases visit_cases w admits o lim propIndex recLevel s with
          ⟨ret, stays⟩ | ⟨inside, fresh, touches⟩
        · rw [isVisit] at stays
          cases stays
        · rw [isVisit] at touches
          exact unvisited_touches inside fresh touches
      have all (link : Int) (s : Walk) (few : unvisited o s ≤ unvisited o after) :
          Ends (fun s => unvisited o s ≤ unvisited o after)
            (walkWith w admits o lim calls link level s) := by
        obtain ⟨ret, s', result⟩ := @inductionHypothesis s link level (by omega)
        exact ⟨ret, s', result, walk_keeps (kept_unvisited _) result few⟩
      obtain ⟨ret, s', result, -⟩ := walkLinks_ends all links le_rfl
      exact ⟨ret, s', result⟩

/-- The walk returns and keeps what the visit of a new property keeps. -/
theorem walk_ends
    (kept : Kept w admits o lim I)
    (enough : unvisited o s < calls)
    (here : I s) :
    Ends I (walkWith w admits o lim calls propIndex recLevel s) := by
  obtain ⟨ret, s', result⟩ :=
    @walk_returns o s w admits lim propIndex recLevel calls enough
  exact ⟨ret, s', result, walk_keeps kept result here⟩

end

/-- Every walk ends, with at most one stream for each property. -/
theorem walk_gives_few_streams
    (w : Nat)
    (o : Header)
    (lim : Limits)
    (scansize scannedfiles : Nat) :
    Ends (fun s => s.streams.length ≤ indices o.maxBlockNo)
      (walkPropertyTree w o lim (indices o.maxBlockNo + 1) 0 0 (start scansize scannedfiles)) := by
  have all := (unvisited_start o scansize scannedfiles).le
  have kept : Kept w eitherLimit o lim fun s =>
      s.streams.length + unvisited o s ≤ indices o.maxBlockNo := by
    intro s s' index inside fresh touches few
    have fewer := unvisited_touches inside fresh touches
    cases touches with
    | mark =>
      change s.streams.length + _ ≤ _
      omega
    | give =>
      change s.streams.length + 1 + _ ≤ _
      omega
  obtain ⟨ret, s, runs, few⟩ := @walk_ends o (start scansize scannedfiles) w eitherLimit lim 0 0 _
    (indices o.maxBlockNo + 1) kept (Nat.lt_succ_of_le all) ((Nat.zero_add _).trans_le all)
  exact ⟨ret, s, runs, Nat.le_of_add_right_le few⟩

section

/-- Streams of one size, each linked to the next one -/
def chain (maxBlockNo size : UInt32) : Header where
  maxBlockNo := maxBlockNo
  property index := some ⟨2, -1, UInt32.ofNat (index + 1), -1, size⟩
  handler _ scannedfiles := (clSuccess, scannedfiles)
  mkdir _ := 0

/-- The walk along a chain, before the stream with this index -/
structure Before (i : Nat) (s : Walk) : Prop where
  count : s.fileCount = i
  visited : ∀ j ∈ s.bitset, j < i

variable {w : Nat} {lim : Limits} {last size : UInt32} {i calls : Nat} {s : Walk}

/-- A walk starts before the first stream. -/
theorem before_start (scansize scannedfiles : Nat) : Before 0 (start scansize scannedfiles) :=
  ⟨rfl, fun _ held => absurd held (Finset.notMem_empty _)⟩

/-- A stream given away brings the walk before the next one. -/
theorem Before.give
    (before : Before i s)
    (size : UInt32)
    (scannedfiles : Nat) :
    Before (i + 1) ((s.mark i).give w size scannedfiles) := by
  refine ⟨congrArg Nat.succ before.count, fun j held => ?_⟩
  rcases Finset.mem_insert.mp held with rfl | earlier
  · exact Nat.lt_succ_self _
  · exact Nat.lt_succ_of_lt (before.visited j earlier)

/-- The link -1 leads nowhere. -/
theorem walk_none
    (o : Header) :
    walkPropertyTree w o lim (calls + 1) (-1) 0 s = some (clSuccess, s) := by
  rw [walkPropertyTree, walkWith, visit, if_pos (.inl (by decide))]

/-- The links of a stream in a chain -/
theorem chain_links
    (few : i ≤ 100000) :
    Property.links ⟨2, -1, UInt32.ofNat (i + 1), -1, size⟩ = [-1, ↑(i + 1), -1] := by
  have isNext : (UInt32.ofNat (i + 1)).toInt32.toInt = ↑(i + 1) := by
    have small : (UInt32.ofNat (i + 1)).toNat = i + 1 :=
      UInt32.toNat_ofNat_of_lt' (by unfold UInt32.size; omega)
    change (UInt32.ofNat (i + 1)).toBitVec.toInt = _
    rw [BitVec.toInt_eq_toNat_cond]
    change (if 2 * (UInt32.ofNat (i + 1)).toNat < 2 ^ 32 then
      ((UInt32.ofNat (i + 1)).toNat : Int) else _) = _
    rw [small, if_pos (by omega)]
  simp only [Property.links, map_cons, map_nil, isNext]
  rfl

variable (noLimit : lim.maxfiles = 0) (admitted : size.toNat ≤ lim.maxfilesize)

include noLimit admitted

/-- A call for a stream of a chain gives it away and goes on with its links. -/
theorem walk_chain
    (inside : i < indices last)
    (few : i ≤ 100000)
    (before : Before i s) :
    walkPropertyTree w (chain last size) lim (calls + 1) i 0 s =
      walkLinks (walkPropertyTree w (chain last size) lim calls · 0) [-1, ↑(i + 1), -1]
        ((s.mark i).give w size s.scannedfiles) := by
  have count := before.count
  have fresh : i ∉ s.bitset := fun held => absurd (before.visited i held) (lt_irrefl i)
  have accepted : ¬ lastIndex last < i := by
    unfold indices at inside
    omega
  have isVisit : visit w eitherLimit (chain last size) lim i 0 s =
      .follows 0 [-1, ↑(i + 1), -1] ((s.mark i).give w size s.scannedfiles) := by
    rw [visit, if_neg (by simp [chain, noLimit, accepted]; omega),
      ← @chain_links size i few]
    simp [chain, fresh, noLimit, admitted, eitherLimit]
  rw [walkPropertyTree, walkWith, isVisit]

/-- A chain needs a call for each of its streams. -/
theorem walk_chain_deep
    (inside : calls + i ≤ indices last)
    (few : calls + i ≤ 100001)
    (before : Before i s) :
    walkPropertyTree w (chain last size) lim calls i 0 s = none := by
  induction calls generalizing i s with
  | zero => rfl
  | succ calls inductionHypothesis =>
    rw [walk_chain noLimit admitted (by omega) (by omega) before, walkLinks]
    cases calls with
    | zero => rfl
    | succ calls =>
      rw [walk_none]
      dsimp only
      rw [if_pos rfl, walkLinks, inductionHypothesis (by omega) (by omega) (before.give size _)]

/-- The walk along a chain gives away all its streams, up to the limit of the code. -/
theorem walk_chain_streams
    (left : Nat)
    (ends : i + left = min (indices last) 100001)
    (enough : left < calls)
    (before : Before i s) :
    ∃ s', walkPropertyTree w (chain last size) lim calls i 0 s = some (clSuccess, s') ∧
      s'.streams = replicate left size ++ s.streams := by
  induction left generalizing i s calls with
  | zero =>
    obtain ⟨calls, rfl⟩ := Nat.exists_eq_succ_of_ne_zero (Nat.ne_zero_of_lt enough)
    have count := before.count
    refine ⟨s, ?_, rfl⟩
    rw [walkPropertyTree, walkWith, visit, if_pos]
    simp only [chain]
    unfold indices at ends
    omega
  | succ left inductionHypothesis =>
    obtain ⟨calls, rfl⟩ : ∃ more, calls = more + 1 + 1 := ⟨calls - 2, by omega⟩
    obtain ⟨s', result, streams⟩ := @inductionHypothesis (i + 1) (calls + 1)
      ((s.mark i).give w size s.scannedfiles) (by omega) (by omega) (before.give size _)
    refine ⟨s', ?_, ?_⟩
    · rw [walk_chain noLimit admitted (by omega) (by omega) before]
      simp only [walkLinks, walk_none, result, if_true]
    · rw [streams, replicate_succ', append_assoc]
      rfl

end

/-- A walk needs no more than 102 active calls, nor two more than the limit on the level. -/
def DepthBounded
    (w : Nat)
    (o : Header)
    (lim : Limits)
    (scansize scannedfiles : Nat) :
    Prop :=
  walkPropertyTree w o lim 102 0 0 (start scansize scannedfiles) ≠ none ∧
    (lim.maxreclevel ≠ 0 →
      walkPropertyTree w o lim (lim.maxreclevel + 2) 0 0 (start scansize scannedfiles) ≠ none)

/--
Streams are followed without raising the level, so that only the number of
properties bounds the calls.
-/
theorem depthBounded_iff
    (w : Nat)
    (maxBlockNo : UInt32)
    (maxreclevel : Nat) :
    (∀ o lim scansize scannedfiles, o.maxBlockNo = maxBlockNo → lim.maxreclevel = maxreclevel →
        DepthBounded w o lim scansize scannedfiles) ↔
      lastIndex maxBlockNo ≤ 100 ∧ (maxreclevel ≠ 0 → lastIndex maxBlockNo ≤ maxreclevel) := by
  have isCount : indices maxBlockNo = (lastIndex maxBlockNo + 1).toNat := rfl
  constructor
  · intro bounded
    let lim : Limits := ⟨0, maxreclevel, 0⟩
    have deep (calls : Nat) (inside : calls ≤ indices maxBlockNo) (few : calls ≤ 102) :
        walkPropertyTree w (chain maxBlockNo 0) lim calls 0 0 (start 0 0) = none :=
      walk_chain_deep (i := 0) rfl (Nat.zero_le _) inside (by omega) (before_start 0 0)
    obtain ⟨shallow, limited⟩ := bounded (chain maxBlockNo 0) lim 0 0 rfl rfl
    have few : lastIndex maxBlockNo ≤ 100 := by
      by_contra many
      exact shallow (deep 102 (by omega) le_rfl)
    refine ⟨few, fun isSet => ?_⟩
    by_contra many
    exact limited isSet (deep (maxreclevel + 2) (by omega) (by omega))
  · rintro ⟨few, limited⟩ o lim scansize scannedfiles rfl rfl
    have returns (calls : Nat) (enough : indices o.maxBlockNo < calls) :
        walkPropertyTree w o lim calls 0 0 (start scansize scannedfiles) ≠ none := by
      obtain ⟨ret, s', result⟩ := @walk_returns o (start scansize scannedfiles) w eitherLimit lim
        0 0 calls ((unvisited_start o scansize scannedfiles).trans_lt enough)
      rw [walkPropertyTree, result]
      exact Option.some_ne_none _
    exact ⟨returns 102 (by omega), fun isSet => returns _ (by have := limited isSet; omega)⟩

/-- A chain of 102 streams -/
theorem chain_of_streams_is_deep : ¬ DepthBounded 32 (chain 101 0) ⟨0, 0, 0⟩ 1 0 := by
  intro bounded
  exact bounded.1 (walk_chain_deep (i := 0) rfl le_rfl (by decide) (by decide) (before_start 1 0))

end LibClamav.Ole2
