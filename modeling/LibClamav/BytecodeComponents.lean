import LibClamav.BytecodeTypes
import Mathlib.Logic.Relation
import Mathlib.Data.Finset.Lattice.Fold

namespace LibClamav.Bytecode

open List

/-!
# Types that contain themselves

`type_components` calls itself for the types that a structure or an array contains.
Nothing keeps `parseTypes` from accepting a type that contains itself, or one behind
the end of the table.
-/

variable {table : TypeTable} {depth deeper id : Nat}

namespace TypeTable

/-- The types that `type_components` calls itself with; nothing for a type that is not there. -/
def partsOf (table : TypeTable) (id : Nat) : Option (List Nat) :=
  if id ≤ 64 then
    some []
  else
    (table.entry? id).bind fun entry =>
      match entry.kind with
      | .functionType | .pointerType => some []
      | .structType | .packedStructType => some entry.containedTypes
      | .arrayType => entry.containedTypes.head?.map fun contained => [contained]

/-- A type that `type_components` comes to from another. -/
def ComesTo (table : TypeTable) : Nat → Nat → Prop :=
  Relation.ReflTransGen fun id part => ∃ parts, table.partsOf id = some parts ∧ part ∈ parts

/--
The types that are come to can be put in grades: each one is an integer or in the table, and
all its parts are of a lower grade.
-/
def Graded (table : TypeTable) (id : Nat) : Prop :=
  ∃ grade : Nat → Nat, ∀ u, table.ComesTo id u →
    ∃ parts, table.partsOf u = some parts ∧ ∀ part ∈ parts, grade part < grade u

/-- A failed lookup gives no result. -/
theorem error_ne_ok
    {α : Type}
    {why : Lookup} :
    ¬ ∃ result : α, Except.error why = .ok result := by
  rintro ⟨_, never⟩
  cases never

/-- A loop over lookups succeeds exactly if each one does. -/
theorem mapM_isOk_iff
    {f : Nat → Except Lookup (Nat × Bool)}
    {parts : List Nat} :
    (∃ components, parts.mapM f = .ok components) ↔
      ∀ part ∈ parts, ∃ components, f part = .ok components := by
  induction parts with
  | nil => exact iff_of_true ⟨[], rfl⟩ (forall_mem_nil _)
  | cons part parts inductionHypothesis =>
    rw [forall_mem_cons, ← inductionHypothesis, mapM_cons]
    cases f part with
    | error why => exact iff_of_false error_ne_ok fun both => error_ne_ok both.1
    | ok first =>
      cases parts.mapM f with
      | error why => exact iff_of_false error_ne_ok fun both => error_ne_ok both.2
      | ok others => exact iff_of_true ⟨_, rfl⟩ ⟨⟨first, rfl⟩, others, rfl⟩

/-- One level of the calls: the type is there and its parts return. -/
theorem typeComponents_isOk_iff :
    (∃ result, typeComponents table (depth + 1) id = .ok result) ↔
      ∃ parts, table.partsOf id = some parts ∧
        ∀ part ∈ parts, ∃ result, typeComponents table depth part = .ok result := by
  rw [typeComponents.eq_def, partsOf]
  dsimp only
  split
  · exact iff_of_true ⟨_, rfl⟩ ⟨[], rfl, forall_mem_nil _⟩
  cases table.entry? id with
  | none => exact iff_of_false error_ne_ok (by simp)
  | some entry =>
    obtain ⟨kind, containedTypes, numElements, size, align⟩ := entry
    dsimp only [Option.bind_some]
    cases kind with
    | functionType | pointerType =>
      exact iff_of_true ⟨_, rfl⟩ ⟨[], rfl, forall_mem_nil _⟩
    | structType | packedStructType =>
      simp only [Option.some.injEq, exists_eq_left']
      rw [← mapM_isOk_iff]
      cases containedTypes.mapM (typeComponents table depth) with
      | error why => exact iff_of_false error_ne_ok error_ne_ok
      | ok components => exact iff_of_true ⟨_, rfl⟩ ⟨_, rfl⟩
    | arrayType =>
      cases containedTypes with
      | nil => exact iff_of_false error_ne_ok (by simp)
      | cons contained others =>
        simp only [head?_cons, Option.map_some, Option.some.injEq, exists_eq_left',
          forall_mem_singleton]
        cases typeComponents table depth contained with
        | error why => exact iff_of_false error_ne_ok error_ne_ok
        | ok components => exact iff_of_true ⟨_, rfl⟩ ⟨_, rfl⟩

/-- A loop over lookups gives the same where each lookup does. -/
theorem mapM_ok_of_ok
    {f g : Nat → Except Lookup (Nat × Bool)}
    {parts : List Nat}
    {components : List (Nat × Bool)}
    (same : ∀ part ∈ parts, ∀ result, f part = .ok result → g part = .ok result)
    (isOk : parts.mapM f = .ok components) :
    parts.mapM g = .ok components := by
  induction parts generalizing components with
  | nil => exact isOk
  | cons part parts inductionHypothesis =>
    rw [mapM_cons] at isOk ⊢
    obtain ⟨first, isFirst, isOk⟩ := bind_eq_ok_iff.mp isOk
    obtain ⟨others, areOthers, isOk⟩ := bind_eq_ok_iff.mp isOk
    rw [same part mem_cons_self first isFirst]
    have further := inductionHypothesis
      (fun other isOther => same other (mem_cons_of_mem _ isOther))
      areOthers
    exact bind_eq_ok_iff.mpr ⟨first, rfl, bind_eq_ok_iff.mpr ⟨others, further, isOk⟩⟩

/-- A call that returns does so with the same result when deeper calls are allowed. -/
theorem typeComponents_mono
    {result : Nat × Bool}
    (atMost : depth ≤ deeper)
    (returns : typeComponents table depth id = .ok result) :
    typeComponents table deeper id = .ok result := by
  induction depth generalizing deeper id result with
  | zero => cases returns
  | succ depth inductionHypothesis =>
    obtain ⟨deeper, rfl⟩ := Nat.exists_eq_add_one.mpr (Nat.zero_lt_of_lt atMost)
    have further (part : Nat) (result : Nat × Bool) :=
      @inductionHypothesis deeper part result (Nat.le_of_succ_le_succ atMost)
    rw [typeComponents.eq_def] at returns ⊢
    dsimp only at returns ⊢
    split_ifs at returns ⊢ with small
    · exact returns
    cases isEntry : table.entry? id with
    | none =>
      rw [isEntry] at returns
      cases returns
    | some entry =>
      obtain ⟨kind, containedTypes, numElements, size, align⟩ := entry
      rw [isEntry] at returns
      cases kind with
      | functionType | pointerType => exact returns
      | structType | packedStructType =>
        obtain ⟨components, areOk, isOk⟩ := bind_eq_ok_iff.mp returns
        exact bind_eq_ok_iff.mpr
          ⟨components, mapM_ok_of_ok (fun part _ => further part) areOk, isOk⟩
      | arrayType =>
        cases containedTypes with
        | nil => cases returns
        | cons contained others =>
          obtain ⟨components, areOk, isOk⟩ := bind_eq_ok_iff.mp returns
          exact bind_eq_ok_iff.mpr ⟨components, further contained components areOk, isOk⟩

/-- `type_components` returns, reading only inside the table. -/
def Returns (table : TypeTable) (id : Nat) : Prop :=
  ∃ depth result, ∀ deeper ≥ depth, typeComponents table deeper id = .ok result

/-- A call returns exactly if some depth is enough. -/
theorem returns_iff_exists_depth :
    table.Returns id ↔ ∃ depth result, typeComponents table depth id = .ok result :=
  ⟨fun ⟨depth, result, returns⟩ => ⟨depth, result, returns depth le_rfl⟩,
    fun ⟨depth, result, returns⟩ =>
      ⟨depth, result, fun _ atMost => typeComponents_mono atMost returns⟩⟩

/-- A call returns exactly if its type is there and the calls for the parts return. -/
theorem returns_iff_parts :
    table.Returns id ↔
      ∃ parts, table.partsOf id = some parts ∧ ∀ part ∈ parts, table.Returns part := by
  simp only [returns_iff_exists_depth]
  constructor
  · rintro ⟨depth, isOk⟩
    cases depth with
    | zero => exact absurd isOk error_ne_ok
    | succ depth =>
      obtain ⟨parts, areParts, areOk⟩ := typeComponents_isOk_iff.mp isOk
      exact ⟨parts, areParts, fun part isPart => ⟨depth, areOk part isPart⟩⟩
  · rintro ⟨parts, areParts, areOk⟩
    choose! depth result isOk using areOk
    refine ⟨parts.toFinset.sup depth + 1, typeComponents_isOk_iff.mpr
      ⟨parts, areParts, fun part isPart => ⟨result part, ?_⟩⟩⟩
    exact typeComponents_mono (Finset.le_sup (mem_toFinset.mpr isPart)) (isOk part isPart)

/-- All that a returning call comes to returns. -/
theorem Returns.comesTo
    {u : Nat}
    (returns : table.Returns id)
    (comesTo : table.ComesTo id u) :
    table.Returns u := by
  induction comesTo with
  | refl => exact returns
  | tail _ isPart inductionHypothesis =>
    obtain ⟨parts, areParts, partIn⟩ := isPart
    obtain ⟨sameParts, areSame, areOk⟩ := returns_iff_parts.mp inductionHypothesis
    rw [areParts] at areSame
    cases areSame
    exact areOk _ partIn

/-- The depth that a call needs is a grade. -/
theorem Returns.graded
    (returns : table.Returns id) :
    table.Graded id := by
  classical
  let needed (u : Nat) : Nat :=
    if h : ∃ depth result, typeComponents table depth u = .ok result then Nat.find h else 0
  refine ⟨needed, fun u comesTo => ?_⟩
  have isOk := returns_iff_exists_depth.mp (returns.comesTo comesTo)
  have isNeeded : needed u = Nat.find isOk := dif_pos isOk
  have found := Nat.find_spec isOk
  rw [← isNeeded] at found
  cases least : needed u with
  | zero =>
    rw [least] at found
    exact nomatch found.choose_spec
  | succ depth =>
    rw [least] at found
    obtain ⟨parts, areParts, areOk⟩ := typeComponents_isOk_iff.mp found
    refine ⟨parts, areParts, fun part isPart => Nat.lt_succ_of_le ?_⟩
    have partOk : ∃ depth result, typeComponents table depth part = .ok result :=
      ⟨depth, areOk part isPart⟩
    have isPartNeeded : needed part = Nat.find partOk := dif_pos partOk
    rw [isPartNeeded]
    exact Nat.find_min' partOk (areOk part isPart)

end TypeTable

end LibClamav.Bytecode
