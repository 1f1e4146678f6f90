import LibClamav.CacheSplay
import Mathlib.Data.List.Nodup

namespace LibClamav.Cache

open SplayTree

/-!
# Searching in a cache set

`cmp` orders the keys, so a splay of a search tree brings the key to the root
exactly if the tree has it, and otherwise a neighbour of where it belongs.
-/

section

variable {a b c : Key}

theorem cmp_eq_lt_iff : cmp a b = .lt ↔ signed64 a.digest1 < signed64 b.digest1 ∨
        signed64 a.digest1 = signed64 b.digest1 ∧ (signed64 a.digest0 < signed64 b.digest0 ∨
            signed64 a.digest0 = signed64 b.digest0 ∧ signed32 a.size < signed32 b.size) := by
  unfold cmp
  split_ifs <;> simp <;> omega

theorem cmp_eq_gt_iff : cmp a b = .gt ↔ cmp b a = .lt := by
  rw [cmp_eq_lt_iff]
  unfold cmp
  split_ifs <;> simp <;> omega

/-- Only equal keys compare equal. -/
theorem cmp_eq_eq_iff : cmp a b = .eq ↔ a = b := by
  obtain ⟨a0, a1, sa⟩ := a
  obtain ⟨b0, b1, sb⟩ := b
  have word : ∀ x y : UInt64, signed64 x = signed64 y ↔ x = y := fun x y => by
    rw [signed64, signed64, BitVec.toInt_inj, UInt64.toBitVec_inj]
  have size : signed32 sa = signed32 sb ↔ sa = sb := by
    rw [signed32, signed32, BitVec.toInt_inj, UInt32.toBitVec_inj]
  rw [Key.mk.injEq, ← word, ← word, ← size]
  dsimp only [cmp]
  split_ifs <;> simp <;> omega

/-- The comparison is an order. -/
theorem cmp_lt_trans
    (first : cmp a b = .lt)
    (second : cmp b c = .lt) :
    cmp a c = .lt := by
  rw [cmp_eq_lt_iff] at *
  omega

end

/-- The keys of the nodes ascend from left to right. -/
def SearchTree (key : Nat → Key) (tree : BinaryTree Nat) : Prop :=
  (inorder tree).Pairwise fun a b => cmp (key a) (key b) = .lt

variable {key : Nat → Key} {hash : Key} {tree : BinaryTree Nat} (sorted : SearchTree key tree)

include sorted

theorem SearchTree.ascending
    (hash : Key) :
    Ascending (sideOf hash key) (inorder tree) := by
  refine List.Pairwise.imp (fun {a b} before notGreater => ?_) sorted
  cases isSide : cmp hash (key a) with
  | lt => exact cmp_lt_trans isSide before
  | eq => rwa [sideOf, cmp_eq_eq_iff.mp isSide]
  | gt => exact absurd isSide notGreater

theorem SearchTree.eq_of_key_eq
    {a b : Nat}
    (isFirst : a ∈ inorder tree)
    (isSecond : b ∈ inorder tree)
    (sameKey : key a = key b) :
    a = b := by
  have differ : ((inorder tree).map key).Nodup := by
    refine List.pairwise_map.mpr (List.Pairwise.imp (fun {a b} before same => ?_) sorted)
    exact nomatch before.symm.trans (cmp_eq_eq_iff.mpr same)
  exact List.inj_on_of_nodup_map differ isFirst isSecond sameKey

/-- A splay keeps the order. -/
theorem SearchTree.splay
    (side : Nat → Ordering) :
    SearchTree key (SplayTree.splay side tree) := by
  rwa [SearchTree, inorder_splay]

/-- A key that is there comes to the root. -/
theorem SearchTree.atRoot_iff :
    AtRoot hash key (SplayTree.splay (sideOf hash key) tree) ↔
      ∃ node ∈ inorder tree, key node = hash := by
  by_cases isEmpty : tree = .nil
  · subst isEmpty
    simp [SplayTree.splay, descend, Split.join, AtRoot, inorder]
  obtain ⟨a, l, r, isSplay, smaller, greater⟩ := splay_spec isEmpty (sorted.ascending hash)
  rw [← @inorder_splay _ (sideOf hash key), isSplay, AtRoot, sideOf, cmp_eq_eq_iff, inorder]
  constructor
  · exact fun isKey => ⟨a, by simp, isKey.symm⟩
  rintro ⟨node, isNode, rfl⟩
  have isEq : sideOf (key node) key node = .eq := cmp_eq_eq_iff.mpr rfl
  simp only [List.mem_append, List.mem_cons] at isNode
  rcases isNode with inLeft | rfl | inRight
  · cases isEq.symm.trans (smaller node inLeft)
  · rfl
  · cases isEq.symm.trans (greater node inRight)

end LibClamav.Cache
