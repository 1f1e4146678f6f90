import LibClamav.CacheSource
import LibClamav.DoublyLinked
import Mathlib.Data.List.Perm.Subperm

namespace LibClamav.Cache

open LinkedChain DoublyLinked List

/-!
# The replacement chain

`cacheset_lookup` and `cacheset_add` move one node to the end of the chain.  The
second one does not provide for a node that is already there.
-/

/-- The replacement chain has all nodes of the set. -/
structure Chained (order : Order) (cells : List Nat) : Prop where
  linked : Doubly order.next order.prev order.first order.last cells
  all : cells.Perm (range nodes)

theorem nextIn_range
    {count a : Nat}
    (below : a < count) :
    nextIn (range count) a = if a + 1 < count then some (a + 1) else none := by
  induction count with
  | zero => exact nomatch below
  | succ count ih =>
    rw [range_succ]
    by_cases isLast : a = count
    · rw [nextIn_append_of_notMem (by simp [isLast])]
      simp [nextIn, isLast]
    have before : a < count := by omega
    rw [nextIn_append_of_mem (by simpa using before), ih before]
    by_cases isNext : a + 1 = count
    · simp [isNext]
    · have inside : a + 1 < count := by omega
      simp [inside, Nat.lt_succ_of_lt inside]

theorem nextIn_reverse_range
    {count a : Nat}
    (below : a < count) :
    nextIn (range count).reverse a = if 0 < a then some (a - 1) else none := by
  induction count with
  | zero => exact nomatch below
  | succ count ih =>
    rw [range_succ, reverse_append, reverse_singleton, singleton_append, nextIn]
    by_cases isLast : count = a
    · subst isLast
      rw [if_pos rfl, head?_reverse]
      cases count with
      | zero => rfl
      | succ count => simp [range_succ]
    · rw [if_neg isLast, ih (by omega)]

/-- The first chain holds all nodes in order. -/
theorem chained_init : Chained cachesetInit.order (range nodes) := by
  have nodup : (range nodes).Nodup := nodup_range
  refine ⟨⟨(chain_iff_nextIn nodup).mpr ⟨rfl, ?_⟩,
    (chain_iff_nextIn ((reverse_perm _).nodup_iff.mpr nodup)).mpr ⟨rfl, ?_⟩, nodup⟩,
    List.Perm.refl _⟩
  · intro a mem
    exact (nextIn_range (mem_range.mp mem)).symm
  intro a mem
  have below : a < nodes := by simpa using mem
  rw [nextIn_reverse_range below]
  simp [cachesetInit, below]

section

variable {order : Order} {cells : List Nat} {p : Nat} (chained : Chained order cells)

include chained

theorem Chained.nodup :
    cells.Nodup :=
  chained.linked.nodup

theorem Chained.mem_iff : p ∈ cells ↔ p < nodes := by
  rw [chained.all.mem_iff, mem_range]

/-- A node is moved to the end. -/
theorem Chained.promote
    (isNode : p < nodes) :
    Chained (order.promote p) (cells.erase p ++ [p]) := by
  obtain ⟨front, back, rfl⟩ := append_of_mem (chained.mem_iff.mpr isNode)
  have distinct := chained.nodup
  simp only [nodup_append, nodup_cons, mem_cons] at distinct
  have notFront : p ∉ front := fun mem => distinct.2.2 p mem p (.inl rfl) rfl
  have moved : (front ++ p :: back).erase p ++ [p] = front ++ (back ++ [p]) := by
    rw [erase_append_right _ notFront, erase_cons_head, append_assoc]
  obtain ⟨isNext, isPrev⟩ := chained.linked.links_of_split
  have perm : (front ++ (back ++ [p])).Perm (range nodes) := by
    refine List.Perm.trans ?_ chained.all
    exact List.Perm.append_left front (perm_append_comm)
  rw [moved]
  cases back with
  | nil =>
    have isLast : order.promote p = order := by simp [Order.promote, isNext]
    rw [isLast]
    exact chained
  | cons q back =>
    have isNext : order.next p = some q := isNext
    refine ⟨?_, perm⟩
    have doubly := chained.linked.moveToEnd
    rw [Order.promote, isNext, isPrev]
    cases isLast : front.getLast? with
    | none =>
      have isEmpty : front = [] := getLast?_eq_none_iff.mp isLast
      simpa [isEmpty, redirect] using doubly
    | some o =>
      have notEmpty : front ≠ [] := by
        rintro rfl
        cases isLast
      simpa [isLast, notEmpty, redirect] using doubly

/-- The code does so for all but the last node. -/
theorem Chained.requeue_eq
    (isNode : p < nodes)
    (notLast : p ≠ order.last) :
    order.requeue p = order.promote p := by
  obtain ⟨front, back, rfl⟩ := append_of_mem (chained.mem_iff.mpr isNode)
  obtain ⟨isNext, isPrev⟩ := chained.linked.links_of_split
  have isFirst := chained.linked.first_eq
  have distinct := chained.nodup
  simp only [nodup_append, nodup_cons, mem_cons] at distinct
  have notFront : p ∉ front := fun mem => distinct.2.2 p mem p (.inl rfl) rfl
  cases back with
  | nil => exact absurd (by simpa using chained.linked.last_eq) notLast
  | cons q back =>
    have isNext : order.next p = some q := isNext
    cases isLast : front.getLast? with
    | none =>
      have isEmpty : front = [] := getLast?_eq_none_iff.mp isLast
      rw [isEmpty] at isPrev isFirst
      simp [Order.requeue, Order.promote, isNext, isPrev, isFirst, Function.update_comm notLast]
    | some o =>
      have isMember : o ∈ front := mem_of_getLast? isLast
      have notSame : p ≠ o := fun same => notFront (same ▸ isMember)
      have notFirst : order.first ≠ some p := by
        rw [isFirst]
        cases front with
        | nil => exact nomatch isMember
        | cons a front => simpa using fun same => notFront (by simp [same])
      simp [Order.requeue, Order.promote, isNext, isPrev.trans isLast, notFirst, notSame,
        Function.update_comm notLast]

omit chained in
/-- The last node becomes its own successor. -/
theorem requeue_last
    (order : Order) :
    (order.requeue order.last).next order.last = some order.last := by
  simp [Order.requeue]

/-- The chain is cut there. -/
theorem Chained.requeue_cut :
    ∃ front, cells = front ++ [order.last] ∧
      Chain (order.requeue order.last).next (order.requeue order.last).first front := by
  obtain ⟨front, rfl⟩ := getLast?_eq_some_iff.mp chained.linked.last_eq
  have distinct := nodup_append.mp chained.nodup
  have apart : ∀ a ∈ front, a ≠ order.last := fun a mem => distinct.2.2 a mem order.last (by simp)
  obtain ⟨isNext, isPrev⟩ := chained.linked.links_of_split
  have isNext : order.next order.last = none := isNext
  have length : (front ++ [order.last]).length = nodes := by simpa using chained.all.length_eq
  obtain ⟨o, isLast⟩ : ∃ o, front.getLast? = some o := by
    cases front with
    | nil => simp [nodes] at length
    | cons a front => simp [getLast?_cons]
  refine ⟨front, rfl, (chain_iff_nextIn distinct.1).mpr ⟨?_, fun a mem => ?_⟩⟩
  · have isFirst := chained.linked.first_eq
    cases front with
    | nil => exact nomatch isLast
    | cons b front =>
      have notLast : b ≠ order.last := apart b (by simp)
      have isFirst : order.first = some b := isFirst
      simp [Order.requeue, isFirst, notLast]
  have wasNext := chained.linked.next_eq (a := a) (by simp [mem])
  rw [nextIn_append_of_mem mem] at wasNext
  have notLast := apart a mem
  simp only [Order.requeue, isPrev, isLast, isNext, Function.update_of_ne notLast]
  by_cases isEnd : a = o
  · subst isEnd
    rw [Function.update_self, (nextIn_eq_none_iff mem distinct.1).mpr isLast]
  have isSome := mt (nextIn_eq_none_iff mem distinct.1).mp
    (by rw [isLast]; simpa using Ne.symm isEnd)
  obtain ⟨y, isSome⟩ := Option.ne_none_iff_exists'.mp isSome
  rw [Function.update_of_ne isEnd, wasNext, isSome]
  rfl

theorem Chained.next_ne_self
    (isNode : p < nodes) :
    order.next p ≠ some p := by
  obtain ⟨front, back, rfl⟩ := append_of_mem (chained.mem_iff.mpr isNode)
  rw [chained.linked.links_of_split.1]
  intro isHead
  have distinct := (nodup_append.mp chained.nodup).2.1
  exact (nodup_cons.mp distinct).1 (mem_of_head? isHead)

theorem Chained.last_lt : order.last < nodes :=
  chained.mem_iff.mp (mem_of_getLast? chained.linked.last_eq)

end

variable {cs : CacheSet} {cells : List Nat}

theorem run_isEnd
    (links : Links)
    (cells : List Nat) :
    run (fun node _ => if links.isEnd node then .error (some node) else .ok ()) cells () =
      (match cells.find? links.isEnd with
      | some node => .error (some node)
      | none => .ok () : Except (Option Nat) Unit) := by
  induction cells with
  | nil => rfl
  | cons cell rest ih =>
    rw [run, find?_cons]
    cases isEnd : links.isEnd cell with
    | true => simp
    | false => simpa using ih

/-- The search takes the first end of the chain. -/
theorem Chained.firstEnd
    (chained : Chained cs.order cells) :
    firstEnd cs =
      match cells.find? cs.links.isEnd with
      | some node => .error (some node)
      | none => .ok () := by
  have enough : cells.length ≤ nodes := by simpa using Nat.le_of_eq chained.all.length_eq
  rw [Cache.firstEnd, loop_eq_run cells () chained.linked.forward enough, run_isEnd]

end LibClamav.Cache
