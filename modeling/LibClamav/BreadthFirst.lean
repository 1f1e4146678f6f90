import Mathlib.Data.List.Nodup

namespace BreadthFirst

open List

/-!
# Breadth-first traversal of a forest

A loop takes the first node from a queue, works on it, and appends the nodes
that the work yields.  If these are the children of the node in a fixed forest,
every node below the first ones is worked on once, and only when all nodes of
smaller depth have been.
-/

/-- A forest with its roots, in which the depth grows by one at each edge. -/
structure Forest (ν : Type) where
  roots : List ν
  kids : ν → List ν
  depth : ν → Nat
  rootDepth : Nat
  depth_roots : ∀ n ∈ roots, depth n = rootDepth
  depth_kids : ∀ n, ∀ k ∈ kids n, depth k = depth n + 1
  nodup_roots : roots.Nodup
  nodup_kids : ∀ n, (kids n).Nodup
  kids_disjoint : ∀ {m n k}, k ∈ kids m → k ∈ kids n → m = n

/-- The nodes of a forest. -/
inductive Forest.Node {ν : Type} (forest : Forest ν) : ν → Prop where
  | root {n : ν} : n ∈ forest.roots → forest.Node n
  | kid {n k : ν} : forest.Node n → k ∈ forest.kids n → forest.Node k

variable {ν σ : Type}

/-- `while((node = dequeue())) { … enqueue … }`, with a bound on its rounds. -/
def loop (work : σ → ν → Option (σ × List ν)) : Nat → List ν → σ → Option σ
  | _, [], state => some state
  | 0, _ :: _, _ => none
  | fuel + 1, node :: queue, state =>
    match work state node with
    | none => none
    | some (later, found) => loop work fuel (queue ++ found) later

/-- What holds of the worked on nodes and the queue. -/
structure Front (forest : Forest ν) (finished queue : List ν) : Prop where
  nodes : ∀ n ∈ finished ++ queue, forest.Node n
  nodup : (finished ++ queue).Nodup
  roots : ∀ n ∈ forest.roots, n ∈ finished ++ queue
  closed : ∀ n ∈ finished, ∀ k ∈ forest.kids n, k ∈ finished ++ queue
  parents : ∀ k ∈ finished ++ queue, k ∈ forest.roots ∨ ∃ n ∈ finished, k ∈ forest.kids n
  sorted : queue.Pairwise fun m n => forest.depth m ≤ forest.depth n
  narrow : ∀ m ∈ queue, ∀ n ∈ queue, forest.depth n ≤ forest.depth m + 1
  ordered : ∀ m ∈ finished, ∀ n ∈ queue, forest.depth m ≤ forest.depth n

theorem front_start (forest : Forest ν) : Front forest [] forest.roots where
  nodes _ mem := .root mem
  nodup := forest.nodup_roots
  roots _ mem := mem
  closed _ mem := by cases mem
  parents _ mem := .inl mem
  sorted := by
    refine pairwise_of_forall_mem_list ?_
    intro m mMember n nMember
    exact Nat.le_of_eq ((forest.depth_roots m mMember).trans (forest.depth_roots n nMember).symm)
  narrow m mMember n nMember := by
    rw [forest.depth_roots m mMember, forest.depth_roots n nMember]
    exact Nat.le_succ _
  ordered _ mem := by cases mem

variable {forest : Forest ν} {finished queue : List ν} {node : ν}

section

variable (front : Front forest finished (node :: queue))

include front

theorem Front.finished_of_depth_lt
    {n : ν}
    (isNode : forest.Node n) :
    forest.depth n < forest.depth node → n ∈ finished := by
  have notQueued {k : ν} (above : forest.depth k < forest.depth node)
      (mem : k ∈ finished ++ node :: queue) : k ∈ finished := by
    rcases mem_append.mp mem with isFinished | isQueued
    · exact isFinished
    rcases mem_cons.mp isQueued with isFirst | isLater
    · rw [isFirst] at above
      exact absurd above (Nat.lt_irrefl _)
    · have below := (pairwise_cons.mp front.sorted).1 k isLater
      exact absurd above (Nat.not_lt.mpr below)
  induction isNode with
  | root isRoot =>
    intro above
    exact notQueued above (front.roots _ isRoot)
  | kid parentNode isKid ih =>
    intro above
    have step := forest.depth_kids _ _ isKid
    have parentFinished := ih (by omega)
    exact notQueued above (front.closed _ parentFinished _ isKid)

theorem Front.node_not_finished : node ∉ finished := by
  intro isFinished
  have disjoint := (nodup_append.mp front.nodup).2.2
  exact disjoint node isFinished node mem_cons_self rfl

/-- A child has not been queued yet. -/
theorem Front.kid_fresh
    {k : ν}
    (isKid : k ∈ forest.kids node) :
    k ∉ finished ++ node :: queue := by
  intro seen
  rcases front.parents k seen with isRoot | ⟨n, isFinished, isKidToo⟩
  · have step := forest.depth_kids node k isKid
    have rootDepth := forest.depth_roots k isRoot
    -- a kid lies deeper than every root
    have deep : ∀ {n}, forest.Node n → forest.rootDepth ≤ forest.depth n := by
      intro n isNode
      induction isNode with
      | root isRoot => exact Nat.le_of_eq (forest.depth_roots _ isRoot).symm
      | kid _ isKid ih =>
        rw [forest.depth_kids _ _ isKid]
        exact Nat.le_succ_of_le ih
    have nodeDeep := deep (front.nodes node (mem_append_right _ mem_cons_self))
    omega
  · have same := forest.kids_disjoint isKidToo isKid
    subst same
    exact front.node_not_finished isFinished

/-- The next node is finished and its children are queued. -/
theorem Front.step : Front forest (finished ++ [node]) (queue ++ forest.kids node) := by
  have regroup : finished ++ [node] ++ (queue ++ forest.kids node) =
        (finished ++ node :: queue) ++ forest.kids node := by
    simp only [append_assoc, cons_append, nil_append]
  have isNode := front.nodes node (mem_append_right _ mem_cons_self)
  obtain ⟨nodeLeast, queueSorted⟩ := pairwise_cons.mp front.sorted
  refine
    { nodes := ?_
      nodup := ?_
      roots := ?_
      closed := ?_
      parents := ?_
      sorted := ?_
      narrow := ?_
      ordered := ?_ }
  · intro n mem
    rw [regroup] at mem
    rcases mem_append.mp mem with isOld | isKid
    · exact front.nodes n isOld
    · exact .kid isNode isKid
  · rw [regroup]
    refine nodup_append.mpr ⟨front.nodup, forest.nodup_kids node, ?_⟩
    rintro old isOld kid isKid rfl
    exact front.kid_fresh isKid isOld
  · intro n isRoot
    rw [regroup]
    exact mem_append_left _ (front.roots n isRoot)
  · intro n isFinished k isKid
    rw [regroup]
    rcases mem_append.mp isFinished with isOld | isNew
    · exact mem_append_left _ (front.closed n isOld k isKid)
    · rw [mem_singleton.mp isNew] at isKid
      exact mem_append_right _ isKid
  · intro k mem
    rw [regroup] at mem
    rcases mem_append.mp mem with isOld | isKid
    · rcases front.parents k isOld with isRoot | ⟨n, isFinished, isKid⟩
      · exact .inl isRoot
      · exact .inr ⟨n, mem_append_left _ isFinished, isKid⟩
    · exact .inr ⟨node, mem_append_right _ (mem_singleton.mpr rfl), isKid⟩
  · refine pairwise_append.mpr ⟨queueSorted, ?_, ?_⟩
    · refine pairwise_of_forall_mem_list ?_
      intro m mKid n nKid
      exact Nat.le_of_eq
        ((forest.depth_kids node m mKid).trans (forest.depth_kids node n nKid).symm)
    · intro m queued k isKid
      rw [forest.depth_kids node k isKid]
      exact front.narrow node mem_cons_self m (mem_cons_of_mem _ queued)
  · intro m mMember n nMember
    rcases mem_append.mp mMember with mQueued | mKid
    · have above := nodeLeast m mQueued
      rcases mem_append.mp nMember with nQueued | nKid
      · exact front.narrow m (mem_cons_of_mem _ mQueued) n (mem_cons_of_mem _ nQueued)
      · rw [forest.depth_kids node n nKid]
        exact Nat.succ_le_succ above
    rw [forest.depth_kids node m mKid]
    rcases mem_append.mp nMember with nQueued | nKid
    · have near := front.narrow node mem_cons_self n (mem_cons_of_mem _ nQueued)
      omega
    · rw [forest.depth_kids node n nKid]
      exact Nat.le_succ _
  · intro m mFinished n nMember
    have before : forest.depth m ≤ forest.depth node := by
      rcases mem_append.mp mFinished with isOld | isNew
      · exact front.ordered m isOld node mem_cons_self
      · exact Nat.le_of_eq (congrArg forest.depth (mem_singleton.mp isNew))
    rcases mem_append.mp nMember with queued | isKid
    · exact Nat.le_trans before (nodeLeast n queued)
    · rw [forest.depth_kids node n isKid]
      exact Nat.le_succ_of_le before

end

/-- With an empty queue all nodes are finished. -/
theorem Front.all_finished
    (front : Front forest finished [])
    {n : ν}
    (isNode : forest.Node n) :
    n ∈ finished := by
  have closed := front.closed
  have roots := front.roots
  rw [append_nil] at closed roots
  induction isNode with
  | root isRoot => exact roots _ isRoot
  | kid _ isKid ih =>
    exact closed _ ih _ isKid

/--
The rule for the loop: an invariant over the finished nodes that each round
keeps, on a node that comes after all nodes of smaller depth and before its
own kids, holds at the end for all nodes.
-/
theorem loop_rule
    {work : σ → ν → Option (σ × List ν)}
    (Inv : List ν → σ → Prop)
    {bound : Nat}
    (finite : ∀ ns : List ν, ns.Nodup → (∀ n ∈ ns, forest.Node n) → ns.length ≤ bound)
    (works : ∀ finished state node, Inv finished state → forest.Node node → node ∉ finished →
      (∀ n, forest.Node n → forest.depth n < forest.depth node → n ∈ finished) →
      (∀ n ∈ finished, forest.depth n ≤ forest.depth node) →
      ∃ later, work state node = some (later, forest.kids node) ∧ Inv (finished ++ [node]) later) :
    ∀ (fuel : Nat) (finished queue : List ν) (state : σ), Front forest finished queue →
      bound ≤ finished.length + fuel →
      Inv finished state →
      ∃ all later, loop work fuel queue state = some later ∧
          (∀ n, forest.Node n → n ∈ all) ∧ Inv all later := by
  intro fuel
  induction fuel with
  | zero =>
    intro finished queue state front enough inv
    cases queue with
    | nil =>
      exact ⟨finished, state, rfl, fun n => front.all_finished, inv⟩
    | cons node queue =>
      have few := finite _ front.nodup front.nodes
      rw [length_append, length_cons] at few
      omega
  | succ fuel ih =>
    intro finished queue state front enough inv
    cases queue with
    | nil =>
      exact ⟨finished, state, rfl, fun n => front.all_finished, inv⟩
    | cons node queue =>
      have isNode := front.nodes node (mem_append_right _ mem_cons_self)
      obtain ⟨later, worked, laterInv⟩ :=
        works finished state node inv isNode front.node_not_finished
          (fun n nIsNode => front.finished_of_depth_lt nIsNode)
          (fun n isFinished => front.ordered n isFinished node mem_cons_self)
      rw [loop, worked]
      refine ih _ _ later front.step ?_ laterInv
      rw [length_append, length_singleton]
      omega

end BreadthFirst
