import LibClamav.BreadthFirst
import LibClamav.FilterSource
import LibClamav.LinkedChain

namespace LibClamav.Ac

/-!
# The Aho-Corasick matcher

Nodes and patterns are numbered in the order in which they are made: `ac_root`
is node 0 and `ac_nodetable[i]` is node `i + 1`; a pattern is known by its place
in `ac_pattable`.  Pointers to them are numbers, and null is `none`.  A function
of this file has no result where the code would follow a null pointer or never
leave a loop.
-/

/-- `struct cli_ac_node` -/
structure AcNode where
  list : Option Nat := none
  trans : Option (UInt8 → Option Nat) := none
  fail : Option Nat := none

/--
The fields of `struct cli_matcher` that this matcher uses, and the links `next`
and `next_same` of all patterns.
-/
structure AcRoot where
  type : Nat := 0
  filter : Option Prefilter.Filter := none
  acMindepth : Nat
  acMaxdepth : Nat
  acNodes : Nat := 0
  node : Nat → AcNode
  acPattable : List AcPatt := []
  next : Nat → Option Nat := fun _ => none
  nextSame : Nat → Option Nat := fun _ => none
  acReloff : List Nat := []
  acAbsoffNum : Nat := 0
  maxpatlen : Nat := 0

namespace AcRoot

/-- `IS_LEAF` -/
def isLeaf (root : AcRoot) (n : Nat) : Bool := (root.node n).trans.isNone

/-- `node->trans[i]`; a leaf has no transitions. -/
def trans (root : AcRoot) (n : Nat) (i : UInt8) : Option Nat :=
  (root.node n).trans.bind fun table => table i

/-- Write to the fields of one node. -/
def setNode (root : AcRoot) (n : Nat) (write : AcNode → AcNode) : AcRoot :=
  { root with node := Function.update root.node n (write (root.node n)) }

/-- `node->trans[i] = m` -/
def setTrans
    (root : AcRoot)
    (n : Nat)
    (i : UInt8)
    (m : Nat) :
    AcRoot := root.setNode n fun node =>
    { node with
      trans := node.trans.map fun table => Function.update table i (some m) }

/-- `node->fail = m` -/
def setFail (root : AcRoot) (n m : Nat) : AcRoot :=
  root.setNode n fun node => { node with fail := some m }

/-- `node->list = p` -/
def setList (root : AcRoot) (n : Nat) (p : Option Nat) : AcRoot :=
  root.setNode n fun node => { node with list := p }

/-- A pattern of the table. -/
def patt
    (root : AcRoot)
    (p : Nat) :
    AcPatt := root.acPattable.getD p { pattern := [] }

end AcRoot

/-- The entries of `cli_mtargets` with `enable_prefiltering`. -/
def enablePrefiltering (type : Nat) : Bool := type == 0 || type == 1 || type == 4 || type == 7

/-- `cli_ac_init` -/
def cliAcInit
    (root : AcRoot)
    (mindepth maxdepth : Nat)
    (dconfPrefiltering : Bool) :
    AcRoot :=
  { root with
    acMindepth := mindepth
    acMaxdepth := maxdepth
    node := Function.update root.node 0 { trans := some fun _ => none }
    filter :=
      if enablePrefiltering root.type && dconfPrefiltering then
        some Prefilter.filterInit
      else
        root.filter }

/-- A matcher as it comes from `mpool_calloc`. -/
def freshRoot (type : Nat) : AcRoot :=
  { type := type, acMindepth := 0, acMaxdepth := 0, node := fun _ => {} }

/-- The bytes of a pattern before its first wildcard. -/
def leadingBytes : List PatChar → List UInt8
  | .char c :: rest => c :: leadingBytes rest
  | _ => []

/-- The characters that lead a pattern into the trie. -/
def acKey
    (maxdepth : Nat)
    (patt : AcPatt) :
    List UInt8 := leadingBytes (patt.pattern.take maxdepth)

/-- A table for a node that has none. -/
def allocTrans (root : AcRoot) (n : Nat) : AcRoot := root.setNode n fun node =>
    { node with trans := some (node.trans.getD fun _ => none) }

/-- A new node behind `pt`, with a table unless it is the last one. -/
def newNode (root : AcRoot) (pt : Nat) (c : UInt8) (isLast : Bool) : AcRoot :=
  let added :=
    { root with
      acNodes := root.acNodes + 1
      node := Function.update root.node (root.acNodes + 1)
        { trans := if isLast then none else some fun _ => none } }
  added.setTrans pt c (root.acNodes + 1)

/-- The loop that walks down the trie and adds the missing nodes. -/
def addNodes (root : AcRoot) (pt : Nat) : List UInt8 → AcRoot × Nat
  | [] => (root, pt)
  | c :: rest =>
    let root := allocTrans root pt
    match root.trans pt c with
    | some next => addNodes root next rest
    | none => addNodes (newNode root pt c rest.isEmpty) (root.acNodes + 1) rest

/--
The comparison of two tables of special elements.  Its index has eight bits, so
it does not end for tables with more than 255 elements that begin alike.
-/
def sameSpecials (a b : List Special) : Option Bool :=
  if a.length ≠ b.length then
    some false
  else if a.take 256 = b.take 256 then
    if a.length < 256 then some true else none
  else
    some false

/-- The test whether a pattern joins the group of `ph`. -/
def samePatt (ph patt : AcPatt) : Option Bool :=
  if ph.pattern.length = patt.pattern.length ∧ ph.prefixPat.length = patt.prefixPat.length ∧
      ph.anchorLeft.ch = patt.anchorLeft.ch ∧
      ph.anchorRight.ch = patt.anchorRight.ch then
    if ph.pattern = patt.pattern ∧ ph.prefixPat = patt.prefixPat then
      sameSpecials ph.specialTable patt.specialTable
    else
      some false
  else
    some false

/-- `while(ph)`: the first pattern of a list whose group takes the pattern. -/
def findSame
    (root : AcRoot)
    (patt : AcPatt) :
    Nat → Option Nat → Option (Option Nat)
  | _, none => some none
  | 0, some _ => none
  | fuel + 1, some ph =>
    match samePatt (root.patt ph) patt with
    | none => none
    | some true => some (some ph)
    | some false => findSame root patt fuel (root.next ph)

/-- Append a pattern to `ac_pattable`. -/
def pushPatt (root : AcRoot) (patt : AcPatt) : AcRoot :=
  { root with acPattable := root.acPattable ++ [patt] }

/-- Put pattern `k` behind `ph` in its group. -/
def joinGroup (root : AcRoot) (ph k : Nat) : AcRoot :=
  { root with
    nextSame := Function.update (Function.update root.nextSame k (root.nextSame ph)) ph (some k) }

/-- Put pattern `k` in front of the list of a node. -/
def pushList (root : AcRoot) (n k : Nat) : AcRoot :=
  ({ root with
      next := Function.update root.next k (root.node n).list }).setList n
    (some k)

/-- `cli_ac_addpatt` -/
def cliAcAddpatt (root : AcRoot) (patt : AcPatt) : Option (Except ClError AcRoot) :=
  let key := acKey root.acMaxdepth patt
  if key.length < root.acMindepth then
    some (.error .emalfdb)
  else
    let (root, pt) := addNodes root 0 key
    let k := root.acPattable.length
    let placed := { patt with depth := key.length }
    let root := pushPatt root placed
    match findSame root placed k (root.node pt).list with
    | none => none
    | some (some ph) => some (.ok (joinGroup root ph k))
    | some none => some (.ok (pushList root pt k))

/-- The 256 rounds of a loop over the bytes. -/
def allBytes : List UInt8 := (List.range 256).map UInt8.ofNat

/-- `while(!stop(n)) n = n->fail;` -/
def climb (root : AcRoot) (stop : Nat → Bool) : Nat → Nat → Option Nat
  | 0, _ => none
  | fuel + 1, n =>
    if stop n then
      some n
    else
      match (root.node n).fail with
      | none => none
      | some f => climb root stop fuel f

/-- `!IS_LEAF(n) && n->trans[i]` -/
def leads
    (root : AcRoot)
    (i : UInt8)
    (n : Nat) :
    Bool := !root.isLeaf n && (root.trans n i).isSome

/-- The target of the failure links of a node on one byte. -/
def failTarget (root : AcRoot) (n : Nat) (i : UInt8) : Option Nat :=
  match (root.node n).fail with
  | none => none
  | some start =>
    match climb root (leads root i) (root.acMaxdepth + 1) start with
    | none => none
    | some f => root.trans f i

/-- One round of the first loop over the transitions of the root. -/
def rootRound (root : AcRoot) (i : UInt8) : AcRoot × List Nat :=
  match root.trans 0 i with
  | none => (root.setTrans 0 i 0, [])
  | some n => (root.setFail n 0, [n])

/-- The first loop of `ac_maketrans`, with the nodes that it enqueues. -/
def rootLoop : AcRoot → List UInt8 → AcRoot × List Nat
  | root, [] => (root, [])
  | root, i :: rest =>
    let (root, found) := rootRound root i
    let (root, later) := rootLoop root rest
    (root, found ++ later)

/-- Append the list of the failure node to the one of `child`. -/
def spliceList (root : AcRoot) (child target : Nat) : Option AcRoot :=
  match (root.node child).list with
  | none => some (root.setList child (root.node target).list)
  | some first =>
    match LinkedChain.last root.next root.acPattable.length first with
    | none => none
    | some patt =>
      some { root with
        next := Function.update root.next patt (root.node target).list }

/-- One round of the first pass: the failure link and the list of a child. -/
def linkChild (root : AcRoot) (n : Nat) (i : UInt8) (child : Nat) : Option AcRoot :=
  match failTarget root n i with
  | none => none
  | some target => spliceList (root.setFail child target) child target

/-- The loop over the children of a node in the first pass. -/
def linkLoop (n : Nat) : AcRoot → List UInt8 → Option (AcRoot × List Nat)
  | root, [] => some (root, [])
  | root, i :: rest =>
    match root.trans n i with
    | none => linkLoop n root rest
    | some child =>
      match linkChild root n i child with
      | none => none
      | some root =>
        match linkLoop n root rest with
        | none => none
        | some (root, later) => some (root, child :: later)

/-- The body of the first pass. -/
def linkNode (root : AcRoot) (n : Nat) : Option (AcRoot × List Nat) :=
  if root.isLeaf n then
    match (root.node n).fail with
    | none => none
    | some start =>
      match climb root (fun m => !root.isLeaf m) (root.acMaxdepth + 1)
          start with
      | none => none
      | some f => some (root.setFail n f, [])
  else
    linkLoop n root allBytes

/-- One round of the second pass; the child is enqueued if there is one. -/
def fillRound (root : AcRoot) (n : Nat) (i : UInt8) : Option (AcRoot × List Nat) :=
  let fill :=
    match failTarget root n i with
    | none => none
    | some target => some (root.setTrans n i target, [])
  match root.trans n i with
  | none => fill
  | some child =>
    if (root.node child).list.isNone && root.isLeaf child then
      fill
    else
      some (root, [child])

/-- The loop over the transitions of a node in the second pass. -/
def fillLoop (n : Nat) : AcRoot → List UInt8 → Option (AcRoot × List Nat)
  | root, [] => some (root, [])
  | root, i :: rest =>
    match fillRound root n i with
    | none => none
    | some (root, found) =>
      match fillLoop n root rest with
      | none => none
      | some (root, later) => some (root, found ++ later)

/-- The body of the second pass. -/
def fillNode (root : AcRoot) (n : Nat) : Option (AcRoot × List Nat) :=
  if root.isLeaf n then
    some (root, [])
  else
    fillLoop n root allBytes

/-- The transitions of the root that lead to other nodes. -/
def rootKids (root : AcRoot) : List Nat :=
  allBytes.filterMap fun i => (root.trans 0 i).filter (· ≠ 0)

/-- `ac_maketrans` -/
def acMaketrans (root : AcRoot) : Option AcRoot :=
  let (root, queue) := rootLoop root allBytes
  match BreadthFirst.loop linkNode root.acNodes queue root with
  | none => none
  | some root =>
    BreadthFirst.loop fillNode root.acNodes (rootKids root) root

/-- `cli_ac_buildtrie` -/
def cliAcBuildtrie (root : AcRoot) : Option AcRoot := acMaketrans root

section

variable {σ ε : Type}

/--
The loops of `cli_ac_scanbuff` over the buffer and over the list of a node;
`visit` is what is done with a pattern of the list at one index.
-/
def scanLoop
    (root : AcRoot)
    (visit : Nat → Nat → σ → Except ε σ)
    (stuck : ε) :
    List UInt8 → Nat → Nat → σ → Except ε σ
  | [], _, _, state => .ok state
  | b :: rest, i, current, state =>
    match root.trans current b with
    | none => .error stuck
    | some reached =>
      match (root.node reached).list with
      | none => scanLoop root visit stuck rest (i + 1) reached state
      | some first =>
        match (if root.isLeaf reached then (root.node reached).fail
          else some reached) with
        | none => .error stuck
        | some onward =>
          match LinkedChain.loop root.next (visit i) stuck
              root.acPattable.length (some first) state with
          | .error result => .error result
          | .ok later =>
            scanLoop root visit stuck rest (i + 1) onward later

end

/-- The patterns that the scan of a buffer visits, each with the index. -/
def acVisits
    (root : AcRoot)
    (buffer : List UInt8) :
    Except Unit (List (Nat × Nat)) :=
  scanLoop root (fun i p visited => .ok (visited ++ [(i, p)])) () buffer 0 0 []

end LibClamav.Ac
