import LibClamav.LinkedChain
import Mathlib.Algebra.Group.Nat.Defs
import Mathlib.Algebra.Group.Int.Defs

namespace LibClamav.Cache

/-!
# The cache of clean files

One set of `cache.c`, with the splay tree that `USE_SPLAY` selects.  The nodes
are numbered by their place in `data`; each field of `struct node` is a function
of the number.  The node on the stack of `splay` has the number behind the last.
-/

/-- `NODES` -/
def nodes : Nat := 256

/-- The node `next` on the stack of `splay`. -/
def stackNode : Nat := nodes

/-- `digest` and `size` of a node.  `digest` is the copy of the 16 bytes of an MD5 sum as two
words, and `size_t` has 32 bits. -/
structure Key where
  digest0 : UInt64
  digest1 : UInt64
  size : UInt32
  deriving DecidableEq

/-- A word of `digest` as the signed number that `cmp` compares. -/
def signed64 (word : UInt64) : Int := word.toBitVec.toInt

/-- A size as `ssize_t`. -/
def signed32 (size : UInt32) : Int := size.toBitVec.toInt

/-- `cmp`; its results -1, 0 and 1 are `lt`, `eq` and `gt`. -/
def cmp (a b : Key) : Ordering :=
  if signed64 a.digest1 < signed64 b.digest1 then .lt
  else if signed64 a.digest1 > signed64 b.digest1 then .gt
  else if signed64 a.digest0 < signed64 b.digest0 then .lt
  else if signed64 a.digest0 > signed64 b.digest0 then .gt
  else if signed32 a.size < signed32 b.size then .lt
  else if signed32 a.size > signed32 b.size then .gt
  else .eq

/-- The links of the tree. -/
@[ext]
structure Links where
  left : Nat → Option Nat
  right : Nat → Option Nat
  up : Nat → Option Nat

/-- The replacement chain. -/
structure Order where
  next : Nat → Option Nat
  prev : Nat → Option Nat
  first : Option Nat
  last : Nat

/-- `struct cache_set` -/
structure CacheSet where
  links : Links
  order : Order
  key : Nat → Key
  minrec : Nat → UInt32
  root : Option Nat

/-- `cacheset_init`, when its allocation succeeds -/
def cachesetInit : CacheSet :=
  { links := { left := fun _ => none, right := fun _ => none, up := fun _ => none }
    order :=
      { next := fun i => if i + 1 < nodes then some (i + 1) else none
        prev := fun i => if 0 < i ∧ i < nodes then some (i - 1) else none
        first := some 0
        last := nodes - 1 }
    key := fun _ => { digest0 := 0, digest1 := 0, size := 0 }
    minrec := fun _ => 0
    root := none }

/-- `node->left = link` -/
def Links.setLeft (links : Links) (node : Nat) (link : Option Nat) : Links :=
  { links with left := Function.update links.left node link }

/-- `node->right = link` -/
def Links.setRight (links : Links) (node : Nat) (link : Option Nat) : Links :=
  { links with right := Function.update links.right node link }

/-- `node->up = link` -/
def Links.setUp (links : Links) (node : Nat) (link : Option Nat) : Links :=
  { links with up := Function.update links.up node link }

/-- `if(child) child->up = parent` -/
def Links.adopt (links : Links) (child : Option Nat) (parent : Nat) : Links :=
  match child with
  | some node => links.setUp node (some parent)
  | none => links

/-- The variables of the loop of `splay`. -/
structure SplayState where
  links : Links
  left : Nat
  right : Nat
  root : Nat

/-- Rotate the root with its left child `temp`. -/
def SplayState.rotateRight (s : SplayState) (temp : Nat) : SplayState :=
  let links := s.links.setLeft s.root (s.links.right temp)
  let links := links.adopt (links.right temp) s.root
  let links := (links.setRight temp (some s.root)).setUp s.root (some temp)
  { s with links, root := temp }

/-- Rotate the root with its right child `temp`. -/
def SplayState.rotateLeft (s : SplayState) (temp : Nat) : SplayState :=
  let links := s.links.setRight s.root (s.links.left temp)
  let links := links.adopt (links.left temp) s.root
  let links := (links.setLeft temp (some s.root)).setUp s.root (some temp)
  { s with links, root := temp }

/-- Link the root to the right tree and go to its left child, which was tested. -/
def SplayState.linkRight (s : SplayState) : SplayState :=
  let links := (s.links.setLeft s.right (some s.root)).setUp s.root (some s.right)
  { s with links, right := s.root, root := (links.left s.root).getD s.root }

/-- Link the root to the left tree and go to its right child, which was tested. -/
def SplayState.linkLeft (s : SplayState) : SplayState :=
  let links := (s.links.setRight s.left (some s.root)).setUp s.root (some s.left)
  { s with links, left := s.root, root := (links.right s.root).getD s.root }

/-- One round of the loop: the state, and `found` if the round breaks. -/
def splayRound
    (key : Nat → Key)
    (hash : Key)
    (s : SplayState) :
    SplayState × Option Bool :=
  match cmp hash (key s.root) with
  | .lt =>
    match s.links.left s.root with
    | none => (s, some false)
    | some child =>
      if cmp hash (key child) = .lt then
        let s := s.rotateRight child
        match s.links.left s.root with
        | none => (s, some false)
        | some _ => (s.linkRight, none)
      else
        (s.linkRight, none)
  | .gt =>
    match s.links.right s.root with
    | none => (s, some false)
    | some child =>
      if cmp hash (key child) = .gt then
        let s := s.rotateLeft child
        match s.links.right s.root with
        | none => (s, some false)
        | some _ => (s.linkLeft, none)
      else
        (s.linkLeft, none)
  | .eq => (s, some true)

/-- The loop of `splay`; `none` as long as it has not ended. -/
def splayLoop
    (key : Nat → Key)
    (hash : Key) :
    Nat → SplayState → Option (SplayState × Bool)
  | 0, _ => none
  | rounds + 1, s =>
    match splayRound key hash s with
    | (s, some found) => some (s, found)
    | (s, none) => splayLoop key hash rounds s

/-- The end of `splay`: the two trees become the subtrees of the root. -/
def SplayState.assemble (s : SplayState) : Links :=
  let links := s.links.setRight s.left (s.links.left s.root)
  let links := links.adopt (links.left s.root) s.left
  let links := links.setLeft s.right (links.right s.root)
  let links := links.adopt (links.right s.root) s.right
  let links := links.setLeft s.root (links.right stackNode)
  let links := links.adopt (links.right stackNode) s.root
  let links := links.setRight s.root (links.left stackNode)
  let links := links.adopt (links.left stackNode) s.root
  links.setUp s.root none

/-- `splay`: the set and whether the key was found.  The stack node is cleared before use; a
tree of `nodes` nodes needs at most that many rounds. -/
def splay (hash : Key) (cs : CacheSet) : Option (CacheSet × Bool) :=
  match cs.root with
  | none => some (cs, false)
  | some root =>
    let links := ((cs.links.setLeft stackNode none).setRight stackNode none).setUp stackNode none
    match splayLoop cs.key hash nodes { links, left := stackNode, right := stackNode, root } with
    | none => none
    | some (s, found) => some ({ cs with links := s.assemble, root := some s.root }, found)

/-- The promotion of a node that was found, in `cacheset_lookup`. -/
def Order.promote (order : Order) (p : Nat) : Order :=
  match order.next p with
  | none => order
  | some q =>
    let o := order.prev p
    let order :=
      match o with
      | some o => { order with next := Function.update order.next o (some q) }
      | none => { order with first := some q }
    let prev : Nat → Option Nat := Function.update order.prev q o
    let next : Nat → Option Nat := Function.update order.next order.last (some p)
    { next := Function.update next p none
      prev := Function.update prev p (some order.last)
      first := order.first
      last := p }

/-- `cacheset_lookup` -/
def cachesetLookup
    (cs : CacheSet)
    (hash : Key)
    (reclevel : UInt32) :
    Option (CacheSet × Bool) :=
  match splay hash cs with
  | none => none
  | some (cs, false) => some (cs, false)
  | some (cs, true) =>
    match cs.root with
    | none => some (cs, false)
    | some p => some ({ cs with order := cs.order.promote p }, reclevel ≥ cs.minrec p)

/-- A node that has no children in the tree; it may also be unused. -/
def Links.isEnd (links : Links) (node : Nat) : Bool :=
  (links.right node).isNone && (links.left node).isNone

/-- The search for the first end node of the chain, in `cacheset_add`. -/
def firstEnd (cs : CacheSet) : Except (Option Nat) Unit := LinkedChain.loop cs.order.next
    (fun node _ => if cs.links.isEnd node then .error (some node) else .ok ())
    none nodes cs.order.first ()

/-- Take an end node out of the tree. -/
def Links.detach (links : Links) (newnode : Nat) : Links :=
  match links.up newnode with
  | none => links
  | some parent =>
    if links.left parent = some newnode then
      links.setLeft parent none
    else
      links.setRight parent none

/-- Move the new node to the end of the chain. -/
def Order.requeue (order : Order) (newnode : Nat) : Order :=
  let next : Nat → Option Nat :=
    match order.prev newnode with
    | some before => Function.update order.next before (order.next newnode)
    | none => order.next
  let prev : Nat → Option Nat :=
    match next newnode with
    | some behind => Function.update order.prev behind (order.prev newnode)
    | none => order.prev
  let first := if order.first = some newnode then next newnode else order.first
  let prev := Function.update prev newnode (some order.last)
  let next := Function.update next newnode none
  { next := Function.update next order.last (some newnode)
    prev
    first
    last := newnode }

/-- Make the new node the root. -/
def CacheSet.plant
    (cs : CacheSet)
    (newnode : Nat)
    (hash : Key)
    (reclevel : UInt32) :
    CacheSet :=
  let links : Links :=
    match cs.root with
    | none => (cs.links.setLeft newnode none).setRight newnode none
    | some root =>
      let links : Links :=
        if cmp hash (cs.key root) = .lt then
          ((cs.links.setLeft newnode (cs.links.left root)).setRight newnode (some root)).setLeft
            root none
        else
          ((cs.links.setRight newnode (cs.links.right root)).setLeft newnode (some root)).setRight
            root none
      let links := links.adopt (links.left newnode) newnode
      links.adopt (links.right newnode) newnode
  { cs with
    links := links.setUp newnode none
    key := Function.update cs.key newnode hash
    minrec := Function.update cs.minrec newnode reclevel
    root := some newnode }

/-- `cacheset_add` -/
def cachesetAdd
    (cs : CacheSet)
    (hash : Key)
    (reclevel : UInt32) :
    Option CacheSet :=
  match splay hash cs with
  | none => none
  | some (cs, true) =>
    match cs.root with
    | none => some cs
    | some root =>
      if cs.minrec root > reclevel then
        some { cs with minrec := Function.update cs.minrec root reclevel }
      else
        some cs
  | some (cs, false) =>
    match firstEnd cs with
    | .error (some newnode) =>
      let cs := { cs with
        links := cs.links.detach newnode
        order := cs.order.requeue newnode }
      some (cs.plant newnode hash reclevel)
    | .ok () => some cs
    | .error none => none

end LibClamav.Cache
