import LibClamav.AcPattern
import Mathlib.Algebra.Ring.Nat

namespace LibClamav.Prefilter

open Ac List

/-!
# The prefilter

`struct filter` is a Shift-Or automaton over overlapping 2-grams.  Bit `pos` of
`B[q]` is clear when the 2-gram `q` may stand at place `pos` of some pattern,
and bit `pos` of `end[q]` is clear when a pattern may end there.  Every pattern
contributes only a part of itself, which is chosen by scores.
-/

/-- `struct filter`; the tables have 65536 entries. -/
structure Filter where
  b : Nat → BitVec 8
  endMask : Nat → BitVec 8

/-- `filter_init` -/
def filterInit : Filter := ⟨fun _ => 0xff#8, fun _ => 0xff#8⟩

/-- `MAXSOPATLEN` -/
def maxSoPatLen : Nat := 8

/-- `MAXPATLEN` -/
def maxPatLen : Nat := 255

/-- `MAX_CHOICES` -/
def maxChoices : Nat := 8

/-- `filter_isset` -/
def filterIsset (m : Filter) (pos val : Nat) : Bool := !(m.b val).getLsbD pos

/-- `filter_end_isset` -/
def filterEndIsset
    (m : Filter)
    (pos val : Nat) :
    Bool := !(m.endMask val).getLsbD pos

/-- `filter_set_atpos` -/
def filterSetAtpos (m : Filter) (pos val : Nat) : Filter :=
  if filterIsset m pos val then
    m
  else
    { m with b := fun q =>
        if q = val then m.b q &&& ~~~(1#8 <<< pos) else m.b q }

/-- `filter_set_end` -/
def filterSetEnd (m : Filter) (pos val : Nat) : Filter :=
  if filterEndIsset m pos val then
    m
  else
    { m with endMask := fun q =>
        if q = val then m.endMask q &&& ~~~(1#8 <<< pos) else m.endMask q }

/-- `cli_readint16( &data[index] )` -/
def readInt16 (data : List UInt8) (index : Nat) : Nat :=
  (byteAt data index).toNat + 256 * (byteAt data (index + 1)).toNat

/-- Number of 2-grams that the score of `filter_add_static` looks at. -/
def staticGrams (len j : Nat) : Nat := min (len - 1 - j) maxSoPatLen

/-- What the 2-gram at place `t` of the part from `j` on adds to `num`. -/
def staticGramCost (m : Filter) (pattern : List UInt8) (j t : Nat) : Nat :=
  let q := readInt16 pattern (j + t)
  (if filterIsset m t q then 0 else maxSoPatLen - t) +
    (if (t = 0 ∨ t = 1) ∧ (q = 0 ∨ q = 0xffff) then
      (if t = 0 then 10000 else 1000)
    else 0)

/-- `num` of `filter_add_static`, an unsigned word. -/
def staticScore (m : Filter) (pattern : List UInt8) (len j : Nat) : Nat :=
  let n := staticGrams len j
  let q := readInt16 pattern (j + n - 1)
  let sum :=
    maxSoPatLen + ((range n).map (staticGramCost m pattern j)).sum +
      10 * (if filterEndIsset m (n - 1) q then 0 else 1) +
      5 * (maxSoPatLen - n) + (if n + 1 < 4 then 200 else 0)
  let favour : Int := ((16 - (2 * j + n + 1 : Int)) * n).tdiv 2
  (((sum : Int) - favour) % 2 ^ 32).toNat

/-- The loop that looks for `best_pos`. -/
def staticBest
    (m : Filter)
    (pattern : List UInt8)
    (len maxlen : Nat) :
    Nat → Nat → Nat → Nat → Nat
  | 0, _, _, bestPos => bestPos
  | fuel + 1, j, best, bestPos =>
    if (best < 100 ∧ j < maxChoices) ∨ j < maxlen then
      if j + 2 > len then
        bestPos
      else if staticScore m pattern len j < best then
        staticBest m pattern len maxlen fuel (j + 1) (staticScore m pattern len j) j
      else
        staticBest m pattern len maxlen fuel (j + 1) best bestPos
    else
      bestPos

/-- `maxlen` of `filter_add_static` -/
def staticMaxlen (len : Nat) : Nat :=
  if len > 4 then
    if len - 4 = 1 then 2 else len - 4
  else
    2

/-- `filter_add_static`; no result is its `-1`. -/
def filterAddStatic (m : Filter) (pattern : List UInt8) : Option (Filter × Nat) :=
  let len := min pattern.length maxPatLen
  if len < 2 then
    none
  else
    let bestPos :=
      staticBest m pattern len (staticMaxlen len) len 0 0xffffffff 0
    let used := min (len - bestPos) maxSoPatLen
    let filled :=
      (range (used - 1)).foldl (fun m j => filterSetAtpos m j (readInt16 pattern (bestPos + j))) m
    some (filterSetEnd filled (used - 2) (readInt16 pattern (bestPos + (used - 2))), used)

/-- `struct char_spec`; without `alt` the characters are numbers of a range. -/
structure CharSpec where
  alt : Option (List UInt8) := none
  start : Nat
  finish : Nat
  step : Nat := 1
  negative : Bool := false
  deriving Repr, DecidableEq

/-- `chars[k]` -/
def specAt
    (chars : List CharSpec)
    (k : Nat) :
    CharSpec := chars.getD k ⟨none, 0, 0, 1, false⟩

/-- `spec_ith_char` -/
def specIthChar (spec : CharSpec) (i : Nat) : Nat :=
  match spec.alt with
  | some str => (byteAt str i).toNat
  | none => i % 256

/-- `for(k = spec->start; k <= spec->end; k += spec->step)` -/
def specIndices (spec : CharSpec) : List Nat :=
  if spec.finish < spec.start then
    []
  else
    (range ((spec.finish - spec.start) / spec.step + 1)).map fun i => spec.start + spec.step * i

/--
The two inner loops of `SPEC_FOREACH`.  The counter `cc1` keeps its value when
the outer loop goes on to its next round.
-/
def specRows
    (c0 c0end c1 c1end : Nat)
    (negative0 negative1 : Bool) :
    Nat → Nat → Nat → List Nat
  | 0, _, _ => []
  | fuel + 1, cc0, cc1 =>
    if cc0 ≤ c0end then
      (((range (c1end + 1 - cc1)).map (cc1 + ·)).filter fun cc1 =>
          !(negative0 && cc0 == c0) && !(negative1 && cc1 == c1)).map
        (fun cc1 => cc0 + 256 * cc1) ++
      specRows c0 c0end c1 c1end negative0 negative1 fuel (cc0 + 1) (max cc1 (c1end + 1))
    else
      []

/-- The 2-grams of one `SPEC_FOREACH(spec0, k0, spec1, k1)`. -/
def specForeach (spec0 spec1 : CharSpec) (k0 k1 : Nat) : List Nat :=
  let c0 := specIthChar spec0 k0
  let c1 := specIthChar spec1 k1
  let c0end := if spec0.negative then 255 else c0
  let c1end := if spec1.negative then 255 else c1
  specRows c0 c0end c1 c1end spec0.negative spec1.negative 256
    (if spec0.negative then 0 else c0) (if spec1.negative then 0 else c1)

/-- The 2-grams that a pair of neighbouring characters stands for. -/
def specGrams (spec0 spec1 : CharSpec) : List Nat := (specIndices spec0).flatMap fun k0 =>
    (specIndices spec1).flatMap fun k1 => specForeach spec0 spec1 k0 k1

/-- `enum badness` -/
inductive Badness where
  | reject
  | avoidFirst
  | avoidAnywhere
  | dontlike
  | acceptable
  | like
  deriving Repr, DecidableEq

/-- The numeric order of `enum badness`. -/
def Badness.rank : Badness → Nat
  | .reject => 0
  | .avoidFirst => 1
  | .avoidAnywhere => 2
  | .dontlike => 3
  | .acceptable => 4
  | .like => 5

/-- `MIN` on `enum badness` -/
def Badness.min (left right : Badness) : Badness :=
  if left.rank < right.rank then left else right

/-- The base score of a 2-gram at place `i`. -/
def badnessBase (badness : Badness) (i : Nat) : Int :=
  match badness with
  | .reject => -0x7fffff
  | .avoidFirst => if i = 0 then -0x700000 else 0
  | .avoidAnywhere => if i = 0 then -0x720000 else -0x1000
  | .dontlike => 0
  | .acceptable => 0x200
  | .like => 0x201

/-- `get_score`: the score and the score as an end. -/
def getScore
    (badness : Badness)
    (i : Nat)
    (m : Filter)
    (spec0 spec1 : CharSpec) :
    Int × Int :=
  let base := badnessBase badness i
  if base < 0 then
    (base, base)
  else
    let grams := specGrams spec0 spec1
    let introduced := (grams.filter (filterIsset m i)).length
    let endIntroduced := (grams.filter (filterEndIsset m i)).length
    (base - introduced, base - endIntroduced -
        (if badness = .avoidFirst ∧ i ≠ 0 then 0x1000 else 0))

/-- `struct choice` -/
structure Choice where
  base : Badness
  begin : Nat
  len : Nat
  deriving Repr, DecidableEq

/-- The index of the worst choice that is worse than `badness`, if any. -/
def worstChoice (badness : Badness) (choices : List Choice) : Option Nat :=
  (range choices.length).foldl (fun worst j =>
      let base (index : Nat) : Nat :=
        ((choices[index]?).map fun choice => choice.base.rank).getD 0
      if base j < badness.rank then
        match worst with
        | none => some j
        | some i => if base j < base i then some j else some i
      else
        worst)
    none

/-- `add_choice` -/
def addChoice
    (choices : List Choice)
    (i ie : Nat)
    (badness : Badness) :
    List Choice :=
  if ie < i + 1 then
    choices
  else if choices.length ≥ maxChoices then
    choices
  else
    let choice : Choice := ⟨badness, i, ie - i + 1⟩
    let replaced :=
      if badness.rank > Badness.avoidFirst.rank ∧ choices.length ≥ maxChoices / 2 then
        worstChoice badness choices
      else
        none
    match replaced with
    | some index => choices.set index choice
    | none => choices ++ [choice]

/-- `spec_iter` -/
def specIter (spec : CharSpec) : Nat := (1 + spec.finish - spec.start) / spec.step *
    (if spec.negative then 254 else 1)

/-- The loop over `k1` of the badness of a pair; it ends at its first verdict. -/
def pairVerdict
    (spec0 spec1 : CharSpec)
    (k0 : Nat) :
    List Nat → Badness × Bool → Badness × Bool
  | [], verdict => verdict
  | k1 :: rest, (scor, binary) =>
    let c0 := specIthChar spec0 k0
    let c1 := specIthChar spec1 k1
    if spec0.negative || spec1.negative then
      (.avoidAnywhere, binary)
    else if (c0 = 0 ∧ c1 = 0) ∨ (c0 = 0xff ∧ c1 = 0xff) then
      (.avoidFirst, binary)
    else if c0 = c1 then
      (.dontlike, binary)
    else if (c0 < 32 ∨ c0 > 127) ∧ (c1 < 32 ∨ c1 > 127) then
      pairVerdict spec0 spec1 k0 rest (scor, true)
    else
      pairVerdict spec0 spec1 k0 rest (scor, binary)

/-- `char_badness[i]` -/
def charBadness (spec0 spec1 : CharSpec) : Badness :=
  let numIter := specIter spec0 * specIter spec1
  if numIter ≥ 0x100 then
    if numIter = 0x10000 then .reject else .avoidAnywhere
  else
    let (scor, binary) :=
      (specIndices spec0).foldl (fun verdict k0 =>
          pairVerdict spec0 spec1 k0 (specIndices spec1) verdict)
        (.acceptable, false)
    if scor = .acceptable ∧ binary then .like else scor

/-- The state of the loop that looks along one candidate. -/
structure CandidateScan where
  base0 : Badness := .like
  /-- First place that is not quite acceptable, if any. -/
  ki : Option Nat := none
  kend : Nat

/-- `for (k=i;k<kend;k++)` over one candidate that starts at `i`. -/
def candidateLoop
    (badness : List Badness)
    (i : Nat) :
    Nat → Nat → CandidateScan → CandidateScan
  | 0, _, scan => scan
  | fuel + 1, k, scan =>
    if k < scan.kend then
      let found := badness.getD k .reject
      if found = .reject then
        { scan with kend := k }
      else if found.rank < Badness.acceptable.rank then
        let adjusted :=
          if found = .avoidFirst ∧ k ≠ i then
            .dontlike
          else if k = i ∧ found = .avoidAnywhere then
            .avoidFirst
          else
            found
        candidateLoop badness i fuel (k + 1)
          { scan with
            base0 := scan.base0.min adjusted
            ki := some (scan.ki.getD k) }
      else
        candidateLoop badness i fuel (k + 1) { scan with base0 := scan.base0.min found }
    else
      scan

/-- `while ((kend > i+3) && char_badness[kend-1] == reject) kend--;` -/
def trimReject (badness : List Badness) (i : Nat) : Nat → Nat
  | 0 => 0
  | kend + 1 =>
    if kend + 1 > i + 3 ∧ badness.getD kend .reject = .reject then
      trimReject badness i kend
    else
      kend + 1

/-- The loop that collects the candidates of a pattern of `j` characters. -/
def chooseLoop
    (badness : List Badness)
    (j : Nat) :
    Nat → Nat → List Choice → List Choice
  | 0, _, choices => choices
  | fuel + 1, i, choices =>
    if i < j - 1 ∧ choices.length < maxChoices then
      let first := badness.getD i .reject
      if first = .reject then
        chooseLoop badness j fuel (i + 1) choices
      else if (first = .avoidAnywhere ∨ first = .avoidFirst) ∧ choices ≠ [] then
        chooseLoop badness j fuel (i + 1) choices
      else
        let kend :=
          trimReject badness i (min (j - 1) ((i + maxSoPatLen) / 2 * 2))
        let scan := candidateLoop badness i kend i { kend := kend }
        let chosen := addChoice choices i scan.kend scan.base0
        chooseLoop badness j fuel (max i (scan.ki.getD 0) + 1) chosen
    else
      choices

/-- `best_score`, `best_score_i` and `best_score_len`. -/
structure Best where
  score : Int := -0x7fffffff
  i : Nat := 0
  len : Nat := 0

/-- The loop over the 2-grams of one candidate. -/
def scoreCandidate
    (m : Filter)
    (chars : List CharSpec)
    (badness : List Badness)
    (begin : Nat) :
    List Nat → Int → Best → Best
  | [], _, best => best
  | p :: rest, score, best =>
    let k := begin + p
    let weight : Int := if p < 6 then 6 - p else 1
    let (iscore, scoreEnd) :=
      getScore (badness.getD k .reject) p m (specAt chars k) (specAt chars (k + 1))
    let score := score + iscore * weight
    let total := score + scoreEnd * weight
    scoreCandidate m chars badness begin rest score
      (if total > best.score then ⟨total, begin, p + 2⟩ else best)

/-- The loop over all candidates. -/
def scoreChoices
    (m : Filter)
    (chars : List CharSpec)
    (badness : List Badness)
    (choices : List Choice) :
    Best :=
  choices.foldl (fun best choice =>
      scoreCandidate m chars badness choice.begin (range (choice.len - 1)) 0 best)
    {}

/-- The badness of every pair of neighbours. -/
def pairBadness (chars : List CharSpec) : List Badness := zipWith charBadness chars chars.tail

/-- The part of the pattern that goes into the filter: its start and length. -/
def selectWindow (m : Filter) (chars : List CharSpec) : Option (Nat × Nat) :=
  let badness := pairBadness chars
  let choices := chooseLoop badness chars.length chars.length 0 []
  let best := scoreChoices m chars badness choices
  if best.score ≤ -0x7fffffff then
    none
  else if choices = [] then
    none
  else
    some (best.i, best.len)

/-- `pat->special_table[altcnt]->type == AC_SPECIAL_ALT_CHAR` -/
def isAltChar (specialTable : List Special) (altcnt : Nat) : Bool :=
  match specialTable[altcnt]? with
  | some ⟨.altChar _, _⟩ => true
  | _ => false

/-- The specials other than character alternatives at the start of a pattern. -/
def leadingSpecials (specialTable : List Special) : List PatChar → Nat → Nat
  | .special :: rest, altcnt =>
    if isAltChar specialTable altcnt then
      altcnt
    else
      leadingSpecials specialTable rest (altcnt + 1)
  | _, altcnt => altcnt

/--
The characters of a pattern in the representation of the filter, up to the
first special element that is no character alternative.  The last index of an
alternative is kept in one byte.
-/
def charSpecs (specialTable : List Special) : List PatChar → Nat → List CharSpec
  | [], _ => []
  | p :: rest, altcnt =>
    match p with
    | .char c =>
      { start := c.toNat, finish := c.toNat } :: charSpecs specialTable rest altcnt
    | .ignore =>
      { start := 0, finish := 0xff } :: charSpecs specialTable rest altcnt
    | .special =>
      match specialTable[altcnt]? with
      | some ⟨.altChar str, negative⟩ =>
        { alt := some str, start := 0,
          finish := (str.length + 255) % 256, negative := negative } ::
          charSpecs specialTable rest (altcnt + 1)
      | _ => []
    | .nibbleHigh c =>
      { start := c.toNat / 16 * 16, finish := c.toNat / 16 * 16 + 15 } ::
        charSpecs specialTable rest altcnt
    | .nibbleLow c =>
      { start := c.toNat % 16, finish := 0xf0 + c.toNat % 16,
        step := 0x10 } ::
        charSpecs specialTable rest altcnt

/-- All characters of a pattern, its prefix first. -/
def fullPattern (pat : AcPatt) : List PatChar := pat.prefixPat ++ pat.pattern

/-- The byte of a character that is no wildcard. -/
def PatChar.byte? : PatChar → Option UInt8
  | .char c => some c
  | _ => none

/-- The characters that `filter_add_acpatt` chooses from. -/
def patternSpecs (pat : AcPatt) : List CharSpec :=
  let skipped :=
    if pat.prefixPat.isEmpty then
      leadingSpecials pat.specialTable pat.pattern 0
    else
      0
  charSpecs pat.specialTable (((fullPattern pat).take maxPatLen).drop skipped) skipped

/-- Insert every 2-gram of a pair at one place. -/
def setGrams (m : Filter) (pos : Nat) (grams : List Nat) : Filter :=
  grams.foldl (fun m a => filterSetAtpos m pos a) m

/-- Mark every 2-gram of a pair as an end. -/
def setEnds (m : Filter) (pos : Nat) (grams : List Nat) : Filter :=
  grams.foldl (fun m a => filterSetEnd m pos a) m

/-- The pair of characters at place `i` of the part that starts at `begin`. -/
def windowGrams (chars : List CharSpec) (begin i : Nat) : List Nat :=
  specGrams (specAt chars (begin + i)) (specAt chars (begin + i + 1))

/-- `filter_add_acpatt`; no result is its `-1`. -/
def filterAddAcpatt (m : Filter) (pat : AcPatt) : Option (Filter × Nat) :=
  let checked := (fullPattern pat).take maxPatLen
  if checked.all fun p => !p.isWildcard then
    filterAddStatic m (checked.filterMap PatChar.byte?)
  else
    let chars := patternSpecs pat
    if chars.length < 2 then
      none
    else
      match selectWindow m chars with
      | none => none
      | some (begin, len) =>
        let filled :=
          (range (len - 1)).foldl (fun m i => setGrams m i (windowGrams chars begin i)) m
        some (setEnds filled (len - 2) (windowGrams chars begin (len - 2)), len)

/-- The loop of `filter_search_ext`; `state` is an 8-bit word. -/
def filterSearchLoop
    (m : Filter)
    (data : List UInt8) :
    Nat → Nat → BitVec 8 → Option Nat
  | 0, _, _ => none
  | fuel + 1, j, state =>
    let q0 := readInt16 data j
    let next := (state <<< 1) ||| m.b q0
    if next ||| m.endMask q0 ≠ 0xff#8 then
      some j
    else
      filterSearchLoop m data fuel (j + 1) next

/-- `filter_search_ext`; the result is `first_match`, none is its `-1`. -/
def filterSearchExt (m : Filter) (data : List UInt8) : Option Nat :=
  filterSearchLoop m data (data.length - 1) 0 0xff#8

end LibClamav.Prefilter
