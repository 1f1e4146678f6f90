import LibClamav.Base64Source
import LibClamav.CheckedBuffer
import Mathlib.Data.List.TakeWhile

namespace LibClamav.Base64

open List

/-!
# Base64 bodies in any layout

The characters of a body fill groups of four across the ends of lines: a line is
decoded as the groups of the carried characters and its own, and what does not
fill a group is carried on.  The export of an encoded text is therefore the text,
whatever its lines are.
-/

variable {m : Message} {carried : List UInt8} (text values more : List UInt8)

theorem byte_ext
    {x y : UInt8}
    (same : x.toBitVec[0] = y.toBitVec[0] ∧ x.toBitVec[1] = y.toBitVec[1] ∧
      x.toBitVec[2] = y.toBitVec[2] ∧ x.toBitVec[3] = y.toBitVec[3] ∧
      x.toBitVec[4] = y.toBitVec[4] ∧ x.toBitVec[5] = y.toBitVec[5] ∧
      x.toBitVec[6] = y.toBitVec[6] ∧ x.toBitVec[7] = y.toBitVec[7]) :
    x = y := by
  obtain ⟨same0, same1, same2, same3, same4, same5, same6, same7⟩ := same
  rw [← UInt8.toBitVec_inj]
  ext i inside
  rcases i with _ | _ | _ | _ | _ | _ | _ | _ | i
  all_goals first | assumption | omega

/-- The four values of six bits in which three bytes are encoded. -/
def sextet1 (a : UInt8) : UInt8 := a >>> 2
def sextet2 (a b : UInt8) : UInt8 := (a &&& 0x3) <<< 4 ||| b >>> 4
def sextet3 (b c : UInt8) : UInt8 := (b &&& 0xf) <<< 2 ||| c >>> 6
def sextet4 (c : UInt8) : UInt8 := c &&& 0x3f

/-- Three bytes and their four values. -/
theorem firstByte_sextets (a b : UInt8) : firstByte (sextet1 a) (sextet2 a b) = a := by
  apply byte_ext
  simp [firstByte, sextet1, sextet2]

theorem secondByte_sextets (a b c : UInt8) : secondByte (sextet2 a b) (sextet3 b c) = b := by
  apply byte_ext
  simp [secondByte, sextet2, sextet3]

theorem thirdByte_sextets (b c : UInt8) : thirdByte (sextet3 b c) (sextet4 c) = c := by
  apply byte_ext
  simp [thirdByte, sextet3, sextet4]

/-- The values of six bits of a text; the last ones are filled with zeros. -/
def sextets : List UInt8 → List UInt8
  | a :: b :: c :: rest =>
    sextet1 a :: sextet2 a b :: sextet3 b c :: sextet4 c :: sextets rest
  | [a, b] => [sextet1 a, sextet2 a b, sextet3 b 0]
  | [a] => [sextet1 a, sextet2 a 0]
  | [] => []

/-- The character for a value. -/
def alphabetChar (v : UInt8) : UInt8 :=
  if v < 26 then
    0x41 + v
  else if v < 52 then
    0x61 + (v - 26)
  else if v < 62 then
    0x30 + (v - 52)
  else if v = 62 then
    0x2b
  else
    0x2f

/-- The number of `=` behind an encoded text. -/
def padding (text : List UInt8) : Nat := (3 - text.length % 3) % 3

/-- The standard encoding of a text. -/
def encode (text : List UInt8) : List UInt8 :=
  (sextets text).map alphabetChar ++ replicate (padding text) 0x3d

/-- The characters of encoded texts. -/
def inAlphabet (c : UInt8) : Bool :=
  (0x41 ≤ c && c ≤ 0x5a) || (0x61 ≤ c && c ≤ 0x7a) || (0x30 ≤ c && c ≤ 0x39) ||
    c == 0x2b || c == 0x2f || c == 0x3d

/-- Lines of an encoded text, among characters outside the alphabet. -/
def Layout (lines : List (Option (List UInt8))) (text : List UInt8) : Prop :=
  (lines.flatMap fun line => line.getD []).filter inAlphabet = encode text

instance (lines : List (Option (List UInt8))) (text : List UInt8) :
    Decidable (Layout lines text) :=
  inferInstanceAs (Decidable (_ = _))

theorem sextet_lt
    (a b : UInt8) :
    sextet1 a < 64 ∧ sextet2 a b < 64 ∧ sextet3 a b < 64 ∧ sextet4 a < 64 := by
  have isSmall : ∀ x : UInt8, x.toBitVec[6] = false ∧ x.toBitVec[7] = false → x < 64 := by
    decide +kernel
  refine ⟨isSmall _ ?_, isSmall _ ?_, isSmall _ ?_, isSmall _ ?_⟩
  · simp [sextet1]
  · simp [sextet2]
  · simp [sextet3]
  · simp [sextet4]

theorem sextets_lt : ∀ v ∈ sextets text, v < 64 := by
  induction text using sextets.induct with
  | case1 a b c rest ih =>
    intro v mem
    simp only [sextets, mem_cons] at mem
    rcases mem with rfl | rfl | rfl | rfl | inRest
    · exact (sextet_lt a b).1
    · exact (sextet_lt a b).2.1
    · exact (sextet_lt b c).2.2.1
    · exact (sextet_lt c c).2.2.2
    · exact ih v inRest
  | case2 a b =>
    simp [sextets, (sextet_lt a b).1, (sextet_lt a b).2.1, (sextet_lt b 0).2.2.1]
  | case3 a => simp [sextets, (sextet_lt a 0).1, (sextet_lt a 0).2.1]
  | case4 => simp [sextets]

/-- The table decodes the alphabet. -/
theorem base64_alphabetChar : ∀ v : UInt8, v < 64 → base64 (alphabetChar v) = v := by
  decide +kernel

/-- The bytes of the full groups of four values. -/
def groupBytes : List UInt8 → List UInt8
  | b1 :: b2 :: b3 :: b4 :: rest =>
    firstByte b1 b2 :: secondByte b2 b3 :: thirdByte b3 b4 :: groupBytes rest
  | _ => []

/-- The values behind the full groups. -/
def groupRest : List UInt8 → List UInt8
  | _ :: _ :: _ :: _ :: rest => groupRest rest
  | short => short

/-- Values are grouped across lines. -/
theorem groupBytes_append : groupBytes (values ++ more) =
      groupBytes values ++ groupBytes (groupRest values ++ more) := by
  induction values using groupRest.induct with
  | case1 b1 b2 b3 b4 rest ih =>
    simp only [cons_append, groupBytes, groupRest, ih]
  | case2 short isShort =>
    rw [groupRest.eq_2 short isShort, groupBytes.eq_2 short isShort, nil_append]

theorem groupRest_append : groupRest (values ++ more) = groupRest (groupRest values ++ more) := by
  induction values using groupRest.induct with
  | case1 b1 b2 b3 b4 rest ih =>
    simp only [cons_append, groupRest, ih]
  | case2 short isShort =>
    rw [groupRest.eq_2 short isShort]

section

/-- The message carries these values, fewer than a group. -/
def Carries (m : Message) : List UInt8 → Prop
  | [] => m.base64chars = 0
  | [b1] => m.base64chars = 1 ∧ m.base64_1 = b1
  | [b1, b2] => m.base64chars = 2 ∧ m.base64_1 = b1 ∧ m.base64_2 = b2
  | [b1, b2, b3] =>
    m.base64chars = 3 ∧ m.base64_1 = b1 ∧ m.base64_2 = b2 ∧ m.base64_3 = b3
  | _ => False

/-- What is decoded and carried when the values are given to the message. -/
def Decodes (values : List UInt8) (result : Option (Message × List UInt8)) : Prop :=
  ∃ m, result = some (m, groupBytes values) ∧ Carries m (groupRest values)

variable (decoder : UInt8 → UInt8)

theorem decodeSlow_plain
    (cb1 cb2 cb3 : UInt8)
    (fuel : Nat)
    (m : Message)
    (input : List UInt8)
    (noneCarried : m.base64chars = 0)
    (enough : input.length ≤ fuel) :
    Decodes (input.map decoder) (decodeSlow decoder cb1 cb2 cb3 (fuel + 1) m input) := by
  induction fuel generalizing m input with
  | zero =>
    rw [length_eq_zero_iff.mp (Nat.le_zero.mp enough)]
    exact ⟨m, by simp [decodeSlow, groupBytes], noneCarried⟩
  | succ fuel ih =>
    rcases input with _ | ⟨c1, _ | ⟨c2, _ | ⟨c3, _ | ⟨c4, rest⟩⟩⟩⟩
    · exact ⟨m, by simp [decodeSlow, groupBytes], noneCarried⟩
    · simp [Decodes, decodeSlow, nextChar, noneCarried, groupBytes, groupRest, Carries]
    · simp [Decodes, decodeSlow, nextChar, noneCarried, groupBytes, groupRest, Carries]
    · simp [Decodes, decodeSlow, nextChar, noneCarried, groupBytes, groupRest, Carries]
    obtain ⟨later, decodes, carries⟩ := ih m rest noneCarried
      (by simp only [length_cons] at enough; omega)
    refine ⟨later, ?_, carries⟩
    rw [decodeSlow]
    simp [nextChar, noneCarried, decodes, groupBytes]

/-- The slow loop goes on from the carried values. -/
theorem decodeSlow_carried
    (carries : Carries m carried)
    (input : List UInt8) :
    Decodes (carried ++ input.map decoder)
      (decodeSlow decoder (carriedOver m).1 (carriedOver m).2.1 (carriedOver m).2.2
        (input.length + 1) m input) := by
  rcases carried with _ | ⟨b1, _ | ⟨b2, _ | ⟨b3, _ | ⟨b4, more⟩⟩⟩⟩
  · exact decodeSlow_plain decoder _ _ _ _ m input carries (le_rfl)
  · obtain ⟨chars, first, second, third⟩ := m
    obtain ⟨rfl, rfl⟩ : chars = 1 ∧ first = b1 := carries
    rcases input with _ | ⟨c1, _ | ⟨c2, _ | ⟨c3, rest⟩⟩⟩
    · exact ⟨_, rfl, rfl, rfl⟩
    · exact ⟨_, rfl, rfl, rfl, rfl⟩
    · exact ⟨_, rfl, rfl, rfl, rfl, rfl⟩
    obtain ⟨later, decodes, carries⟩ := decodeSlow_plain decoder first 0 0
      (rest.length + 2) ⟨0, first, second, third⟩ rest rfl (by omega)
    refine ⟨later, ?_, carries⟩
    rw [length_cons, length_cons, length_cons, decodeSlow]
    simp [carriedOver, nextChar, decodes, groupBytes]
  · obtain ⟨chars, first, second, third⟩ := m
    obtain ⟨rfl, rfl, rfl⟩ : chars = 2 ∧ first = b1 ∧ second = b2 := carries
    rcases input with _ | ⟨c1, _ | ⟨c2, rest⟩⟩
    · exact ⟨_, rfl, rfl, rfl, rfl⟩
    · exact ⟨_, rfl, rfl, rfl, rfl, rfl⟩
    obtain ⟨later, decodes, carries⟩ := decodeSlow_plain decoder first second
      0 (rest.length + 1) ⟨0, first, second, third⟩ rest rfl (by omega)
    refine ⟨later, ?_, carries⟩
    rw [length_cons, length_cons, decodeSlow]
    simp [carriedOver, nextChar, decodes, groupBytes]
  · obtain ⟨chars, first, second, third⟩ := m
    obtain ⟨rfl, rfl, rfl, rfl⟩ : chars = 3 ∧ first = b1 ∧ second = b2 ∧ third = b3 := carries
    rcases input with _ | ⟨c1, rest⟩
    · exact ⟨_, rfl, rfl, rfl, rfl, rfl⟩
    obtain ⟨later, decodes, carries⟩ := decodeSlow_plain decoder first second
      third rest.length ⟨0, first, second, third⟩ rest rfl (le_rfl)
    refine ⟨later, ?_, carries⟩
    rw [length_cons, decodeSlow]
    simp [carriedOver, nextChar, decodes, groupBytes]
  · exact carries.elim

/-- The fast loop decodes full groups. -/
theorem decodeFast_groups
    (input : List UInt8)
    (isFull : input.length % 4 = 0) :
    decodeFast decoder input = some (groupBytes (input.map decoder)) ∧
      groupRest (input.map decoder) = [] := by
  induction input using groupRest.induct with
  | case1 c1 c2 c3 c4 rest ih =>
    obtain ⟨decodes, noRest⟩ := ih (by simp only [length_cons] at isFull; omega)
    simp [decodeFast, decodes, noRest, groupBytes, groupRest]
  | case2 short isShort =>
    rcases short with _ | ⟨c1, _ | ⟨c2, _ | ⟨c3, _ | ⟨c4, rest⟩⟩⟩⟩
    · simp [decodeFast, groupBytes, groupRest]
    · simp at isFull
    · simp at isFull
    · simp at isFull
    · exact (isShort c1 c2 c3 c4 rest rfl).elim

/-- Both decode what was carried and the input. -/
theorem decode_carried
    {input : List UInt8}
    {isFast : Bool}
    (carries : Carries m carried)
    (isFull : isFast = true → input.length % 4 = 0) :
    Decodes (carried ++ input.map decoder) (decode decoder m input isFast) := by
  rw [decode]
  split_ifs with fast
  · rw [Bool.and_eq_true, beq_iff_eq] at fast
    obtain ⟨decodes, noRest⟩ := decodeFast_groups decoder input (isFull fast.1)
    have noneCarried : carried = [] := by
      rcases carried with _ | ⟨b1, _ | ⟨b2, _ | ⟨b3, _ | ⟨b4, more⟩⟩⟩⟩
      · rfl
      · simp [Carries, fast.2] at carries
      · simp [Carries, fast.2] at carries
      · simp [Carries, fast.2] at carries
      · exact carries.elim
    rw [noneCarried, nil_append, Decodes, noRest]
    exact ⟨m, by simp [decodes], fast.2⟩
  · exact decodeSlow_carried decoder carries input

end

/-- The values of a line up to its padding. -/
def lineValues (line : Option (List UInt8)) : List UInt8 :=
  (sanitiseBase64 ((line.getD []).takeWhile (· != 0x3d))).map base64

theorem Carries.isShort
    (carries : Carries m carried) :
    groupBytes carried = [] ∧ groupRest carried = carried := by
  rcases carried with _ | ⟨b1, _ | ⟨b2, _ | ⟨b3, _ | ⟨b4, more⟩⟩⟩⟩
  · exact ⟨rfl, rfl⟩
  · exact ⟨rfl, rfl⟩
  · exact ⟨rfl, rfl⟩
  · exact ⟨rfl, rfl⟩
  · exact carries.elim

/-- So does a line. -/
theorem decodeLine_carried
    (carries : Carries m carried)
    (line : Option (List UInt8)) :
    Decodes (carried ++ lineValues line) (decodeLine m line) := by
  cases line with
  | none =>
    have noValues : carried ++ lineValues none = carried := append_nil carried
    rw [noValues, Decodes, carries.isShort.1, carries.isShort.2]
    exact ⟨m, rfl, carries⟩
  | some line =>
    refine decode_carried base64 carries fun isFast => ?_
    rw [Bool.and_eq_true, beq_iff_eq] at isFast
    exact isFast.2

/-- So do all lines. -/
theorem exportLines_carried
    (lines : List (Option (List UInt8)))
    {m : Message}
    {carried : List UInt8}
    (carries : Carries m carried) :
    ∃ later added,
      exportLines m lines = some (later, added) ∧
        added.flatten = groupBytes (carried ++ lines.flatMap lineValues) ∧
        Carries later (groupRest (carried ++ lines.flatMap lineValues)) := by
  induction lines generalizing m carried with
  | nil =>
    rw [flatMap_nil, append_nil, carries.isShort.1, carries.isShort.2]
    exact ⟨m, [], rfl, rfl, carries⟩
  | cons line lines ih =>
    obtain ⟨next, decodes, nextCarries⟩ := decodeLine_carried carries line
    obtain ⟨later, added, exports, isAdded, laterCarries⟩ := ih nextCarries
    rw [flatMap_cons, ← append_assoc, groupBytes_append (carried ++ lineValues line),
      groupRest_append (carried ++ lineValues line)]
    refine ⟨later, if groupBytes (carried ++ lineValues line) = [] then added
      else groupBytes (carried ++ lineValues line) :: added, ?_, ?_, laterCarries⟩
    · simp [exportLines, decodes, exports]
    · split_ifs with isEmpty
      · rw [isEmpty, nil_append, isAdded]
      · rw [flatten_cons, isAdded]

theorem inAlphabet_iff : ∀ c : UInt8, (base64Table c != 255) = inAlphabet c := by
  decide +kernel

theorem sanitise_takeWhile : sanitiseBase64 (text.takeWhile (· != 0x3d)) =
      (text.filter inAlphabet).takeWhile (· != 0x3d) := by
  have isFilter : sanitiseBase64 = filter inAlphabet := by
    funext text
    exact filter_congr fun c _ => inAlphabet_iff c
  rw [isFilter]
  induction text with
  | nil => rfl
  | cons c rest ih =>
    by_cases isPad : c = 0x3d
    · subst isPad
      rfl
    have isOther : (c != 0x3d) = true := bne_iff_ne.mpr isPad
    rw [takeWhile_cons, if_pos isOther, filter_cons, filter_cons]
    split
    · rw [takeWhile_cons, if_pos isOther, ih]
    · exact ih

theorem unpadded
    (pieces : List (List UInt8))
    {body : List UInt8}
    {n : Nat}
    (isText : pieces.flatten = body ++ replicate n 0x3d)
    (noPad : (0x3d : UInt8) ∉ body) :
    (pieces.flatMap fun piece => piece.takeWhile (· != 0x3d)) = body := by
  induction pieces generalizing body n with
  | nil =>
    rw [flatten_nil, nil_eq, append_eq_nil_iff] at isText
    rw [isText.1, flatMap_nil]
  | cons piece pieces ih =>
    rw [flatten_cons, append_eq_append_iff] at isText
    rw [flatMap_cons]
    rcases isText with ⟨more, rfl, isRest⟩ | ⟨pads, rfl, isPads⟩
    · rw [mem_append, not_or] at noPad
      rw [ih isRest noPad.2, takeWhile_eq_self_iff.mpr]
      intro c mem
      exact bne_iff_ne.mpr fun isPad => noPad.1 (isPad ▸ mem)
    obtain ⟨-, arePads, restPads⟩ := append_eq_replicate_iff.mp isPads.symm
    have restEmpty := @ih [] pieces.flatten.length (by rw [nil_append]; exact restPads) not_mem_nil
    rw [restEmpty, append_nil, arePads, takeWhile_append_of_pos,
      takeWhile_replicate, bne_self_eq_false, if_neg Bool.false_ne_true,
      append_nil]
    intro c mem
    exact bne_iff_ne.mpr fun isPad => noPad (isPad ▸ mem)

/-- The lines of a text have its values. -/
theorem lineValues_of_layout
    {lines : List (Option (List UInt8))}
    {text : List UInt8}
    (layout : Layout lines text) :
    lines.flatMap lineValues = sextets text := by
  have noPad : (0x3d : UInt8) ∉ (sextets text).map alphabetChar := by
    have notPad : ∀ v : UInt8, alphabetChar v ≠ 0x3d := by
      decide +kernel
    intro mem
    obtain ⟨v, -, isPad⟩ := mem_map.mp mem
    exact notPad v isPad
  have isText : (lines.map fun line => (line.getD []).filter inAlphabet).flatten =
      (sextets text).map alphabetChar ++ replicate (padding text) 0x3d := by
    rw [Layout, encode, filter_flatMap] at layout
    exact layout
  have isBody := unpadded _ isText noPad
  have isDecoded : lines.flatMap lineValues = ((lines.map fun line =>
      (line.getD []).filter inAlphabet).flatMap fun piece =>
        piece.takeWhile (· != 0x3d)).map base64 := by
    rw [flatMap_map, map_flatMap]
    exact flatMap_congr fun line _ => by rw [lineValues, sanitise_takeWhile]
  rw [isDecoded, isBody, map_map]
  exact (map_congr_left fun v mem =>
    base64_alphabetChar v (sextets_lt text v mem)).trans (map_id' _)

/-- The groups and the rest are the text. -/
theorem sextets_groups : ∃ last, last.length < 3 ∧ groupRest (sextets text) = sextets last ∧
      groupBytes (sextets text) ++ last = text := by
  induction text using sextets.induct with
  | case1 a b c rest ih =>
    obtain ⟨last, isShort, isRest, isText⟩ := ih
    refine ⟨last, isShort, isRest, ?_⟩
    rw [sextets, groupBytes, firstByte_sextets, secondByte_sextets, thirdByte_sextets,
      cons_append, cons_append, cons_append, isText]
  | case2 a b => exact ⟨[a, b], by simp, rfl, rfl⟩
  | case3 a => exact ⟨[a], by simp, rfl, rfl⟩
  | case4 => exact ⟨[], by simp, rfl, rfl⟩

/-- The flush gives the rest. -/
theorem flush_sextets
    {last : List UInt8}
    (isShort : last.length < 3)
    (carries : Carries m (sextets last)) :
    (base64Flush m).1.toList.flatten = last := by
  rcases last with _ | ⟨a, _ | ⟨b, _ | ⟨c, rest⟩⟩⟩
  · have noneCarried : m.base64chars = 0 := carries
    simp [base64Flush, noneCarried]
  · obtain ⟨isTwo, isFirst, isSecond⟩ : m.base64chars = 2 ∧ m.base64_1 = sextet1 a ∧
        m.base64_2 = sextet2 a 0 := carries
    have isByte : ∀ a : UInt8, sextet2 a 0 <<< 4 = 0 ∧ (sextet2 a 0 = 0 → sextet1 a <<< 2 = a) := by
      decide +kernel
    by_cases isZero : sextet2 a 0 = 0
    · simp [base64Flush, decodeFlush, carriedOver, isTwo, isFirst, isSecond, isZero,
        (isByte a).2 isZero]
    · simp [base64Flush, decodeFlush, carriedOver, isTwo, isFirst, isSecond, isZero,
        (isByte a).1, firstByte_sextets]
  · obtain ⟨isThree, isFirst, isSecond, isThird⟩ : m.base64chars = 3 ∧
        m.base64_1 = sextet1 a ∧ m.base64_2 = sextet2 a b ∧ m.base64_3 = sextet3 b 0 :=
      carries
    have noBits : ∀ b : UInt8, sextet3 b 0 &&& 0x3 = 0 := by
      decide +kernel
    simp [base64Flush, decodeFlush, carriedOver, isThree, isFirst, isSecond, isThird,
      noBits, firstByte_sextets, secondByte_sextets]
  · simp only [length_cons] at isShort
    omega

/-- Attachments survive any layout of their lines. -/
theorem export_of_layout
    (m : Message)
    (lines : List (Option (List UInt8)))
    (text : List UInt8)
    (noneCarried : m.base64chars = 0)
    (layout : Layout lines text) :
    ∃ added, messageExport m lines = some added ∧ added.flatten = text := by
  obtain ⟨later, added, exports, isAdded, carries⟩ := @exportLines_carried lines m [] noneCarried
  rw [nil_append, lineValues_of_layout layout] at isAdded carries
  obtain ⟨last, isShort, isRest, isText⟩ := sextets_groups text
  rw [isRest] at carries
  refine ⟨added ++ (base64Flush later).1.toList, by simp [messageExport, exports], ?_⟩
  rw [flatten_append, isAdded, flush_sextets isShort carries, isText]

/-- `S`, `G V`, a blank line, `sbG!`, `8` and `=`. -/
def shortLines : List (Option (List UInt8)) :=
  [some [0x53], some [0x47, 0x20, 0x56], none, some [0x73, 0x62, 0x47, 0x21],
    some [0x38], some [0x3d]]

/-- `Hello` in lines of one, two and three characters. -/
theorem export_of_layout_shortLines : Layout shortLines [0x48, 0x65, 0x6c, 0x6c, 0x6f] ∧
      ∃ added, messageExport ⟨0, 0, 0, 0⟩ shortLines = some added ∧
        added.flatten = [0x48, 0x65, 0x6c, 0x6c, 0x6f] := by
  have layout : Layout shortLines [0x48, 0x65, 0x6c, 0x6c, 0x6f] := by decide
  exact ⟨layout, export_of_layout ⟨0, 0, 0, 0⟩ shortLines _ rfl layout⟩

end LibClamav.Base64
