import LibClamav.TarSource

namespace LibClamav.Tar

open List

/-!
# Two readers of one tar stream

`cli_untgz` enters its data loop even for an empty member and then takes one block for
data, the header of the next member; `cli_tgzload` does not move over a member whose
padded size is 2^32, unless it has loaded it.  On streams where neither happens the
readers agree, and for members of smaller sizes on no others.
-/

variable {block : Block} {size i : Nat} {files others : List Seen} (members : List Member)

/-- A member of a stream: a header that is accepted and as many blocks as its size needs. -/
structure Member where
  header : Block
  data : List Block
  size : Nat
  isHeader : header.length = tarBlocksize
  named : header.headD 0 ≠ 0
  accepted : acceptsHeader header = true
  sized : headerSize header = .converted (size % 2 ^ 32)
  whole : ∀ block ∈ data, block.length = tarBlocksize
  enough : data.length = (size + 511) / tarBlocksize

def Member.content (member : Member) : List UInt8 := member.data.flatten.take member.size

def Member.blocks (member : Member) : List Block :=
  member.header :: member.data

/-- The member as it should be seen. -/
def Member.seen (member : Member) : Seen := ⟨headerName member.header, member.size, member.content⟩

def zeroBlock : Block := replicate tarBlocksize 0

theorem length_zeroBlock : zeroBlock.length = tarBlocksize := length_replicate

theorem headD_zeroBlock : zeroBlock.headD 0 = 0 := rfl

/-- A stream of members that ends with some zero blocks. -/
def stream (members : List Member) (zeros : Nat) : List Block :=
  members.flatMap Member.blocks ++ replicate zeros zeroBlock

theorem size_le
    {data : List Block}
    (whole : ∀ block ∈ data, block.length = tarBlocksize)
    (enough : data.length = (size + 511) / tarBlocksize) :
    size ≤ data.flatten.length := by
  have isLength : data.flatten.length = data.length * tarBlocksize := by
    rw [length_flatten, map_congr_left whole, map_const', sum_replicate_nat]
  rw [isLength, enough, tarBlocksize]
  omega

theorem stream_cons
    (member : Member)
    (members : List Member)
    (zeros : Nat) :
    stream (member :: members) zeros =
      member.header :: (member.data ++ stream members zeros) := by
  simp [stream, Member.blocks]

/-- A stream consists of whole blocks. -/
theorem stream_whole
    (zeros : Nat) :
    ∀ block ∈ stream members zeros, block.length = tarBlocksize := by
  intro block isBlock
  rcases mem_append.mp isBlock with isMember | isZero
  · obtain ⟨member, -, isBlock⟩ := mem_flatMap.mp isMember
    rcases mem_cons.mp isBlock with rfl | isData
    · exact member.isHeader
    · exact member.whole block isData
  · rw [eq_of_mem_replicate isZero]
    exact length_zeroBlock

variable {member : Member} (blocks data first second : List Block)

theorem appendLast_append
    (bytes : List UInt8)
    (file : Seen)
    (files : List Seen) :
    appendLast bytes (files ++ [file]) =
      files ++ [{ file with content := file.content ++ bytes }] := by
  induction files with
  | nil => rfl
  | cons first files ih =>
    cases files with
    | nil => rfl
    | cons second files => exact congrArg (first :: ·) ih

/-- A block of data is appended to the file. -/
theorem untgzLoop_data
    {blocks : List Block}
    {file : Seen}
    (isWhole : block.length = tarBlocksize) :
    untgzLoop ⟨true, size, files ++ [file]⟩ (block :: blocks) =
      untgzLoop ⟨size - min size tarBlocksize ≠ 0, size - min size tarBlocksize,
        files ++ [{ file with content := file.content ++ block.take (min size tarBlocksize) }]⟩
        blocks := by
  rw [untgzLoop, untgzTurn, if_neg (not_not.mpr isWhole), if_neg (by simp)]
  dsimp only
  rw [appendLast_append]

/-- All blocks of a file are. -/
theorem untgzLoop_file
    {blocks : List Block}
    {size : Nat}
    {file : Seen}
    (isPositive : 0 < size)
    (isLength : data.length = (size + 511) / tarBlocksize)
    (whole : ∀ block ∈ data, block.length = tarBlocksize) :
    untgzLoop ⟨true, size, files ++ [file]⟩ (data ++ blocks) = untgzLoop ⟨false, 0,
      files ++ [{ file with content := file.content ++ data.flatten.take size }]⟩ blocks := by
  induction data generalizing size file with
  | nil =>
    rw [length_nil, tarBlocksize] at isLength
    omega
  | cons block data ih =>
    have isWhole := whole block mem_cons_self
    rw [cons_append, untgzLoop_data isWhole]
    rw [length_cons, tarBlocksize] at isLength
    by_cases isLast : size ≤ 512
    · have isEmpty : data = [] := eq_nil_of_length_eq_zero (by omega)
      subst isEmpty
      rw [tarBlocksize, Nat.min_eq_left isLast, Nat.sub_self]
      simp
    have further := @ih (size - 512) { file with content := file.content ++ block } (by omega)
      (by rw [tarBlocksize]; omega)
      fun other isOther => whole other (mem_cons_of_mem _ isOther)
    have goesOn : decide (size - 512 ≠ 0) = true := decide_eq_true (by omega)
    have isLength512 : block.length = 512 := isWhole
    have takesBlock : block.take 512 = block := take_of_length_le (by omega)
    have takesRest : (block :: data).flatten.take size =
        block ++ data.flatten.take (size - 512) := by
      rw [flatten_cons, take_append, isLength512, take_of_length_le (by omega)]
    rw [tarBlocksize, Nat.min_eq_right (by omega), goesOn, takesBlock, further, takesRest,
      append_assoc]

/-- Files seen before do not matter. -/
theorem untgzLoop_prefix
    (before : List Seen)
    (blocks : List Block)
    (state : Untgz)
    (hasFile : state.inBlock = true → state.files ≠ []) :
    (untgzLoop { state with files := before ++ state.files } blocks).1 =
      before ++ (untgzLoop state blocks).1 := by
  induction blocks generalizing state with
  | nil =>
    rfl
  | cons block blocks ih =>
    rw [untgzLoop, untgzLoop, untgzTurn, untgzTurn]
    by_cases isShort : block.length ≠ tarBlocksize
    · rw [if_pos isShort, if_pos isShort]
    rw [if_neg isShort, if_neg isShort]
    by_cases isOpen : state.inBlock = true
    · obtain ⟨files, file, isFiles⟩ := (eq_nil_or_concat' state.files).resolve_left (hasFile isOpen)
      rw [if_neg (not_not.mpr isOpen), if_neg (not_not.mpr isOpen)]
      dsimp only
      rw [isFiles, ← append_assoc, appendLast_append, appendLast_append]
      have further := ih ⟨decide (state.size - min state.size tarBlocksize ≠ 0),
        state.size - min state.size tarBlocksize, files ++ [{ file with
          content := file.content ++ block.take (min state.size tarBlocksize) }]⟩ (by simp)
      rw [← append_assoc] at further
      exact further
    rw [if_pos isOpen, if_pos isOpen]
    by_cases isEnd : block.headD 0 = 0
    · rw [if_pos isEnd, if_pos isEnd]
    rw [if_neg isEnd, if_neg isEnd]
    by_cases isRejected : ¬ acceptsHeader block = true
    · rw [if_pos isRejected, if_pos isRejected]
    rw [if_neg isRejected, if_neg isRejected]
    cases headerSize block with
    | mismatch => exact append_assoc _ _ _
    | ended | converted size =>
      dsimp only
      rw [append_assoc]
      exact ih ⟨true, _, _⟩ (by simp)

theorem untgzLoop_closed
    (file : Seen)
    (size : Nat)
    (blocks : List Block) :
    (untgzLoop ⟨false, size, [file]⟩ blocks).1 =
      file :: (untgzLoop ⟨false, size, []⟩ blocks).1 :=
  untgzLoop_prefix [file] blocks ⟨false, size, []⟩ (by simp)

/-!
## Streams that both readers go through alike

The size of a member is what the field holds in 32 bits.
-/

/-- No member begins here: the end of the stream, or a block that both readers stop at. -/
def Ended : List Block → Prop
  | [] => True
  | block :: _ =>
    block.length ≠ tarBlocksize ∨ block.headD 0 = 0 ∨ acceptsHeader block = false

/-- The header of a plain file, with the size that is read from it. -/
structure IsHeader (header : Block) (size : Nat) : Prop where
  isWhole : header.length = tarBlocksize
  named : header.headD 0 ≠ 0
  accepted : acceptsHeader header = true
  sized : headerSize header = .converted size

/-- The blocks that a size needs. -/
def dataBlocks (size : Nat) : Nat := (size + 511) / tarBlocksize

/--
Read header by header, each with the blocks that its size needs, no header but the last has the
size 0, and no size above 2^32 - 512 belongs to a member that is not loaded.
-/
inductive Steady (loads : List UInt8 → Bool) : List Block → Prop where
  | ended {blocks : List Block} : Ended blocks → Steady loads blocks
  | member {header : Block} {blocks : List Block} {size : Nat} :
      IsHeader header size → size ≠ 0 → size ≤ 2 ^ 32 - 512 ∨ loads (headerName header) = true →
      (∀ block ∈ blocks.take (dataBlocks size), block.length = tarBlocksize) →
      Steady loads (blocks.drop (dataBlocks size)) → Steady loads (header :: blocks)
  | lastEmpty {header : Block} {blocks : List Block} :
      IsHeader header 0 → Ended blocks → Ended (blocks.drop 1) → Steady loads (header :: blocks)

variable {header : Block}

/-- `cli_untgz` behind a header. -/
theorem IsHeader.untgzLoop_eq
    (isHeader : IsHeader header size)
    (blocks : List Block)
    (before : Nat) :
    untgzLoop ⟨false, before, []⟩ (header :: blocks) =
      untgzLoop ⟨true, size, [⟨headerName header, size, []⟩]⟩ blocks := by
  rw [untgzLoop, untgzTurn, if_neg (not_not.mpr isHeader.isWhole), if_pos (by simp),
    if_neg isHeader.named, if_neg (not_not.mpr isHeader.accepted), isHeader.sized]
  rfl

/-- `cli_tgzload` behind a header. -/
theorem IsHeader.tgzloadLoop_eq
    (isHeader : IsHeader header size)
    (loads : List UInt8 → Bool)
    (blocks : List Block)
    (before : Nat) :
    (tgzloadLoop loads 0 before (header :: blocks)).1 =
      ⟨headerName header, size, blocks.flatten.take size⟩ ::
        (tgzloadLoop loads (skippedBlocks (loads (headerName header)) size) size blocks).1 := by
  rw [tgzloadLoop, if_neg (not_not.mpr isHeader.isWhole), if_neg isHeader.named,
    if_neg (not_not.mpr isHeader.accepted), isHeader.sized]

/-- Neither reader sees anything where no member begins. -/
theorem Ended.untgzLoop_eq
    {blocks : List Block}
    (ended : Ended blocks)
    (size : Nat) :
    (untgzLoop ⟨false, size, []⟩ blocks).1 = [] := by
  cases blocks with
  | nil => rfl
  | cons block blocks =>
    rw [untgzLoop, untgzTurn]
    by_cases isShort : block.length ≠ tarBlocksize
    · rw [if_pos isShort]
    rw [if_neg isShort, if_pos (by simp)]
    by_cases isEnd : block.headD 0 = 0
    · rw [if_pos isEnd]
    have rejected := (ended.resolve_left isShort).resolve_left isEnd
    rw [if_neg isEnd, if_pos (by simp [rejected])]

/-- Nothing is loaded behind the end. -/
theorem Ended.tgzloadLoop_eq
    {blocks : List Block}
    (ended : Ended blocks)
    (loads : List UInt8 → Bool)
    (size : Nat) :
    (tgzloadLoop loads 0 size blocks).1 = [] := by
  cases blocks with
  | nil => rfl
  | cons block blocks =>
    rw [tgzloadLoop]
    by_cases isShort : block.length ≠ tarBlocksize
    · rw [if_pos isShort]
    rw [if_neg isShort]
    by_cases isEnd : block.headD 0 = 0
    · rw [if_pos isEnd]
    have rejected := (ended.resolve_left isShort).resolve_left isEnd
    rw [if_neg isEnd, if_pos (by simp [rejected])]

/-- A file whose stream ends before its size is reached has all that is left. -/
theorem untgzLoop_cut
    {file : Seen}
    (few : blocks.length < dataBlocks size)
    (whole : ∀ block ∈ blocks, block.length = tarBlocksize) :
    (untgzLoop ⟨true, size, files ++ [file]⟩ blocks).1 =
      files ++ [{ file with content := file.content ++ blocks.flatten }] := by
  induction blocks generalizing size file with
  | nil => simp [untgzLoop]
  | cons block blocks inductionHypothesis =>
    have isWhole : block.length = 512 := whole block mem_cons_self
    rw [dataBlocks, length_cons, tarBlocksize] at few
    have goesOn : decide (size - 512 ≠ 0) = true := decide_eq_true (by omega)
    have further := @inductionHypothesis (size - 512)
      { file with content := file.content ++ block } (by rw [dataBlocks, tarBlocksize]; omega)
      fun other isOther => whole other (mem_cons_of_mem _ isOther)
    rw [untgzLoop_data isWhole, tarBlocksize, Nat.min_eq_right (by omega), goesOn,
      take_of_length_le (by omega), further, flatten_cons, append_assoc]

theorem length_flatten_of_whole
    {data : List Block}
    (whole : ∀ block ∈ data, block.length = tarBlocksize) :
    data.flatten.length = data.length * tarBlocksize := by
  rw [length_flatten, map_congr_left whole, map_const', sum_replicate_nat]

/-- The data of a member goes to its file, and the loop goes on behind it. -/
theorem IsHeader.untgzLoop_member
    (isHeader : IsHeader header size)
    (notEmpty : size ≠ 0)
    {blocks : List Block}
    (whole : ∀ block ∈ blocks.take (dataBlocks size), block.length = tarBlocksize)
    (before : Nat) :
    (untgzLoop ⟨false, before, []⟩ (header :: blocks)).1 =
      ⟨headerName header, size, blocks.flatten.take size⟩ ::
        (untgzLoop ⟨false, 0, []⟩ (blocks.drop (dataBlocks size))).1 := by
  rw [isHeader.untgzLoop_eq, ← nil_append [(⟨headerName header, size, []⟩ : Seen)]]
  by_cases few : blocks.length < dataBlocks size
  · have allTaken : blocks.take (dataBlocks size) = blocks := take_of_length_le (Nat.le_of_lt few)
    rw [allTaken] at whole
    have short : blocks.flatten.length ≤ size := by
      rw [length_flatten_of_whole whole]
      rw [dataBlocks, tarBlocksize] at few
      rw [tarBlocksize]
      omega
    rw [untgzLoop_cut blocks few whole, drop_of_length_le (Nat.le_of_lt few),
      take_of_length_le short]
    rfl
  · have isLength : (blocks.take (dataBlocks size)).length = (size + 511) / tarBlocksize :=
      length_take_of_le (Nat.not_lt.mp few)
    have isLe := size_le whole isLength
    have content : blocks.flatten.take size =
        (blocks.take (dataBlocks size)).flatten.take size := by
      conv_lhs => rw [← take_append_drop (dataBlocks size) blocks]
      rw [flatten_append, take_append_of_le_length isLe]
    conv_lhs => rw [← take_append_drop (dataBlocks size) blocks]
    rw [untgzLoop_file _ (Nat.pos_of_ne_zero notEmpty) isLength whole, content]
    exact untgzLoop_closed _ 0 _

/-- The size of a member that is loaded, or that is not too large, is moved over as a whole. -/
theorem skippedBlocks_eq
    (isLoaded : Bool)
    (movesOver : size ≤ 2 ^ 32 - 512 ∨ isLoaded = true ∧ size ≠ 0) :
    skippedBlocks isLoaded size = dataBlocks size := by
  rw [dataBlocks, skippedBlocks, paddedSize, tarBlocksize]
  rcases movesOver with small | loaded
  · split <;> split <;> omega
  · rw [if_pos loaded]
    split <;> omega

theorem tgzloadLoop_drop
    (loads : List UInt8 → Bool)
    (skip size : Nat)
    (blocks : List Block) :
    tgzloadLoop loads skip size blocks = tgzloadLoop loads 0 size (blocks.drop skip) := by
  induction skip generalizing blocks with
  | zero => rfl
  | succ skip inductionHypothesis =>
    cases blocks with
    | nil =>
      rw [drop_nil]
      rfl
    | cons block blocks =>
      rw [tgzloadLoop, drop_succ_cons]
      exact inductionHypothesis blocks

/-- On a steady stream the readers see the same members. -/
theorem Steady.agree
    {loads : List UInt8 → Bool}
    {blocks : List Block}
    (steady : Steady loads blocks)
    (before before' : Nat) :
    (untgzLoop ⟨false, before, []⟩ blocks).1 = (tgzloadLoop loads 0 before' blocks).1 := by
  induction steady generalizing before before' with
  | ended ended => rw [ended.untgzLoop_eq, ended.tgzloadLoop_eq]
  | @member header blocks size isHeader notEmpty movesOver whole _ inductionHypothesis =>
    rw [isHeader.untgzLoop_member notEmpty whole, isHeader.tgzloadLoop_eq,
      skippedBlocks_eq _ (movesOver.imp_right fun loaded => ⟨loaded, notEmpty⟩), tgzloadLoop_drop,
      inductionHypothesis 0 size]
  | @lastEmpty header blocks isHeader ended endedBehind =>
    rw [isHeader.tgzloadLoop_eq, skippedBlocks_eq _ (.inl (Nat.zero_le _)),
      show dataBlocks 0 = 0 from rfl, ended.tgzloadLoop_eq, isHeader.untgzLoop_eq, take_zero]
    cases blocks with
    | nil => rfl
    | cons block blocks =>
      by_cases isShort : block.length ≠ tarBlocksize
      · rw [untgzLoop, untgzTurn, if_pos isShort]
      rw [← nil_append [(⟨headerName header, 0, []⟩ : Seen)], untgzLoop_data (not_not.mp isShort)]
      have behind : (untgzLoop ⟨false, 0, []⟩ blocks).1 = [] := endedBehind.untgzLoop_eq 0
      have closed := untgzLoop_closed ⟨headerName header, 0, []⟩ 0 blocks
      rw [behind] at closed
      exact closed

theorem ended_zeros (zeros : Nat) : Ended (replicate zeros zeroBlock) := by
  cases zeros with
  | zero => trivial
  | succ zeros => exact .inr (.inl headD_zeroBlock)

theorem Member.isHeaderOf
    (member : Member)
    (fits : member.size ≤ 2 ^ 32 - 512) :
    IsHeader member.header member.size := by
  refine ⟨member.isHeader, member.named, member.accepted, ?_⟩
  rw [member.sized, Nat.mod_eq_of_lt (by omega)]

/-- Members whose padded sizes are 32-bit numbers, none but the last empty, are a steady stream. -/
theorem steady_of_members
    (loads : List UInt8 → Bool)
    (zeros : Nat)
    (members : List Member)
    (fit : ∀ member ∈ members, member.size ≤ 2 ^ 32 - 512)
    (notEmpty : ∀ member ∈ members.dropLast, member.size ≠ 0) :
    Steady loads (stream members zeros) := by
  induction members with
  | nil => exact .ended (ended_zeros zeros)
  | cons member members inductionHypothesis =>
    have fits := fit member mem_cons_self
    have isHeader := member.isHeaderOf fits
    have isData : member.data.length = dataBlocks member.size := member.enough
    rw [stream_cons]
    by_cases isEmpty : member.size = 0
    · have isLast : members = [] := by
        cases members with
        | nil => rfl
        | cons next members => exact absurd isEmpty (notEmpty member mem_cons_self)
      have noData : member.data = [] := by
        apply eq_nil_of_length_eq_zero
        rw [isData, isEmpty]
        rfl
      rw [isEmpty] at isHeader
      rw [noData, isLast, nil_append]
      refine .lastEmpty isHeader (ended_zeros zeros) ?_
      rw [show stream [] zeros = replicate zeros zeroBlock from rfl, drop_replicate]
      exact ended_zeros _
    · have others : ∀ other ∈ members.dropLast, other.size ≠ 0 := by
        intro other isOther
        cases members with
        | nil => exact nomatch isOther
        | cons next members => exact notEmpty other (mem_cons_of_mem _ isOther)
      refine .member isHeader isEmpty (.inl fits) ?_ ?_
      · rw [← isData, take_left]
        exact member.whole
      · rw [← isData, drop_left]
        exact inductionHypothesis (fun other isOther => fit other (mem_cons_of_mem _ isOther))
          others

/-- `cli_tgzload` sees all members whose padded sizes are 32-bit numbers. -/
theorem tgzload_seen
    (loads : List UInt8 → Bool)
    (zeros : Nat)
    (members : List Member)
    (size : Nat)
    (fit : ∀ member ∈ members, member.size ≤ 2 ^ 32 - 512) :
    (tgzloadLoop loads 0 size (stream members zeros)).1 = members.map Member.seen := by
  induction members generalizing size with
  | nil => exact (ended_zeros zeros).tgzloadLoop_eq loads size
  | cons member members inductionHypothesis =>
    have fits := fit member mem_cons_self
    have isData : member.data.length = dataBlocks member.size := member.enough
    have isContent : (member.data ++ stream members zeros).flatten.take member.size =
        member.content := by
      rw [flatten_append, take_append_of_le_length (size_le member.whole member.enough)]
      rfl
    have others := inductionHypothesis member.size
      fun other isOther => fit other (mem_cons_of_mem _ isOther)
    rw [stream_cons, (member.isHeaderOf fits).tgzloadLoop_eq, skippedBlocks_eq _ (.inl fits),
      tgzloadLoop_drop, ← isData, drop_left, isContent, others]
    rfl

/-- `cli_untgz` sees a member, and takes one block more than it has if it is empty. -/
theorem untgzLoop_member
    (member : Member)
    (blocks : List Block)
    (size : Nat)
    (fits : member.size ≤ 2 ^ 32 - 512)
    (whole : ∀ block ∈ blocks, block.length = tarBlocksize) :
    (untgzLoop ⟨false, size, []⟩ (member.header :: (member.data ++ blocks))).1 =
      member.seen :: (untgzLoop ⟨false, 0, []⟩
        (if member.size = 0 then blocks.drop 1 else blocks)).1 := by
  have isHeader := member.isHeaderOf fits
  have isData : member.data.length = dataBlocks member.size := member.enough
  by_cases isEmpty : member.size = 0
  · have noData : member.data = [] := by
      apply eq_nil_of_length_eq_zero
      rw [isData, isEmpty]
      rfl
    have isSeen : member.seen = ⟨headerName member.header, 0, []⟩ := by
      rw [Member.seen, Member.content, isEmpty, take_zero]
    rw [isHeader.untgzLoop_eq, if_pos isEmpty, noData, isEmpty, isSeen, nil_append]
    cases blocks with
    | nil => rfl
    | cons block blocks =>
      rw [← nil_append [(⟨headerName member.header, 0, []⟩ : Seen)],
        untgzLoop_data (whole block mem_cons_self)]
      exact untgzLoop_closed _ 0 blocks
  · have isWhole : ∀ block ∈ (member.data ++ blocks).take (dataBlocks member.size),
        block.length = tarBlocksize := by
      rw [← isData, take_left]
      exact member.whole
    rw [if_neg isEmpty, isHeader.untgzLoop_member isEmpty isWhole, ← isData, drop_left,
      flatten_append, take_append_of_le_length (size_le member.whole member.enough)]
    rfl

/-- The first byte of a block, and 0 behind the end. -/
def headAt (blocks : List Block) (i : Nat) : UInt8 := (blocks.getD i []).headD 0

/-- How many blocks do not begin with a zero -/
def nonzeros (blocks : List Block) : Nat :=
  (range blocks.length).countP fun i => headAt blocks i ≠ 0

theorem nonzeros_cons
    (block : Block)
    (blocks : List Block) :
    nonzeros (block :: blocks) = nonzeros blocks + if block.headD 0 ≠ 0 then 1 else 0 := by
  rw [nonzeros, length_cons, range_succ_eq_map, countP_cons, countP_map]
  simp only [decide_eq_true_eq]
  rfl

theorem nonzeros_append : nonzeros (first ++ second) = nonzeros first + nonzeros second := by
  induction first with
  | nil => exact (Nat.zero_add _).symm
  | cons block first ih => rw [cons_append, nonzeros_cons, nonzeros_cons, ih, Nat.add_right_comm]

theorem nonzeros_stream
    (zeros : Nat) :
    nonzeros (stream members zeros) = nonzeros (members.flatMap Member.blocks) := by
  have noneZero : nonzeros (replicate zeros zeroBlock) = 0 := by
    induction zeros with
    | zero => rfl
    | succ zeros ih => rw [replicate_succ, nonzeros_cons, ih, headD_zeroBlock, if_neg (by simp)]
  rw [stream, nonzeros_append, noneZero, Nat.add_zero]

theorem headD_take
    {bytes : List UInt8}
    {count : Nat}
    (isPositive : 0 < count) :
    (bytes.take count).headD 0 = bytes.headD 0 := by
  rw [headD_eq_head?_getD, headD_eq_head?_getD, head?_take,
    if_neg (Nat.ne_of_gt isPositive)]

/-- A file in progress only grows. -/
theorem untgzLoop_grows
    {size : Nat}
    {file seen : Seen}
    {others : List Seen}
    (whole : ∀ block ∈ blocks, block.length = tarBlocksize)
    (isSeen : (untgzLoop ⟨true, size, [file]⟩ blocks).1 = seen :: others) :
    seen.size = file.size ∧ ∃ content, seen.content = file.content ++ content := by
  induction blocks generalizing size file seen others with
  | nil =>
    cases isSeen
    exact ⟨rfl, [], (append_nil _).symm⟩
  | cons block blocks ih =>
    rw [← nil_append [file], untgzLoop_data (whole block mem_cons_self), nil_append] at isSeen
    by_cases isLast : size - min size tarBlocksize = 0
    · rw [decide_eq_false (not_not.mpr isLast), untgzLoop_closed] at isSeen
      rw [← (cons.inj isSeen).1]
      exact ⟨rfl, _, rfl⟩
    rw [decide_eq_true isLast] at isSeen
    obtain ⟨isSize, content, isContent⟩ := ih
      (fun other isOther => whole other (mem_cons_of_mem block isOther)) isSeen
    rw [append_assoc] at isContent
    exact ⟨isSize, _, isContent⟩

/--
A file that is seen with the content of some blocks: as many blocks that do not begin
with a zero are behind its header, and the loop goes on behind them.
-/
theorem untgzLoop_content
    {size : Nat}
    {file seen : Seen}
    {others : List Seen}
    {data : List Block}
    (whole : ∀ block ∈ blocks, block.length = tarBlocksize)
    (wholeData : ∀ block ∈ data, block.length = tarBlocksize)
    (enough : data.length = (size + 511) / tarBlocksize)
    (isSeen : (untgzLoop ⟨true, size, [file]⟩ blocks).1 = seen :: others)
    (isContent : seen.content = file.content ++ data.flatten.take size) :
    ∃ rest, (∀ block ∈ rest, block.length = tarBlocksize) ∧
      nonzeros data + nonzeros rest ≤ nonzeros blocks ∧
      others = (untgzLoop ⟨false, 0, []⟩ rest).1 := by
  have isLe := size_le wholeData enough
  induction blocks generalizing size file seen others data with
  | nil =>
    cases isSeen
    have isTaken := congrArg length isContent
    rw [length_append, length_take, Nat.min_eq_left isLe] at isTaken
    have isEmpty : data = [] := eq_nil_of_length_eq_zero (by rw [enough, tarBlocksize]; omega)
    exact ⟨[], nofun, by rw [isEmpty]; exact Nat.le_refl _, rfl⟩
  | cons block blocks ih =>
    have isWhole : block.length = 512 := whole block mem_cons_self
    have wholeRest := fun other isOther => whole other (mem_cons_of_mem block isOther)
    rw [← nil_append [file], untgzLoop_data isWhole] at isSeen
    rw [tarBlocksize] at enough
    by_cases isLast : size ≤ 512
    · rw [tarBlocksize, Nat.min_eq_left isLast, Nat.sub_self, decide_eq_false (by simp),
        nil_append, untgzLoop_closed] at isSeen
      obtain ⟨isFile, isOthers⟩ := cons.inj isSeen
      rw [← isFile] at isContent
      refine ⟨blocks, wholeRest, ?_, isOthers.symm⟩
      rw [nonzeros_cons, Nat.add_comm]
      refine Nat.add_le_add_left ?_ _
      rcases data with _ | ⟨first, _ | ⟨second, data⟩⟩
      · exact Nat.zero_le _
      · have isHead := congrArg (headD · 0) (append_cancel_left isContent)
        have isPositive : 0 < size := by
          rw [length_singleton] at enough
          omega
        rw [flatten_singleton, headD_take isPositive, headD_take isPositive] at isHead
        rw [nonzeros_cons, isHead]
        exact Nat.le_of_eq (Nat.zero_add _)
      · rw [length_cons, length_cons] at enough
        omega
    · rw [tarBlocksize, Nat.min_eq_right (by omega), decide_eq_true (by omega),
        take_of_length_le (by omega : block.length ≤ 512), nil_append] at isSeen
      obtain ⟨-, later, isLater⟩ := untgzLoop_grows blocks wholeRest isSeen
      cases data with
      | nil =>
        rw [length_nil] at enough
        omega
      | cons first data =>
        have isFirst : first.length = 512 := wholeData first mem_cons_self
        have wholeOthers := fun other isOther => wholeData other (mem_cons_of_mem first isOther)
        have enoughOthers : data.length = (size - 512 + 511) / tarBlocksize := by
          rw [length_cons] at enough
          rw [tarBlocksize]
          omega
        rw [flatten_cons, take_append, isFirst, take_of_length_le (by omega : first.length ≤ size),
          isLater, append_assoc] at isContent
        obtain ⟨rfl, isData⟩ := append_inj (append_cancel_left isContent) (by rw [isWhole, isFirst])
        rw [isData] at isLater
        obtain ⟨rest, wholeLater, few, isOthers⟩ := ih wholeRest wholeOthers enoughOthers isSeen
          isLater (size_le wholeOthers enoughOthers)
        refine ⟨rest, wholeLater, ?_, isOthers⟩
        rw [nonzeros_cons, nonzeros_cons]
        omega

/-- The first file that is seen starts with a header. -/
theorem first_seen
    {blocks : List Block}
    (whole : ∀ block ∈ blocks, block.length = tarBlocksize)
    (isSeen : (untgzLoop ⟨false, size, []⟩ blocks).1 = member.seen :: others) :
    ∃ rest, (∀ block ∈ rest, block.length = tarBlocksize) ∧
      nonzeros member.blocks + nonzeros rest ≤ nonzeros blocks ∧
      others = (untgzLoop ⟨false, 0, []⟩ rest).1 := by
  cases blocks with
  | nil => cases isSeen
  | cons block blocks =>
    have wholeRest := fun other isOther => whole other (mem_cons_of_mem block isOther)
    rw [untgzLoop, untgzTurn, if_neg (not_not.mpr (whole block mem_cons_self)),
      if_pos (by simp)] at isSeen
    by_cases isEnd : block.headD 0 = 0
    · rw [if_pos isEnd] at isSeen
      cases isSeen
    rw [if_neg isEnd] at isSeen
    by_cases isRejected : ¬ acceptsHeader block = true
    · rw [if_pos isRejected] at isSeen
      cases isSeen
    rw [if_neg isRejected] at isSeen
    rw [nonzeros_cons, if_pos isEnd, Member.blocks, nonzeros_cons, if_pos member.named]
    cases isScanned : headerSize block with
    | mismatch =>
      rw [isScanned] at isSeen
      obtain ⟨isFile, isOthers⟩ := cons.inj isSeen
      have isEmpty : 0 = member.size := congrArg Seen.size isFile
      have noData : member.data = [] := by
        apply eq_nil_of_length_eq_zero
        rw [member.enough, ← isEmpty, tarBlocksize]
      refine ⟨[], nofun, ?_, isOthers.symm⟩
      rw [noData]
      exact Nat.le_add_left _ _
    | ended | converted size =>
      rw [isScanned] at isSeen
      obtain ⟨isSize, -⟩ := untgzLoop_grows blocks wholeRest isSeen
      have isMemberSize : member.size = size := isSize
      obtain ⟨rest, wholeLater, few, isOthers⟩ := untgzLoop_content blocks wholeRest member.whole
        (isMemberSize ▸ member.enough) isSeen (by rw [← isMemberSize]; rfl)
      exact ⟨rest, wholeLater, by omega, isOthers⟩

/-- The files that are seen use up their blocks. -/
theorem nonzeros_of_seen : ∀ {blocks : List Block} {size : Nat},
    (∀ block ∈ blocks, block.length = tarBlocksize) →
      (untgzLoop ⟨false, size, []⟩ blocks).1 = members.map Member.seen →
        nonzeros (members.flatMap Member.blocks) ≤ nonzeros blocks := by
  induction members with
  | nil => exact fun _ _ => Nat.zero_le _
  | cons member members ih =>
    intro blocks size whole isSeen
    obtain ⟨rest, wholeRest, few, isOthers⟩ := first_seen whole isSeen
    have further := ih wholeRest isOthers.symm
    rw [flatMap_cons, nonzeros_append]
    omega

/--
A stream that lacks its first block does not show its members: it has one block less
that does not begin with a zero.
-/
theorem shifted_not_seen
    (member : Member)
    (members : List Member)
    (zeros size : Nat) :
    (untgzLoop ⟨false, size, []⟩ ((stream (member :: members) zeros).drop 1)).1 ≠
      (member :: members).map Member.seen := by
  intro isSeen
  have few := nonzeros_of_seen (member :: members)
    (fun block isBlock => stream_whole _ zeros block (mem_of_mem_drop isBlock)) isSeen
  rw [← nonzeros_stream _ zeros, stream_cons, drop_succ_cons, drop_zero, nonzeros_cons,
    if_pos member.named] at few
  omega

/-- All members are seen only if none but the last is empty. -/
theorem untgz_misses
    (zeros : Nat)
    (members : List Member) :
    ∀ (size : Nat), (∀ member ∈ members, member.size ≤ 2 ^ 32 - 512) →
      (untgzLoop ⟨false, size, []⟩ (stream members zeros)).1 = members.map Member.seen →
        ∀ member ∈ members.dropLast, member.size ≠ 0 := by
  induction members with
  | nil =>
    intro size _ _ member never
    cases never
  | cons first members ih =>
    intro size fit isSeen
    rw [stream_cons, untgzLoop_member first _ size (fit first mem_cons_self)
      (stream_whole members zeros), map_cons] at isSeen
    have isRest := (cons.inj isSeen).2
    cases members with
    | nil =>
      intro member never
      cases never
    | cons second members =>
      have notEmpty : first.size ≠ 0 := by
        intro isEmpty
        rw [if_pos isEmpty] at isRest
        exact shifted_not_seen second members zeros 0 isRest
      rw [if_neg notEmpty] at isRest
      intro member isMember
      rw [dropLast_cons_cons] at isMember
      rcases mem_cons.mp isMember with rfl | isOther
      · exact notEmpty
      · exact ih 0 (fun other isOther => fit other (mem_cons_of_mem _ isOther)) isRest
          member isOther

/-- The header of a plain file with a name of one letter and a size of one digit. -/
def letterHeader (letter digit : UInt8) : Block :=
  letter :: (replicate 123 0 ++ digit :: (replicate 31 0 ++ 0x30 :: replicate 355 0))

/-- The empty member `a`. -/
def emptyMember : Member where
  header := letterHeader 0x61 0x30
  data := []
  size := 0
  isHeader := by decide +kernel
  named := by decide +kernel
  accepted := by decide +kernel
  sized := by decide +kernel
  whole := by simp
  enough := by decide

/-- The member `b` with one byte. -/
def byteMember : Member where
  header := letterHeader 0x62 0x31
  data := [0x78 :: replicate 511 0]
  size := 1
  isHeader := by decide +kernel
  named := by decide +kernel
  accepted := by decide +kernel
  sized := by decide +kernel
  whole := by decide +kernel
  enough := by decide

end LibClamav.Tar
