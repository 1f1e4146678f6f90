import LibClamav.Offset

namespace LibClamav.Cdiff

open List

/-!
# The files that a cdiff script touches

`OPEN` and `UNLINK` look at the characters of the name of a database, and `MOVE` does
not.  What the files hold, and whether an operation on them succeeds, is any outcome.
-/

/-- The rest of a line from a token on -/
def tokenAt : (token : Nat) → (line : List Char) → List Char
  | 0, line => line
  | token + 1, line => tokenAt token ((line.dropWhile (· ≠ ' ')).drop 1)

/-- `cdiff_token` -/
def cdiffToken
    (line : List Char)
    (token : Nat)
    (last : Bool) :
    Option (List Char) :=
  if tokenAt token line = [] then
    none
  else if last then
    some (tokenAt token line)
  else
    let buffer := (tokenAt token line).takeWhile (· ≠ ' ')
    if buffer = [] then none else some buffer

/-- `cdiff_node` without the link; `str2` is empty for `DEL`. -/
structure Node where
  lineno : Nat
  str : List Char
  str2 : List Char := []
  deriving Repr, DecidableEq

/-- `cdiff_ctx` -/
structure Ctx where
  openDb : Option (List Char) := none
  add : List (List Char) := []
  del : List Node := []
  xchg : List Node := []
  deriving Repr, DecidableEq

/-- The loop over the list: behind the first node where the number fits, or at the end -/
def insertBehind (new : Node) : List Node → List Node
  | [] => [new]
  | pt :: next =>
    if pt.lineno < new.lineno ∧ next.head?.all (new.lineno < ·.lineno) then
      pt :: new :: next
    else
      pt :: insertBehind new next

/-- The new node of `DEL` and `XCHG` -/
def insertNode (new : Node) : List Node → List Node
  | [] => [new]
  | start :: next =>
    if new.lineno < start.lineno then new :: start :: next else insertBehind new (start :: next)

/-- The test of `OPEN` and `UNLINK` -/
def allowedName (db : List Char) : Bool :=
  db.all fun c => !((c != '.' && !c.isAlphanum) || c = '/' || c = '\\')

/-- The outcomes of the operations of one command: `copied` stands for the temporary file
and for the loop that compares and copies the lines. -/
structure Io where
  opened : Bool
  copied : Bool
  appended : Bool
  unlinked : Bool
  renamed : Bool
  deriving Repr, DecidableEq

/-- Operations on files, up to the first that fails -/
def attempts : List (List Char × Bool) → List (List Char) × Bool
  | [] => ([], true)
  | (name, succeeds) :: later =>
    if succeeds then
      (name :: (attempts later).1, (attempts later).2)
    else
      ([name], false)

/-- The files a command touches, and the context if it succeeds -/
abbrev Effect := List (List Char) × Option Ctx

/-- `cdiff_cmd_open` -/
def cdiffCmdOpen (cmdstr : List Char) (ctx : Ctx) : Effect :=
  match cdiffToken cmdstr 1 true with
  | none => ([], none)
  | some db =>
    if ctx.openDb.isSome then
      ([], none)
    else if allowedName db then
      ([], some { ctx with openDb := some db })
    else
      ([], none)

/-- `cdiff_cmd_add` -/
def cdiffCmdAdd (cmdstr : List Char) (ctx : Ctx) : Effect :=
  ([], (cdiffToken cmdstr 1 true).map fun sig => { ctx with add := ctx.add ++ [sig] })

/-- `cdiff_cmd_del` -/
def cdiffCmdDel (cmdstr : List Char) (ctx : Ctx) : Effect :=
  ([], (cdiffToken cmdstr 1 false).bind fun lineno => (cdiffToken cmdstr 2 true).map fun str =>
    { ctx with del := insertNode { lineno := atoi lineno, str } ctx.del })

/-- `cdiff_cmd_xchg` -/
def cdiffCmdXchg (cmdstr : List Char) (ctx : Ctx) : Effect :=
  ([], (cdiffToken cmdstr 1 false).bind fun lineno => (cdiffToken cmdstr 2 false).bind fun str =>
    (cdiffToken cmdstr 3 true).map fun str2 =>
      { ctx with xchg := insertNode { lineno := atoi lineno, str, str2 } ctx.xchg })

/-- `cdiff_cmd_close` -/
def cdiffCmdClose (ctx : Ctx) (io : Io) : Effect :=
  match ctx.openDb with
  | none => ([], none)
  | some db =>
    let replaced :=
      if ctx.del ≠ [] ∨ ctx.xchg ≠ [] then
        [(db, io.opened && io.copied), (db, io.unlinked), (db, io.renamed)]
      else
        []
    let added := if ctx.add ≠ [] then [(db, io.appended)] else []
    let tried := attempts (replaced ++ added)
    (tried.1, if tried.2 then some {} else none)

/-- `cdiff_cmd_move` -/
def cdiffCmdMove (cmdstr : List Char) (ctx : Ctx) (io : Io) : Effect :=
  if ctx.openDb.isSome then
    ([], none)
  else
    match cdiffToken cmdstr 3 false, cdiffToken cmdstr 5 false, cdiffToken cmdstr 4 false,
      cdiffToken cmdstr 6 false, cdiffToken cmdstr 1 false with
    | some startLine, some endLine, some _, some _, some srcdb =>
      if atoi endLine < atoi startLine then
        ([], none)
      else
        match cdiffToken cmdstr 2 false with
        | none => ([srcdb], none)
        | some dstdb =>
          let tried := attempts [(srcdb, io.opened), (dstdb, io.appended && io.copied),
            (srcdb, io.unlinked), (srcdb, io.renamed)]
          (tried.1, if tried.2 then some ctx else none)
    | _, _, _, _, _ => ([], none)

/-- `cdiff_cmd_unlink` -/
def cdiffCmdUnlink (cmdstr : List Char) (ctx : Ctx) (io : Io) : Effect :=
  if ctx.openDb.isSome then
    ([], none)
  else
    match cdiffToken cmdstr 1 true with
    | none => ([], none)
    | some db =>
      if allowedName db then
        let tried := attempts [(db, io.unlinked)]
        (tried.1, if tried.2 then some ctx else none)
      else
        ([], none)

/-- `commands`: the number of arguments and the handler for a name -/
def command
    (cmdstr : List Char)
    (ctx : Ctx)
    (io : Io) :
    (name : String) → Option (Nat × Effect)
  | "OPEN" => some (1, cdiffCmdOpen cmdstr ctx)
  | "ADD" => some (1, cdiffCmdAdd cmdstr ctx)
  | "DEL" => some (2, cdiffCmdDel cmdstr ctx)
  | "XCHG" => some (3, cdiffCmdXchg cmdstr ctx)
  | "CLOSE" => some (0, cdiffCmdClose ctx io)
  | "MOVE" => some (6, cdiffCmdMove cmdstr ctx io)
  | "UNLINK" => some (1, cdiffCmdUnlink cmdstr ctx io)
  | _ => none

/-- `cdiff_execute` -/
def cdiffExecute (cmdstr : List Char) (ctx : Ctx) (io : Io) : Effect :=
  match (cdiffToken cmdstr 0 false).bind fun name => command cmdstr ctx io (String.ofList name) with
  | none => ([], none)
  | some (argc, effect) => if (cdiffToken cmdstr argc true).isSome then effect else ([], none)

/-- The loop of `cdiff_apply` over the lines of a script, without their ends; the files
that its commands touch -/
def cdiffApply (ctx : Ctx) : List (List Char × Io) → List (List Char)
  | [] => []
  | (line, io) :: script =>
    if line = [] ∨ line.head? = some '#' then
      cdiffApply ctx script
    else
      (cdiffExecute line ctx io).1 ++
        ((cdiffExecute line ctx io).2.map (cdiffApply · script)).getD []

section

/-- A name of a file in the working directory -/
def IsPlain (name : List Char) : Prop := '/' ∉ name ∧ '\\' ∉ name

instance : DecidablePred IsPlain := fun _ => inferInstanceAs (Decidable (_ ∧ _))

/-- An open database has a plain name. -/
def Ctx.IsPlain (ctx : Ctx) : Prop := ∀ db, ctx.openDb = some db → Cdiff.IsPlain db

/-- Plain names are touched, and a plain context is left. -/
structure IsSafe (effect : Effect) : Prop where
  names : ∀ name ∈ effect.1, IsPlain name
  context : ∀ ctx, effect.2 = some ctx → ctx.IsPlain

/-- If the line is a `MOVE`, its databases have plain names. -/
def MovesPlain (line : List Char) : Prop := cdiffToken line 0 false = some "MOVE".toList →
    ∀ token ∈ [1, 2], ∀ name ∈ cdiffToken line token false, IsPlain name

variable {ctx : Ctx} {io : Io} {cmdstr line db : List Char} {steps : List (List Char × Bool)}

/-- An allowed name has no separator. -/
theorem isPlain_of_allowedName (allowed : allowedName db = true) : IsPlain db := by
  rw [allowedName, all_eq_true] at allowed
  constructor
  · intro inside
    exact absurd (allowed '/' inside) (by decide)
  · intro inside
    exact absurd (allowed '\\' inside) (by decide)

theorem attempts_isPlain
    (plain : ∀ step ∈ steps, IsPlain step.1) :
    ∀ name ∈ (attempts steps).1, IsPlain name := by
  induction steps with
  | nil => exact fun name inside => (not_mem_nil inside).elim
  | cons step later ih =>
    obtain ⟨isFirst, areLater⟩ := forall_mem_cons.1 plain
    rw [attempts]
    split
    · exact forall_mem_cons.2 ⟨isFirst, ih areLater⟩
    · exact forall_mem_singleton.2 isFirst

theorem IsSafe.of_sameDb
    (plain : ctx.IsPlain)
    {result : Option Ctx}
    (same : ∀ later, result = some later → later.openDb = ctx.openDb) :
    IsSafe ([], result) :=
  ⟨fun _ inside => (not_mem_nil inside).elim,
    fun later isLater db isOpen => plain db (same later isLater ▸ isOpen)⟩

theorem IsSafe.of_none
    {names : List (List Char)}
    (plain : ∀ name ∈ names, IsPlain name) :
    IsSafe (names, none) :=
  ⟨plain, fun _ isSome => (Option.some_ne_none _ isSome.symm).elim⟩

theorem IsSafe.failed : IsSafe ([], none) := .of_none fun _ inside => (not_mem_nil inside).elim

/-- Files with plain names are safe to open. -/
theorem IsSafe.of_attempts
    (plain : ∀ step ∈ steps, Cdiff.IsPlain step.1)
    (isPlain : ctx.IsPlain) :
    IsSafe ((attempts steps).1, if (attempts steps).2 then some ctx else none) := by
  refine ⟨attempts_isPlain plain, fun later isLater => ?_⟩
  split_ifs at isLater
  exact Option.some.inj isLater ▸ isPlain

/-- `OPEN` checks its name. -/
theorem cdiffCmdOpen_isSafe : IsSafe (cdiffCmdOpen cmdstr ctx) := by
  unfold cdiffCmdOpen
  split
  · exact .failed
  split_ifs with isOpen allowed
  · exact .failed
  · refine ⟨fun _ inside => (not_mem_nil inside).elim, fun later isLater db isOpen => ?_⟩
    cases isLater
    exact Option.some.inj isOpen ▸ isPlain_of_allowedName allowed
  · exact .failed

/-- `CLOSE` uses the open one. -/
theorem cdiffCmdClose_isSafe (plain : ctx.IsPlain) : IsSafe (cdiffCmdClose ctx io) := by
  unfold cdiffCmdClose
  split
  · exact .failed
  rename_i db isOpen
  refine .of_attempts (fun step inside => ?_)
    fun db isNone => (Option.some_ne_none _ isNone.symm).elim
  have isDb : step.1 = db := by grind
  exact isDb ▸ plain db isOpen

/-- `MOVE` is safe with plain names. -/
theorem cdiffCmdMove_isSafe
    (plain : ctx.IsPlain)
    (moves : ∀ token ∈ [1, 2], ∀ name ∈ cdiffToken cmdstr token false, IsPlain name) :
    IsSafe (cdiffCmdMove cmdstr ctx io) := by
  unfold cdiffCmdMove
  split_ifs with isOpen
  · exact .failed
  split
  · rename_i srcdb _ _ _ _ isSrc
    have srcPlain := moves 1 (by decide) srcdb isSrc
    split_ifs with isBefore
    · exact .failed
    split
    · exact .of_none (forall_mem_singleton.2 srcPlain)
    · rename_i dstdb isDst
      refine .of_attempts ?_ plain
      simp [srcPlain, moves 2 (by decide) dstdb isDst]
  · exact .failed

theorem cdiffCmdUnlink_isSafe (plain : ctx.IsPlain) : IsSafe (cdiffCmdUnlink cmdstr ctx io) := by
  unfold cdiffCmdUnlink
  split
  · exact .failed
  split
  · exact .failed
  · split_ifs with allowed
    · exact .of_attempts (forall_mem_singleton.2 (isPlain_of_allowedName allowed)) plain
    · exact .failed

/-- So is every line. -/
theorem cdiffExecute_isSafe
    (plain : ctx.IsPlain)
    (moves : MovesPlain line) :
    IsSafe (cdiffExecute line ctx io) := by
  unfold cdiffExecute
  split
  · exact .failed
  rename_i argc effect isCommand
  split_ifs
  · obtain ⟨name, isName, isCommand⟩ := Option.bind_eq_some_iff.1 isCommand
    unfold command at isCommand
    split at isCommand
    · cases isCommand
      exact cdiffCmdOpen_isSafe
    · cases isCommand
      refine .of_sameDb plain fun later isLater => ?_
      obtain ⟨sig, -, rfl⟩ := Option.map_eq_some_iff.1 isLater
      rfl
    · cases isCommand
      refine .of_sameDb plain fun later isLater => ?_
      obtain ⟨lineno, -, isLater⟩ := Option.bind_eq_some_iff.1 isLater
      obtain ⟨str, -, rfl⟩ := Option.map_eq_some_iff.1 isLater
      rfl
    · cases isCommand
      refine .of_sameDb plain fun later isLater => ?_
      obtain ⟨lineno, -, isLater⟩ := Option.bind_eq_some_iff.1 isLater
      obtain ⟨str, -, isLater⟩ := Option.bind_eq_some_iff.1 isLater
      obtain ⟨str2, -, rfl⟩ := Option.map_eq_some_iff.1 isLater
      rfl
    · cases isCommand
      exact cdiffCmdClose_isSafe plain
    · rename_i isMove
      cases isCommand
      refine cdiffCmdMove_isSafe plain (moves ?_)
      rw [isName, ← isMove, String.toList_ofList]
    · cases isCommand
      exact cdiffCmdUnlink_isSafe plain
    · cases isCommand
  · exact .failed

/-- The files that a script touches are in the working directory if its `MOVE` commands
name such files: whatever the files hold and whichever operations fail. -/
theorem touched_isPlain
    {script : List (List Char × Io)}
    (moves : ∀ entry ∈ script, MovesPlain entry.1) :
    ∀ name ∈ cdiffApply {} script, IsPlain name := by
  have run : ∀ ctx : Ctx, ctx.IsPlain → ∀ name ∈ cdiffApply ctx script, IsPlain name := by
    induction script with
    | nil => exact fun _ _ name inside => (not_mem_nil inside).elim
    | cons entry script ih =>
      intro ctx plain
      obtain ⟨isFirst, areLater⟩ := forall_mem_cons.1 moves
      rw [cdiffApply]
      split
      · exact ih areLater ctx plain
      have safe := @cdiffExecute_isSafe ctx entry.2 entry.1 plain isFirst
      refine forall_mem_append.2 ⟨safe.names, ?_⟩
      cases isLater : (cdiffExecute entry.1 ctx entry.2).2 with
      | none => exact fun name inside => (not_mem_nil inside).elim
      | some later => exact ih areLater later (safe.context later isLater)
  exact run {} fun db isOpen => (Option.some_ne_none db isOpen.symm).elim

end

/-- A script that moves a line between two databases of the working directory -/
theorem moved_isPlain : MovesPlain "MOVE a.db b.db 1 x 1 x".toList ∧ ∀ name ∈ cdiffApply {}
    [("MOVE a.db b.db 1 x 1 x".toList, ⟨true, true, true, true, true⟩)], IsPlain name := by
  have plain : MovesPlain "MOVE a.db b.db 1 x 1 x".toList := fun _ => by decide
  exact ⟨plain, touched_isPlain (forall_mem_singleton.2 plain)⟩

/-- A script that moves a line into a file outside of it -/
theorem moved_outside : ∃ name ∈ cdiffApply {}
    [("MOVE a.db ../b.db 1 x 1 x".toList, ⟨true, true, true, true, true⟩)], ¬ IsPlain name :=
  ⟨"../b.db".toList, by decide, fun plain => absurd plain.1 (by decide)⟩

end LibClamav.Cdiff
