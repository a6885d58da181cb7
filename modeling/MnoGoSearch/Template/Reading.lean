import MnoGoSearch.Template.Program

/-!
# Templates as they read

What a template says: commands, conditions with their branches, and loops, one inside the other.
A condition executes the first branch whose test holds, `WHILE` executes its body as long as its
test holds, and `FOR` sets a variable, and then executes its body and increments the variable until
the variable exceeds its last value.
-/

namespace MnoGoSearch.Template

open Url Vars

/-! ### Instructions -/

/-- A command that does not compare. -/
structure Command where
  /-- The item that it is in a program. -/
  item : PrgItem
  exec : Exec
  /-- The item has this function. -/
  exec_eq : item.cmd.bind TmplCmd.exec = some exec
  exec_ne : exec ≠ .compare
  not_jump : item.cmdnum.isJump = false

/-- A test of a condition or a loop. -/
structure Test where
  item : PrgItem
  exec_eq : item.cmd.bind TmplCmd.exec = some .compare
  not_jump : item.cmdnum.isJump = false
  /-- The test holds if the comparison fails. -/
  negated : Bool

/-- The tokens of a template, by what they do. -/
inductive Instr
  | command (c : Command)
  | tmplIf (t : Test)
  | tmplElseif (t : Test)
  | tmplElse
  | tmplEndif
  | tmplWhile (t : Test)
  | tmplEndwhile
  | tmplFor (c : Command)
  | tmplEndfor

theorem exec_of_mem_tnames {cmd : TmplCmd} {e : Exec} (hmem : cmd ∈ tnames) (he : cmd.exec = some e) :
    e ≠ .compare ∧ cmd.cmdnum.isJump = false := by
  have hall : tnames.all fun cmd => (cmd.exec != some .compare) && !cmd.cmdnum.isJump := by decide
  have hcmd := List.all_eq_true.1 hall cmd hmem
  rw [he, Bool.and_eq_true, bne_iff_ne, Bool.not_eq_true'] at hcmd
  exact ⟨fun heq => hcmd.1 (congrArg some heq), hcmd.2⟩

theorem exec_udmTmplCmpcmd (cmdnum : Cmdnum) :
    (udmTmplCmpcmd cmdnum).exec = some .compare ∧ (udmTmplCmpcmd cmdnum).cmdnum.isJump = false := by
  cases cmdnum <;> exact ⟨rfl, rfl⟩

/-- The test that a command with a comparison begins. -/
def compareTest (cmdnum : Cmdnum) (tag : HtmlTok) (negated : Bool) : Test :=
  ⟨funcItem (udmTmplCmpcmd cmdnum) tag, (exec_udmTmplCmpcmd cmdnum).1, (exec_udmTmplCmpcmd cmdnum).2, negated⟩

/-- The test of `IFLIKE` and `ELSELIKE`. -/
def likeTest (tag : HtmlTok) : Test := ⟨funcItem udmTmplWld tag, rfl, rfl, false⟩

/-- The command that `FOR` begins with. -/
def forCommand (tag : HtmlTok) : Command := ⟨funcItem udmTmplSet tag, .setOrPut, rfl, Exec.noConfusion, rfl⟩

/-- What a command does. -/
def TmplCmd.instr (cmd : TmplCmd) (hmem : cmd ∈ tnames) (tag : HtmlTok) : Instr :=
  match he : cmd.exec with
  | some e => .command ⟨funcItem cmd tag, e, he, (exec_of_mem_tnames hmem he).1, (exec_of_mem_tnames hmem he).2⟩
  | none =>
    match cmd.cmdnum with
    | .tmplWhile => .tmplWhile (compareTest .tmplWhile tag false)
    | .tmplWhilenot => .tmplWhile (compareTest .tmplWhilenot tag true)
    | .tmplIfnot => .tmplIf (compareTest .tmplIfnot tag true)
    | .tmplIflike => .tmplIf (likeTest tag)
    | .tmplFor => .tmplFor (forCommand tag)
    | .tmplElseif => .tmplElseif (compareTest .tmplElseif tag false)
    | .tmplElselike => .tmplElseif (likeTest tag)
    | .tmplElse => .tmplElse
    | .tmplEndif => .tmplEndif
    | .tmplEndwhile => .tmplEndwhile
    | .tmplEndfor => .tmplEndfor
    | cmdnum => .tmplIf (compareTest cmdnum tag false)

/-- The command that prints a text. -/
def textCommand (str : List UInt8) : Command := ⟨arg1Item udmTmplTxt str, .tagOrText, rfl, Exec.noConfusion, rfl⟩

/-- The command that prints a tag. -/
def tagCommand (str : List UInt8) : Command := ⟨arg1Item udmTmplTag str, .tagOrText, rfl, Exec.noConfusion, rfl⟩

/-- The command that invokes a method, or prints a special tag. -/
def methodCommand (tag : HtmlTok) (str : List UInt8) : Command where
  item := invokeMethodItem tag str
  exec := ((invokeMethodItem tag str).cmd.bind TmplCmd.exec).getD .method
  exec_eq := by unfold invokeMethodItem; split <;> rfl
  exec_ne := by unfold invokeMethodItem; split <;> exact Exec.noConfusion
  not_jump := by unfold invokeMethodItem; split <;> rfl

/-- What a token does. -/
def Token.instr (t : Token) : Instr :=
  match t.str with
  | 0x3C :: 0x21 :: c :: str =>
    if isalpha c then
      match hcmd : htmlTemplateCmd (c :: str) with
      | some cmd => cmd.instr (List.mem_of_find?_eq_some hcmd) t.tag
      | none => .command (methodCommand t.tag t.str)
    else .command (textCommand t.str)
  | _ =>
    if strcaseeq (t.str.take 7) (bytes "<OPTION") ∨ strcaseeq (t.str.take 6) (bytes "<INPUT") then
      .command (tagCommand t.str)
    else .command (textCommand t.str)

/-! ### Blocks -/

mutual

/-- Commands, conditions and loops, one after another. -/
inductive Block
  | nil
  | command (c : Command) (rest : Block)
  | tmplIf (t : Test) (body : Block) (more : Branches) (rest : Block)
  | tmplWhile (t : Test) (body rest : Block)
  | tmplFor (c : Command) (body rest : Block)

/-- The branches of a condition behind the first. -/
inductive Branches
  | tmplEndif
  | tmplElse (body : Block)
  | tmplElseif (t : Test) (body : Block) (more : Branches)

end

mutual

/-- The instructions of a block. -/
def Block.instrs : Block → List Instr
  | .nil => []
  | .command c rest => .command c :: rest.instrs
  | .tmplIf t body more rest => .tmplIf t :: (body.instrs ++ (more.instrs ++ rest.instrs))
  | .tmplWhile t body rest => .tmplWhile t :: (body.instrs ++ .tmplEndwhile :: rest.instrs)
  | .tmplFor c body rest => .tmplFor c :: (body.instrs ++ .tmplEndfor :: rest.instrs)

/-- The instructions of branches, up to the end of the condition. -/
def Branches.instrs : Branches → List Instr
  | .tmplEndif => [.tmplEndif]
  | .tmplElse body => .tmplElse :: (body.instrs ++ [.tmplEndif])
  | .tmplElseif t body more => .tmplElseif t :: (body.instrs ++ more.instrs)

end

/-! ### Execution -/

section

variable {σ : Type*} (host : Host σ)

/-- What a command does to the variables and the output. -/
def Command.run (c : Command) (s : σ) : σ := host.exec c.exec c.item s

/-- A test, and whether it holds. -/
def Test.run (t : Test) (s : σ) : σ × Bool :=
  let (s, reg) := templateCompare host t.item s
  (s, reg == t.negated)

/-- A command that is executed, and on what. -/
abbrev Event (σ : Type*) := PrgItem × σ

/-- The command that increments the variable of `FOR`. -/
def Command.inc (c : Command) : Command :=
  ⟨⟨.tmplInc, c.item.arg0, none, none, none, none, 0, some udmTmplInc⟩, .incOrDec, rfl, Exec.noConfusion, rfl⟩

/-- The variable of `FOR` exceeds its last value. -/
def Command.exceeds (c : Command) : Test :=
  ⟨⟨.tmplIfgt, c.item.arg0, c.item.arg2, none, none, none, 0, some udmTmplCmp⟩, rfl, rfl, false⟩

/-- The branch that is executed: the first whose test holds, or the last one if it has none. -/
def Branches.select : Branches → σ → List (Event σ) × σ × Block
  | .tmplEndif, s => ([], s, .nil)
  | .tmplElse body, s => ([], s, body)
  | .tmplElseif t body more, s =>
    let (s', holds) := t.run host s
    if holds then ([(t.item, s)], s', body)
    else
      let (T, s'', branch) := more.select s'
      ((t.item, s) :: T, s'', branch)

/-- An execution so far: what has been executed, and where it ended if it did. -/
abbrev Execution (σ : Type*) := List (Event σ) × Option σ

/-- Something is executed first. -/
def Execution.after (x : Execution σ) (T : List (Event σ)) : Execution σ := (T ++ x.1, x.2)

/-- Something is executed when this has ended. -/
def Execution.andThen (x : Execution σ) (f : σ → Execution σ) : Execution σ :=
  match x.2 with
  | some s => (f s).after x.1
  | none => x

mutual

/-- The execution of a block, nested as deeply as the number allows. -/
def Block.eval : ℕ → Block → σ → Execution σ
  | 0, _, _ => ([], none)
  | _ + 1, .nil, s => ([], some s)
  | n + 1, .command c rest, s => (rest.eval n (c.run host s)).after [(c.item, s)]
  | n + 1, .tmplIf t body more rest, s =>
    let (T, s', branch) := (Branches.tmplElseif t body more).select host s
    ((branch.eval n s').andThen (rest.eval n)).after T
  | n + 1, .tmplWhile t body rest, s =>
    let (s', holds) := t.run host s
    if holds then ((body.eval n s').andThen ((Block.tmplWhile t body rest).eval n)).after [(t.item, s)]
    else (rest.eval n s').after [(t.item, s)]
  | n + 1, .tmplFor c body rest, s => (evalFor n c body rest (c.run host s)).after [(c.item, s)]

/-- A loop `FOR` whose variable is set, and what comes behind it. -/
def evalFor : ℕ → Command → Block → Block → σ → Execution σ
  | 0, _, _, _, _ => ([], none)
  | n + 1, c, body, rest, s => (body.eval n s).andThen fun s =>
    let s' := c.inc.run host s
    let (s'', exceeds) := c.exceeds.run host s'
    if exceeds then (rest.eval n s'').after [(c.inc.item, s), (c.exceeds.item, s')]
    else (evalFor n c body rest s'').after [(c.inc.item, s), (c.exceeds.item, s')]

end

end

end MnoGoSearch.Template
