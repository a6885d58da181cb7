import MnoGoSearch.Url.Canonize
import MnoGoSearch.Vars.VarList

/-!
# Template programs

How a search template is compiled to a program (`HtmlTemplateCompile` in `template.c`), and how the
program runs (`PrintHtmlTemplate`). The program is a list of items: texts, tags and commands, and
jumps. One pass over the tokens of the template adds the items; a jump forward gets the address `0`
first and its own address when the place it leads to is reached, for which a stack has the loops and
conditions that are open.

The items are kept in memory that is allocated for 64 items at a time. A pointer to an item is not
valid any more when more memory has been allocated.
-/

namespace MnoGoSearch.Template

open Url Vars

/-! ### Commands -/

/-- The numbers of the commands, `UDM_TMPL_...`. -/
inductive Cmdnum
  | tmplIf
  | tmplIflike
  | tmplElseif
  | tmplElselike
  | tmplElse
  | tmplEndif
  | tmplCopy
  | tmplSet
  | tmplInclude
  | tmplCmp
  | tmplWld
  | tmplJe
  | tmplJne
  | tmplJmp
  | tmplPrint
  | tmplTag
  | tmplIfnot
  | tmplInc
  | tmplDec
  | tmplWhilenot
  | tmplWhile
  | tmplEndwhile
  | tmplPut
  | tmplStrbcut
  | tmplStrpcase
  | tmplStrleft
  | tmplIfcs
  | tmplCmpcs
  | tmplUrldecode
  | tmplHtmlencode
  | tmplUdmenv
  | tmplUdmresult
  | tmplMethod
  | tmplStrlcase
  | tmplAdd
  | tmplSub
  | tmplMul
  | tmplEreg
  | tmplIfle
  | tmplIfge
  | tmplIfgt
  | tmplIflt
  | tmplFor
  | tmplEndfor
  deriving DecidableEq, Repr

/-- The functions that execute commands, `Template...`. -/
inductive Exec
  | copy
  | setOrPut
  | include
  | incOrDec
  | num2
  | func2
  | createEnv
  | createResult
  | tagOrText
  | compare
  | method
  deriving DecidableEq, Repr

/-- `UDM_TMPL_CMD`. -/
structure TmplCmd where
  name : String
  cmdnum : Cmdnum
  exec : Option Exec
  deriving DecidableEq, Repr

/-- The commands of templates. -/
def tnames : List TmplCmd :=
  [⟨"IFLIKE", .tmplIflike, none⟩,
   ⟨"IFNOT", .tmplIfnot, none⟩,
   ⟨"IFCS", .tmplIfcs, none⟩,
   ⟨"IFLE", .tmplIfle, none⟩,
   ⟨"IFGE", .tmplIfge, none⟩,
   ⟨"IFGT", .tmplIfgt, none⟩,
   ⟨"IFLT", .tmplIflt, none⟩,
   ⟨"IF", .tmplIf, none⟩,
   ⟨"ELSEIF", .tmplElseif, none⟩,
   ⟨"ELIF", .tmplElseif, none⟩,
   ⟨"ELIKE", .tmplElselike, none⟩,
   ⟨"ELSELIKE", .tmplElselike, none⟩,
   ⟨"ELSE", .tmplElse, none⟩,
   ⟨"ENDIF", .tmplEndif, none⟩,
   ⟨"/IF", .tmplEndif, none⟩,
   ⟨"WHILENOT", .tmplWhilenot, none⟩,
   ⟨"WHILE", .tmplWhile, none⟩,
   ⟨"ENDWHILE", .tmplEndwhile, none⟩,
   ⟨"FOR", .tmplFor, none⟩,
   ⟨"ENDFOR", .tmplEndfor, none⟩,
   ⟨"COPY", .tmplCopy, some .copy⟩,
   ⟨"SET", .tmplSet, some .setOrPut⟩,
   ⟨"PUT", .tmplPut, some .setOrPut⟩,
   ⟨"INCLUDE", .tmplInclude, some .include⟩,
   ⟨"INC", .tmplInc, some .incOrDec⟩,
   ⟨"DEC", .tmplDec, some .incOrDec⟩,
   ⟨"MUL", .tmplMul, some .num2⟩,
   ⟨"ADD", .tmplAdd, some .num2⟩,
   ⟨"SUB", .tmplSub, some .num2⟩,
   ⟨"STRBCUT", .tmplStrbcut, some .func2⟩,
   ⟨"STRPCASE", .tmplStrpcase, some .func2⟩,
   ⟨"STRLCASE", .tmplStrlcase, some .func2⟩,
   ⟨"STRLEFT", .tmplStrleft, some .func2⟩,
   ⟨"URLDECODE", .tmplUrldecode, some .func2⟩,
   ⟨"HTMLENCODE", .tmplHtmlencode, some .func2⟩,
   ⟨"UDMENV", .tmplUdmenv, some .createEnv⟩,
   ⟨"UDMRESULT", .tmplUdmresult, some .createResult⟩,
   ⟨"EREG", .tmplEreg, some .func2⟩]

/-- `udm_tmpl_set`. -/
def udmTmplSet : TmplCmd := ⟨"SET", .tmplSet, some .setOrPut⟩

/-- `udm_tmpl_inc`. -/
def udmTmplInc : TmplCmd := ⟨"INC", .tmplInc, some .incOrDec⟩

/-- `udm_tmpl_txt`. -/
def udmTmplTxt : TmplCmd := ⟨"TXT", .tmplPrint, some .tagOrText⟩

/-- `udm_tmpl_tag`. -/
def udmTmplTag : TmplCmd := ⟨"TAG", .tmplTag, some .tagOrText⟩

/-- `udm_tmpl_cmp`. -/
def udmTmplCmp : TmplCmd := ⟨"CMP", .tmplCmp, some .compare⟩

/-- `udm_tmpl_cmplt`. -/
def udmTmplCmplt : TmplCmd := ⟨"CMPLT", .tmplIflt, some .compare⟩

/-- `udm_tmpl_cmple`. -/
def udmTmplCmple : TmplCmd := ⟨"CMPLE", .tmplIfle, some .compare⟩

/-- `udm_tmpl_cmpgt`. -/
def udmTmplCmpgt : TmplCmd := ⟨"CMPGT", .tmplIfgt, some .compare⟩

/-- `udm_tmpl_cmpge`. -/
def udmTmplCmpge : TmplCmd := ⟨"CMPGE", .tmplIfge, some .compare⟩

/-- `udm_tmpl_cmpcs`. -/
def udmTmplCmpcs : TmplCmd := ⟨"CMPCS", .tmplCmpcs, some .compare⟩

/-- `udm_tmpl_wld`. -/
def udmTmplWld : TmplCmd := ⟨"CMPCS", .tmplWld, some .compare⟩

/-- `udm_tmpl_method`. -/
def udmTmplMethod : TmplCmd := ⟨"METHOD", .tmplMethod, some .method⟩

/-- `udm_tmpl_cmpcmd`. -/
def udmTmplCmpcmd : Cmdnum → TmplCmd
  | .tmplIfcs => udmTmplCmpcs
  | .tmplIflt => udmTmplCmplt
  | .tmplIfle => udmTmplCmple
  | .tmplIfgt => udmTmplCmpgt
  | .tmplIfge => udmTmplCmpge
  | _ => udmTmplCmp

/-- `isalpha`. -/
def isalpha (c : UInt8) : Bool := (0x41 ≤ c && c ≤ 0x5A) || (0x61 ≤ c && c ≤ 0x7A)

/-- `HtmlTemplateCmd`: the command that a text begins with. -/
def htmlTemplateCmd (str : List UInt8) : Option TmplCmd :=
  tnames.find? fun t => strcaseeq (str.takeWhile isalnum) (bytes t.name)

/-! ### Tokens -/

/-- `UDM_HTMLTOK`: the names and the values of the attributes; the first name is that of the tag. An
attribute without a value has an empty one. -/
structure HtmlTok where
  toks : List (List UInt8 × List UInt8)
  deriving DecidableEq

/-- A token of the template, as `UdmHTMLToken` finds it. -/
structure Token where
  str : List UInt8
  tag : HtmlTok
  deriving DecidableEq

/-- `UdmHTMLTokAttrDup`: the value of the first attribute whose name is the beginning of this one. -/
def udmHTMLTokAttrDup (tag : HtmlTok) (name : String) (default : Option (List UInt8)) : Option (List UInt8) :=
  match tag.toks.find? fun tok => strcaseeq tok.1 ((bytes name).take tok.1.length) with
  | some (_, val) => if val ≠ [] then some val else default
  | none => default

/-! ### Programs -/

/-- `UDM_TMPL_PRGITEM`. The command of a jump is not assigned. -/
structure PrgItem where
  /-- The number of the command. -/
  cmdnum : Cmdnum
  arg0 : Option (List UInt8)
  arg1 : Option (List UInt8)
  arg2 : Option (List UInt8)
  arg3 : Option (List UInt8)
  method : Option (List UInt8)
  jump : ℕ
  cmd : Option TmplCmd
  deriving DecidableEq

/-- `UDM_TMPL_PRG`. -/
structure Prg where
  /-- The items; `nitems` is their number. -/
  items : List PrgItem
  /-- For how many items memory is allocated. -/
  mitems : ℕ

/-- Memory is allocated when the next item is added: the items may move. -/
def Prg.moves (prg : Prg) : Bool := prg.mitems ≤ prg.items.length

/-- `HtmlTemplatePrgAdd`. -/
def Prg.add (prg : Prg) (item : PrgItem) : Prg where
  items := prg.items ++ [item]
  mitems := if prg.moves then prg.mitems + 64 else prg.mitems

/-- The item of `HtmlTemplatePrgAddFunc`. -/
def funcItem (cmd : TmplCmd) (tag : HtmlTok) : PrgItem where
  cmdnum := cmd.cmdnum
  cmd := some cmd
  arg0 := udmHTMLTokAttrDup tag "Name" (some [])
  arg1 := (udmHTMLTokAttrDup tag "Content" none).or (udmHTMLTokAttrDup tag "From" (some []))
  arg2 := (udmHTMLTokAttrDup tag "Result" none).or (udmHTMLTokAttrDup tag "To" (some []))
  arg3 := udmHTMLTokAttrDup tag "Match" (some [])
  method := none
  jump := 0

/-- `HtmlTemplatePrgAddFunc`. -/
def Prg.addFunc (prg : Prg) (cmd : TmplCmd) (tag : HtmlTok) : Prg := prg.add (funcItem cmd tag)

/-- The item of `HtmlTemplatePrgAdd1Arg`. -/
def arg1Item (cmd : TmplCmd) (str : List UInt8) : PrgItem := ⟨cmd.cmdnum, some str, none, none, none, none, 0, some cmd⟩

/-- `HtmlTemplatePrgAdd1Arg`. -/
def Prg.add1Arg (prg : Prg) (cmd : TmplCmd) (str : List UInt8) : Prg := prg.add (arg1Item cmd str)

/-- A jump. -/
def jumpItem (cmdnum : Cmdnum) (addr : ℕ) : PrgItem := ⟨cmdnum, none, none, none, none, none, addr, none⟩

/-- `HtmlTemplatePrgAddJmp`. -/
def Prg.addJmp (prg : Prg) (cmdnum : Cmdnum) (addr : ℕ) : Prg := prg.add (jumpItem cmdnum addr)

/-- The item of `HtmlTemplatePrgAddInvokeMethod`: a method of a variable, or a special tag. -/
def invokeMethodItem (tag : HtmlTok) (str : List UInt8) : PrgItem :=
  match tag.toks, udmHTMLTokAttrDup tag "Name" (some []) with
  | (tagname, _) :: _ :: _, some (c :: name) =>
    { cmdnum := .tmplMethod
      cmd := some udmTmplMethod
      arg0 := some (c :: name)
      arg1 := udmHTMLTokAttrDup tag "Content" (some [])
      arg2 := udmHTMLTokAttrDup tag "Result" (some [])
      arg3 := udmHTMLTokAttrDup tag "Match" (some [])
      method := some (tagname.drop 1)
      jump := 0 }
  | _, _ => arg1Item udmTmplTxt str

/-! ### Compilation -/

/-- Why there is no program. -/
inductive CompileError
  /-- An item is read where it may not be any more. -/
  | undefined
  /-- The template is wrong: `errstr`. -/
  | template (errstr : String)
  deriving DecidableEq, Repr

/-- `UDM_TMPL_COMPILE_STACK_ITEM`. -/
structure StackItem where
  /-- The first item, of a loop or a condition. -/
  beg : ℕ
  /-- The jump that has no address yet. -/
  jmp : ℕ
  /-- `IF`, `FOR` or `WHILE`. -/
  cmd : Cmdnum
  deriving DecidableEq

/-- The program and the stack; the last of its items is first. -/
structure CompileState where
  prg : Prg
  st : List StackItem

/-- The address of a jump is written: `prg->Items[i].jump= addr`. -/
def Prg.setJump (prg : Prg) (i addr : ℕ) : Prg := { prg with items := prg.items.modify i fun it => { it with jump := addr } }

/-- The item is a jump. -/
def Cmdnum.isJump (cmdnum : Cmdnum) : Bool := cmdnum = .tmplJmp ∨ cmdnum = .tmplJe ∨ cmdnum = .tmplJne

/-- A jump without an address gets this one. -/
def PrgItem.patch (addr : ℕ) (it : PrgItem) : PrgItem :=
  if it.jump = 0 ∧ it.cmdnum.isJump then { it with jump := addr } else it

/-- A condition or loop begins: a comparison and a jump, which is taken if the comparison fails. -/
def CompileState.open (s : CompileState) (cmd : Cmdnum) (compare : TmplCmd) (jump : Cmdnum) (tag : HtmlTok) :
    CompileState where
  prg := (s.prg.addFunc compare tag).addJmp jump 0
  st := ⟨s.prg.items.length, s.prg.items.length + 1, cmd⟩ :: s.st

/-- Another branch of a condition: the jump behind the last branch, whose comparison leads here. -/
def CompileState.elsePart (s : CompileState) (top : StackItem) : Prg :=
  let prg := s.prg.addJmp .tmplJmp 0
  prg.setJump top.jmp prg.items.length

/-- Another branch of a condition with a comparison. -/
def CompileState.elseIf (s : CompileState) (top : StackItem) (st : List StackItem) (compare : TmplCmd) (tag : HtmlTok) :
    CompileState :=
  let prg := s.elsePart top
  { prg := (prg.addFunc compare tag).addJmp .tmplJne 0
    st := { top with jmp := prg.items.length + 1 } :: st }

/-- What closes nothing. -/
def unexpected (sym : String) : CompileError := .template s!"Unexpected '{sym}'"

/-- `HtmlTemplateCompileCommand`. -/
def htmlTemplateCompileCommand (s : CompileState) (tag : HtmlTok) (cmd : TmplCmd) : Except CompileError CompileState :=
  match cmd.cmdnum with
  | .tmplWhile => .ok (s.open .tmplWhile (udmTmplCmpcmd cmd.cmdnum) .tmplJne tag)
  | .tmplIf | .tmplIfcs | .tmplIfle | .tmplIfge | .tmplIfgt | .tmplIflt =>
    .ok (s.open .tmplIf (udmTmplCmpcmd cmd.cmdnum) .tmplJne tag)
  | .tmplWhilenot => .ok (s.open .tmplWhile udmTmplCmp .tmplJe tag)
  | .tmplIfnot => .ok (s.open .tmplIf udmTmplCmp .tmplJe tag)
  | .tmplFor =>
    let prg := s.prg.addFunc udmTmplSet tag
    .ok ⟨prg, ⟨prg.items.length, prg.items.length + 1, .tmplFor⟩ :: s.st⟩
  | .tmplIflike => .ok (s.open .tmplIf udmTmplWld .tmplJne tag)
  | .tmplElseif =>
    match s.st with
    | top :: st => if top.cmd = .tmplIf then .ok (s.elseIf top st udmTmplCmp tag) else .error (unexpected "<!ELSEIF>")
    | [] => .error (unexpected "<!ELSEIF>")
  | .tmplElselike =>
    match s.st with
    | top :: st => if top.cmd = .tmplIf then .ok (s.elseIf top st udmTmplWld tag) else .error (unexpected "<!ELSELIKE>")
    | [] => .error (unexpected "<!ELSELIKE>")
  | .tmplElse =>
    match s.st with
    | top :: st => if top.cmd = .tmplIf then .ok ⟨s.elsePart top, top :: st⟩ else .error (unexpected "<!ELSE>")
    | [] => .error (unexpected "<!ELSE>")
  | .tmplEndfor =>
    match s.st with
    | top :: st =>
      if top.cmd = .tmplFor then
        match s.prg.items[top.beg - 1]? with
        | none => .error .undefined
        | some FromItem =>
          -- `FromItem` is a pointer into the items, and is read again behind the first addition
          if s.prg.moves then .error .undefined
          else
            let prg := s.prg.add ⟨.tmplInc, FromItem.arg0, none, none, none, none, 0, some udmTmplInc⟩
            let prg := prg.add ⟨.tmplIfgt, FromItem.arg0, FromItem.arg2, none, none, none, 0, some udmTmplCmp⟩
            .ok ⟨prg.addJmp .tmplJne top.beg, st⟩
      else .error (unexpected "<!ENDFOR>")
    | [] => .error (unexpected "<!ENDFOR>")
  | .tmplEndwhile =>
    match s.st with
    | top :: st =>
      if top.cmd = .tmplWhile then
        let prg := s.prg.addJmp .tmplJmp top.beg
        .ok ⟨prg.setJump top.jmp prg.items.length, st⟩
      else .error (unexpected "<!ENDWHILE>")
    | [] => .error (unexpected "<!ENDWHILE>")
  | .tmplEndif =>
    match s.st with
    | top :: st =>
      if top.cmd = .tmplIf then
        -- the jumps of the condition, from its beginning on, that have no address yet
        let items := s.prg.items.take top.beg ++ (s.prg.items.drop top.beg).map (PrgItem.patch s.prg.items.length)
        .ok ⟨{ s.prg with items := items }, st⟩
      else .error (unexpected "<!ENDIF>")
    | [] => .error (unexpected "<!ENDIF>")
  | _ => .ok { s with prg := s.prg.addFunc cmd tag }

/-- The body of the loop of `HtmlTemplateCompile`. -/
def htmlTemplateCompileToken (s : CompileState) (t : Token) : Except CompileError CompileState :=
  match t.str with
  | 0x3C :: 0x21 :: c :: str =>
    if isalpha c then
      match htmlTemplateCmd (c :: str) with
      | some cmd => htmlTemplateCompileCommand s t.tag cmd
      | none => .ok { s with prg := s.prg.add (invokeMethodItem t.tag t.str) }
    else .ok { s with prg := s.prg.add1Arg udmTmplTxt t.str }
  | _ =>
    if strcaseeq (t.str.take 7) (bytes "<OPTION") ∨ strcaseeq (t.str.take 6) (bytes "<INPUT") then
      .ok { s with prg := s.prg.add1Arg udmTmplTag t.str }
    else .ok { s with prg := s.prg.add1Arg udmTmplTxt t.str }

/-- The loop of `HtmlTemplateCompile`. -/
def htmlTemplateCompileTokens (s : CompileState) : List Token → Except CompileError CompileState
  | [] => .ok s
  | t :: ts =>
    match htmlTemplateCompileToken s t with
    | .ok s => htmlTemplateCompileTokens s ts
    | .error e => .error e

/-- What is not closed. -/
def missing (cmd : Cmdnum) : CompileError :=
  match cmd with
  | .tmplIf => .template "Missing ENDIF"
  | .tmplFor => .template "Missing ENDFOR"
  | .tmplWhile => .template "Missing ENDWHILE"
  | _ => .template "Missing ENDUNKNOWN"

/-- `HtmlTemplateCompile`. -/
def htmlTemplateCompile (tokens : List Token) : Except CompileError Prg :=
  match htmlTemplateCompileTokens ⟨⟨[], 0⟩, []⟩ tokens with
  | .error e => .error e
  | .ok s =>
    match s.st with
    | [] => .ok s.prg
    | top :: _ => .error (missing top.cmd)

/-! ### Running -/

/-- What the commands work on, and how: the variables and the output. A comparison of numbers is
one of the machine's floating point numbers. -/
structure Host (σ : Type*) where
  /-- The value of a variable without highlighting, empty if there is none. -/
  varListFindStr : σ → List UInt8 → List UInt8
  /-- A text into a buffer of some size: `PrintTextTemplate`. -/
  printTextTemplate : σ → ℕ → List UInt8 → List UInt8 × σ
  Float : Type
  atof : List UInt8 → Float
  /-- `<=`. -/
  le : Float → Float → Bool
  /-- `<`. -/
  lt : Float → Float → Bool
  /-- The functions that do not compare. -/
  exec : Exec → PrgItem → σ → σ

variable {σ : Type*}

/-- `TemplateCompare`: what becomes of the variables, and whether the register is not zero. -/
def templateCompare (host : Host σ) (it : PrgItem) (s : σ) : σ × Bool :=
  let nhvar := host.varListFindStr s (it.arg0.getD [])
  let (vurl, s) := host.printTextTemplate s (256 + 4 * (it.arg1.getD []).length) (it.arg1.getD [])
  (s,
    match it.cmdnum with
    | .tmplCmp => !strcaseeq nhvar vurl
    | .tmplCmpcs => nhvar ≠ vurl
    | .tmplIfle => !host.le (host.atof nhvar) (host.atof vurl)
    | .tmplIfge => !host.le (host.atof vurl) (host.atof nhvar)
    | .tmplIflt => !host.lt (host.atof nhvar) (host.atof vurl)
    | .tmplIfgt => !host.lt (host.atof vurl) (host.atof nhvar)
    | _ => udmWildCaseCmp nhvar vurl ≠ 0)

/-- The state of a running program. -/
structure RunState (σ : Type*) where
  curr : ℕ
  /-- The register is not zero. -/
  reg : Bool
  /-- The variables and the output. -/
  vars : σ

/-- One step of `PrintHtmlTemplate`. An item that is executed is reported, with what it is executed
on. There is no step behind the program. -/
def printHtmlTemplateStep (host : Host σ) (items : List PrgItem) (c : RunState σ) :
    Option (Option (PrgItem × σ) × RunState σ) :=
  match items[c.curr]? with
  | none => none
  | some it =>
    match it.cmdnum with
    | .tmplJne => some (none, { c with curr := if c.reg then it.jump else c.curr + 1 })
    | .tmplJe => some (none, { c with curr := if !c.reg then it.jump else c.curr + 1 })
    | .tmplJmp => some (none, { c with curr := it.jump })
    | _ =>
      match it.cmd.bind TmplCmd.exec with
      | none => none
      | some .compare =>
        let (s, reg) := templateCompare host it c.vars
        some (some (it, c.vars), ⟨c.curr + 1, reg, s⟩)
      | some e => some (some (it, c.vars), { c with curr := c.curr + 1, vars := host.exec e it c.vars })

end MnoGoSearch.Template
