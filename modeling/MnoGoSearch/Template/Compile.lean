import MnoGoSearch.Template.Reading
import Mathlib

/-!
# The code of a template

The items that a block becomes at some place of a program, and the proof that the compiler adds
these. While a condition is open, the jumps behind its branches have the address `0`; when it ends,
they all get the same address. The items that other blocks became before have no such jumps any
more, but for a loop at the beginning of the program, which is in no condition.
-/

namespace MnoGoSearch.Template

/-! ### Code -/

/-- The jump that is taken if a test does not hold. -/
def Test.jump (t : Test) (addr : ℕ) : PrgItem := jumpItem (if t.negated then .tmplJe else .tmplJne) addr

/-- How many items an instruction becomes. -/
def Instr.size : Instr → ℕ
  | .command _ => 1
  | .tmplIf _ => 2
  | .tmplElseif _ => 3
  | .tmplElse => 1
  | .tmplEndif => 0
  | .tmplWhile _ => 2
  | .tmplEndwhile => 1
  | .tmplFor _ => 1
  | .tmplEndfor => 3

/-- How many items some instructions become. -/
def size (is : List Instr) : ℕ := (is.map Instr.size).sum

@[simp] theorem size_nil : size [] = 0 := rfl

@[simp] theorem size_cons (i : Instr) (is : List Instr) : size (i :: is) = i.size + size is := by simp [size]

@[simp] theorem size_append (is is' : List Instr) : size (is ++ is') = size is + size is' := by simp [size]

/-- Where the test of the first branch jumps to: behind the jump at its end, to the next branch, or
behind the condition. -/
def Branches.first (q fin : ℕ) : Branches → ℕ
  | .tmplEndif => fin
  | _ => q + 1

mutual

/-- The items of a block at some place of a program. -/
def Block.code (p : ℕ) : Block → List PrgItem
  | .nil => []
  | .command c rest => c.item :: rest.code (p + 1)
  | .tmplIf t body more rest =>
    let q := p + 2 + size body.instrs
    let fin := q + size more.instrs
    t.item :: t.jump (more.first q fin) :: (body.code (p + 2) ++ (more.code q fin ++ rest.code fin))
  | .tmplWhile t body rest =>
    let q := p + 2 + size body.instrs
    t.item :: t.jump (q + 1) :: (body.code (p + 2) ++ jumpItem .tmplJmp p :: rest.code (q + 1))
  | .tmplFor c body rest =>
    let q := p + 1 + size body.instrs
    c.item :: (body.code (p + 1) ++ c.inc.item :: c.exceeds.item :: c.exceeds.jump (p + 1) :: rest.code (q + 3))

/-- The items of branches at some place of a program. The address `fin` of their last jumps is that
of the end of the condition, or `0` as long as that is not known. -/
def Branches.code (q fin : ℕ) : Branches → List PrgItem
  | .tmplEndif => []
  | .tmplElse body => jumpItem .tmplJmp fin :: body.code (q + 1)
  | .tmplElseif t body more =>
    let q' := q + 3 + size body.instrs
    jumpItem .tmplJmp fin :: t.item :: t.jump (more.first q' fin) :: (body.code (q + 3) ++ more.code q' fin)

end

mutual

theorem Block.length_code (p : ℕ) : ∀ B : Block, (B.code p).length = size B.instrs
  | .nil => rfl
  | .command c rest => by simp [Block.code, Block.instrs, Instr.size, rest.length_code, Nat.add_comm]
  | .tmplIf t body more rest => by
    simp [Block.code, Block.instrs, Instr.size, body.length_code, more.length_code, rest.length_code]
    omega
  | .tmplWhile t body rest => by
    simp [Block.code, Block.instrs, Instr.size, body.length_code, rest.length_code]
    omega
  | .tmplFor c body rest => by
    simp [Block.code, Block.instrs, Instr.size, body.length_code, rest.length_code]
    omega

theorem Branches.length_code (q fin : ℕ) : ∀ more : Branches, (more.code q fin).length = size more.instrs
  | .tmplEndif => rfl
  | .tmplElse body => by simp [Branches.code, Branches.instrs, Instr.size, body.length_code, Nat.add_comm]
  | .tmplElseif t body more => by
    simp [Branches.code, Branches.instrs, Instr.size, body.length_code, more.length_code]
    omega

end

/-! ### Patches -/

theorem PrgItem.patch_of_not_jump {it : PrgItem} (h : it.cmdnum.isJump = false) (addr : ℕ) : it.patch addr = it := by
  simp [PrgItem.patch, h]

theorem patch_jumpItem_of_pos (cmdnum : Cmdnum) {a : ℕ} (h : 0 < a) (addr : ℕ) :
    (jumpItem cmdnum a).patch addr = jumpItem cmdnum a := by simp [PrgItem.patch, jumpItem, h.ne']

theorem patch_jump_of_pos (t : Test) {a : ℕ} (h : 0 < a) (addr : ℕ) : (t.jump a).patch addr = t.jump a :=
  patch_jumpItem_of_pos _ h addr

theorem patch_jumpItem_zero {cmdnum : Cmdnum} (h : cmdnum.isJump) (addr : ℕ) :
    (jumpItem cmdnum 0).patch addr = jumpItem cmdnum addr := by simp [PrgItem.patch, jumpItem, h]

@[simp] theorem patch_jmp_zero (addr : ℕ) : (jumpItem .tmplJmp 0).patch addr = jumpItem .tmplJmp addr :=
  patch_jumpItem_zero rfl addr

theorem patch_jump_zero (t : Test) (addr : ℕ) : (t.jump 0).patch addr = t.jump addr :=
  patch_jumpItem_zero (by cases t.negated <;> rfl) addr

@[simp] theorem patch_command (c : Command) (addr : ℕ) : c.item.patch addr = c.item :=
  PrgItem.patch_of_not_jump c.not_jump addr

@[simp] theorem patch_test (t : Test) (addr : ℕ) : t.item.patch addr = t.item :=
  PrgItem.patch_of_not_jump t.not_jump addr

theorem patch_first (t : Test) (more : Branches) (q addr : ℕ) :
    (t.jump (more.first q 0)).patch addr = t.jump (more.first q addr) := by
  cases more with
  | tmplEndif => exact patch_jump_zero t addr
  | tmplElse body => exact patch_jump_of_pos t (Nat.succ_pos q) addr
  | tmplElseif t' body more => exact patch_jump_of_pos t (Nat.succ_pos q) addr

theorem Branches.first_le (more : Branches) (q fin : ℕ) : more.first q fin ≤ max fin (q + size more.instrs) := by
  cases more with
  | tmplEndif => exact le_max_left _ _
  | tmplElse body =>
    simp only [Branches.first, Branches.instrs, size_cons, Instr.size]
    omega
  | tmplElseif t body more =>
    simp only [Branches.first, Branches.instrs, size_cons, Instr.size]
    omega

theorem Branches.first_pos (more : Branches) (q : ℕ) {fin : ℕ} (h : 0 < fin) : 0 < more.first q fin := by
  cases more <;> first | exact h | exact Nat.succ_pos q

mutual

theorem Block.patch_code {p : ℕ} (hp : 0 < p) (addr : ℕ) :
    ∀ B : Block, (B.code p).map (PrgItem.patch addr) = B.code p
  | .nil => rfl
  | .command c rest => by simp [Block.code, rest.patch_code (Nat.succ_pos p)]
  | .tmplIf t body more rest => by
    have hfin : 0 < p + 2 + size body.instrs + size more.instrs := by omega
    simp only [Block.code, List.map_cons, List.map_append, patch_test, patch_jump_of_pos t (more.first_pos _ hfin),
      body.patch_code (p := p + 2) (by omega), more.patch_code_of_pos hfin, rest.patch_code hfin]
  | .tmplWhile t body rest => by
    simp only [Block.code, List.map_cons, List.map_append, patch_test, patch_jump_of_pos t (Nat.succ_pos _),
      body.patch_code (p := p + 2) (by omega), patch_jumpItem_of_pos _ hp, rest.patch_code (Nat.succ_pos _)]
  | .tmplFor c body rest => by
    simp only [Block.code, List.map_cons, List.map_append, patch_command, patch_test,
      patch_jump_of_pos _ (Nat.succ_pos _), body.patch_code (Nat.succ_pos _), rest.patch_code (Nat.succ_pos _)]

theorem Branches.patch_code_of_pos {q fin : ℕ} (hfin : 0 < fin) (addr : ℕ) :
    ∀ more : Branches, (more.code q fin).map (PrgItem.patch addr) = more.code q fin
  | .tmplEndif => rfl
  | .tmplElse body => by
    simp only [Branches.code, List.map_cons, patch_jumpItem_of_pos _ hfin, body.patch_code (Nat.succ_pos q)]
  | .tmplElseif t body more => by
    simp only [Branches.code, List.map_cons, List.map_append, patch_jumpItem_of_pos _ hfin, patch_test,
      patch_jump_of_pos t (more.first_pos _ hfin), body.patch_code (Nat.succ_pos _), more.patch_code_of_pos hfin]

end

theorem Branches.patch_code {q : ℕ} (addr : ℕ) :
    ∀ more : Branches, (more.code q 0).map (PrgItem.patch addr) = more.code q addr
  | .tmplEndif => rfl
  | .tmplElse body => by
    simp only [Branches.code, List.map_cons, patch_jmp_zero, body.patch_code (Nat.succ_pos q)]
  | .tmplElseif t body more => by
    simp only [Branches.code, List.map_cons, List.map_append, patch_jmp_zero, patch_test, patch_first,
      body.patch_code (Nat.succ_pos _), more.patch_code]

/-! ### Programs of items -/

/-- A program with these items, and as much memory as they need. -/
def Prg.ofItems (items : List PrgItem) : Prg := ⟨items, 64 * ((items.length + 63) / 64)⟩

@[simp] theorem items_ofItems (items : List PrgItem) : (Prg.ofItems items).items = items := rfl

@[simp] theorem moves_ofItems (items : List PrgItem) : (Prg.ofItems items).moves = decide (items.length % 64 = 0) := by
  refine decide_eq_decide.2 ?_
  simp only [Prg.ofItems]
  omega

@[simp] theorem add_ofItems (items : List PrgItem) (it : PrgItem) :
    (Prg.ofItems items).add it = .ofItems (items ++ [it]) := by
  simp only [Prg.add, moves_ofItems, decide_eq_true_eq]
  simp only [Prg.ofItems, List.length_append, List.length_singleton, Prg.mk.injEq, true_and]
  split_ifs <;> omega

theorem setJump_ofItems (pre post : List PrgItem) (t : Test) {i : ℕ} (hi : i = pre.length) (addr : ℕ) :
    (Prg.ofItems (pre ++ t.jump 0 :: post)).setJump i addr = .ofItems (pre ++ t.jump addr :: post) := by
  subst hi
  simp [Prg.setJump, Prg.ofItems, List.modify_eq_set_getElem?, Test.jump, jumpItem]

/-! ### The compiler on instructions -/

/-- What an instruction adds to a program: `HtmlTemplateCompileCommand`, or one of the additions in
`HtmlTemplateCompile`. -/
def emit (s : CompileState) : Instr → Except CompileError CompileState
  | .command c => .ok { s with prg := s.prg.add c.item }
  | .tmplIf t =>
    .ok ⟨(s.prg.add t.item).add (t.jump 0), ⟨s.prg.items.length, s.prg.items.length + 1, .tmplIf⟩ :: s.st⟩
  | .tmplWhile t =>
    .ok ⟨(s.prg.add t.item).add (t.jump 0), ⟨s.prg.items.length, s.prg.items.length + 1, .tmplWhile⟩ :: s.st⟩
  | .tmplFor c =>
    .ok ⟨s.prg.add c.item, ⟨(s.prg.add c.item).items.length, (s.prg.add c.item).items.length + 1, .tmplFor⟩ :: s.st⟩
  | .tmplElseif t =>
    match s.st with
    | top :: st =>
      if top.cmd = .tmplIf then
        .ok ⟨((s.elsePart top).add t.item).add (t.jump 0), { top with jmp := (s.elsePart top).items.length + 1 } :: st⟩
      else .error (unexpected (if t.item.cmdnum = .tmplWld then "<!ELSELIKE>" else "<!ELSEIF>"))
    | [] => .error (unexpected (if t.item.cmdnum = .tmplWld then "<!ELSELIKE>" else "<!ELSEIF>"))
  | .tmplElse => htmlTemplateCompileCommand s ⟨[]⟩ ⟨"ELSE", .tmplElse, none⟩
  | .tmplEndif => htmlTemplateCompileCommand s ⟨[]⟩ ⟨"ENDIF", .tmplEndif, none⟩
  | .tmplEndwhile => htmlTemplateCompileCommand s ⟨[]⟩ ⟨"ENDWHILE", .tmplEndwhile, none⟩
  | .tmplEndfor => htmlTemplateCompileCommand s ⟨[]⟩ ⟨"ENDFOR", .tmplEndfor, none⟩

/-- **A command** of a template adds what its instruction adds. -/
theorem htmlTemplateCompileCommand_eq (s : CompileState) (tag : HtmlTok) {cmd : TmplCmd} (hmem : cmd ∈ tnames) :
    htmlTemplateCompileCommand s tag cmd = emit s (cmd.instr hmem tag) := by
  simp only [tnames, List.mem_cons, List.not_mem_nil, or_false] at hmem
  rcases hmem with rfl | rfl | rfl | rfl | rfl | rfl | rfl | rfl | rfl | rfl | rfl | rfl | rfl | rfl | rfl | rfl |
    rfl | rfl | rfl | rfl | rfl | rfl | rfl | rfl | rfl | rfl | rfl | rfl | rfl | rfl | rfl | rfl | rfl | rfl |
    rfl | rfl | rfl | rfl <;> rfl

theorem instr_command (c : UInt8) (str : List UInt8) (tag : HtmlTok) :
    Token.instr ⟨0x3C :: 0x21 :: c :: str, tag⟩ =
      if isalpha c then
        match hcmd : htmlTemplateCmd (c :: str) with
        | some cmd => cmd.instr (List.mem_of_find?_eq_some hcmd) tag
        | none => .command (methodCommand tag (0x3C :: 0x21 :: c :: str))
      else .command (textCommand (0x3C :: 0x21 :: c :: str)) := rfl

/-- **A token** of a template adds what its instruction adds. -/
theorem htmlTemplateCompileToken_eq (s : CompileState) (t : Token) : htmlTemplateCompileToken s t = emit s t.instr := by
  obtain ⟨str, tag⟩ := t
  simp only [htmlTemplateCompileToken]
  split
  · next c str =>
    rw [instr_command]
    split_ifs
    · split <;> split
      · next cmd hcmd cmd' hcmd' =>
        obtain rfl := Option.some.inj (hcmd.symm.trans hcmd')
        exact htmlTemplateCompileCommand_eq s tag _
      · next cmd hcmd hcmd' => exact absurd (hcmd.symm.trans hcmd') (Option.some_ne_none cmd)
      · next hcmd cmd hcmd' => exact absurd (hcmd'.symm.trans hcmd) (Option.some_ne_none cmd)
      · rfl
    · rfl
  · simp only [Token.instr]
    split_ifs <;> rfl

/-- What instructions add to a program. -/
def emitAll (s : CompileState) : List Instr → Except CompileError CompileState
  | [] => .ok s
  | i :: is =>
    match emit s i with
    | .ok s => emitAll s is
    | .error e => .error e

theorem htmlTemplateCompileTokens_eq (s : CompileState) (tokens : List Token) :
    htmlTemplateCompileTokens s tokens = emitAll s (tokens.map Token.instr) := by
  induction tokens generalizing s with
  | nil => rfl
  | cons t ts ih =>
    rw [htmlTemplateCompileTokens, htmlTemplateCompileToken_eq, List.map_cons, emitAll]
    cases emit s t.instr with
    | ok s' => exact ih s'
    | error e => rfl

theorem emitAll_cons {s s' : CompileState} {i : Instr} (h : emit s i = .ok s') (is : List Instr) :
    emitAll s (i :: is) = emitAll s' is := by rw [emitAll, h]

/-- No `ENDFOR` reads the first item of its loop when memory is allocated: the number of items is
not a multiple of 64 there. -/
def EndforInPlace (n : ℕ) : List Instr → Prop
  | [] => True
  | i :: is => (i = .tmplEndfor → n % 64 ≠ 0) ∧ EndforInPlace (n + i.size) is

theorem endforInPlace_append (n : ℕ) (is is' : List Instr) :
    EndforInPlace n (is ++ is') ↔ EndforInPlace n is ∧ EndforInPlace (n + size is) is' := by
  induction is generalizing n with
  | nil => simp [EndforInPlace]
  | cons i is ih => simp [EndforInPlace, ih, and_assoc, Nat.add_assoc]

/-! ### The code is compiled -/

theorem elsePart_ofItems (A pre C : List PrgItem) (t : Test) (st : List StackItem) :
    (CompileState.mk (.ofItems (A ++ (pre ++ t.jump 0 :: C))) st).elsePart ⟨A.length, A.length + pre.length, .tmplIf⟩ =
      .ofItems (A ++ (pre ++ t.jump (A.length + pre.length + C.length + 2) :: (C ++ [jumpItem .tmplJmp 0]))) := by
  have hset := setJump_ofItems (A ++ pre) (C ++ [jumpItem .tmplJmp 0]) t (i := A.length + pre.length) (by simp)
    (A.length + pre.length + C.length + 2)
  simp only [List.append_assoc] at hset
  simp only [CompileState.elsePart, Prg.addJmp, add_ofItems, List.append_assoc, List.cons_append, items_ofItems,
    List.length_append, List.length_cons, List.length_nil]
  convert hset using 2
  omega

theorem emit_tmplIf (I : List PrgItem) (st : List StackItem) (t : Test) :
    emit ⟨.ofItems I, st⟩ (.tmplIf t) =
      .ok ⟨.ofItems (I ++ [t.item, t.jump 0]), ⟨I.length, I.length + 1, .tmplIf⟩ :: st⟩ := by simp [emit]

theorem emit_tmplWhile (I : List PrgItem) (st : List StackItem) (t : Test) :
    emit ⟨.ofItems I, st⟩ (.tmplWhile t) =
      .ok ⟨.ofItems (I ++ [t.item, t.jump 0]), ⟨I.length, I.length + 1, .tmplWhile⟩ :: st⟩ := by simp [emit]

theorem emit_tmplFor (I : List PrgItem) (st : List StackItem) (c : Command) :
    emit ⟨.ofItems I, st⟩ (.tmplFor c) =
      .ok ⟨.ofItems (I ++ [c.item]), ⟨I.length + 1, I.length + 2, .tmplFor⟩ :: st⟩ := by simp [emit]

theorem emit_tmplElse (A pre C : List PrgItem) (t : Test) (st : List StackItem) :
    emit ⟨.ofItems (A ++ (pre ++ t.jump 0 :: C)), ⟨A.length, A.length + pre.length, .tmplIf⟩ :: st⟩ .tmplElse =
      .ok ⟨.ofItems (A ++ (pre ++ t.jump (A.length + pre.length + C.length + 2) :: (C ++ [jumpItem .tmplJmp 0]))),
        ⟨A.length, A.length + pre.length, .tmplIf⟩ :: st⟩ := by
  rw [← elsePart_ofItems A pre C t (⟨A.length, A.length + pre.length, .tmplIf⟩ :: st)]
  rfl

theorem emit_tmplElseif (A pre C : List PrgItem) (t t' : Test) (st : List StackItem) :
    emit ⟨.ofItems (A ++ (pre ++ t.jump 0 :: C)), ⟨A.length, A.length + pre.length, .tmplIf⟩ :: st⟩ (.tmplElseif t') =
      .ok ⟨.ofItems (A ++ (pre ++ t.jump (A.length + pre.length + C.length + 2) ::
          (C ++ [jumpItem .tmplJmp 0, t'.item, t'.jump 0]))),
        ⟨A.length, A.length + pre.length + C.length + 3, .tmplIf⟩ :: st⟩ := by
  simp only [emit, if_true, elsePart_ofItems, add_ofItems, items_ofItems, List.append_assoc, List.cons_append,
    List.nil_append, List.length_append, List.length_cons, List.length_nil]
  congr 4
  omega

theorem emit_tmplEndif (A X : List PrgItem) (j : ℕ) (st : List StackItem) :
    emit ⟨.ofItems (A ++ X), ⟨A.length, j, .tmplIf⟩ :: st⟩ .tmplEndif =
      .ok ⟨.ofItems (A ++ X.map (PrgItem.patch (A.length + X.length))), st⟩ := by
  simp [emit, htmlTemplateCompileCommand, Prg.ofItems]

theorem emit_tmplEndwhile (I C : List PrgItem) (t : Test) (st : List StackItem) :
    emit ⟨.ofItems (I ++ t.item :: t.jump 0 :: C), ⟨I.length, I.length + 1, .tmplWhile⟩ :: st⟩ .tmplEndwhile =
      .ok ⟨.ofItems (I ++ t.item :: t.jump (I.length + 2 + C.length + 1) :: (C ++ [jumpItem .tmplJmp I.length])), st⟩ := by
  have hset := setJump_ofItems (I ++ [t.item]) (C ++ [jumpItem .tmplJmp I.length]) t (i := I.length + 1) (by simp)
    (I.length + 2 + C.length + 1)
  have hlen : (I ++ t.item :: t.jump 0 :: (C ++ [jumpItem .tmplJmp I.length])).length = I.length + 2 + C.length + 1 := by
    simp
    omega
  simp only [List.append_assoc, List.cons_append, List.nil_append] at hset
  simp only [emit, htmlTemplateCompileCommand, if_true, Prg.addJmp, add_ofItems, items_ofItems, List.append_assoc,
    List.cons_append, hlen, hset]

theorem emit_tmplEndfor (I C : List PrgItem) (c : Command) (j : ℕ) (st : List StackItem)
    (h : (I.length + 1 + C.length) % 64 ≠ 0) :
    emit ⟨.ofItems (I ++ c.item :: C), ⟨I.length + 1, j, .tmplFor⟩ :: st⟩ .tmplEndfor =
      .ok ⟨.ofItems (I ++ c.item :: (C ++ [c.inc.item, c.exceeds.item, c.exceeds.jump (I.length + 1)])), st⟩ := by
  have hmoves : (Prg.ofItems (I ++ c.item :: C)).moves = false := by
    simp only [moves_ofItems, List.length_append, List.length_cons, decide_eq_false_iff_not]
    omega
  simp only [emit, htmlTemplateCompileCommand, if_true, items_ofItems, Nat.add_sub_cancel, hmoves, Prg.addJmp, add_ofItems,
    List.getElem?_append_right le_rfl, Nat.sub_self, List.getElem?_cons_zero, Bool.false_eq_true, if_false,
    List.append_assoc, List.cons_append, List.nil_append]
  rfl

theorem patch_tmplIf (t : Test) (body : Block) (more : Branches) {p : ℕ} (hp : 0 < p) (q fin : ℕ) :
    (t.item :: t.jump (more.first q 0) :: (body.code p ++ more.code q 0)).map (PrgItem.patch fin) =
      t.item :: t.jump (more.first q fin) :: (body.code p ++ more.code q fin) := by
  simp only [List.map_cons, List.map_append, patch_test, patch_first, body.patch_code hp, more.patch_code]

mutual

/-- **A block** adds its code. -/
theorem Block.compile (I : List PrgItem) (st : List StackItem) (is : List Instr) :
    ∀ B : Block, EndforInPlace I.length B.instrs →
      emitAll ⟨.ofItems I, st⟩ (B.instrs ++ is) = emitAll ⟨.ofItems (I ++ B.code I.length), st⟩ is
  | .nil, _ => by simp [Block.instrs, Block.code]
  | .command c rest, h => by
    have hrest := rest.compile (I ++ [c.item]) st is (by simpa [Instr.size] using h.2)
    rw [Block.instrs, List.cons_append, emitAll_cons rfl, add_ofItems, hrest]
    simp [Block.code]
  | .tmplIf t body more rest, h => by
    simp only [Block.instrs, EndforInPlace, Instr.size, endforInPlace_append] at h
    obtain ⟨-, hbody, hmore, hrest⟩ := h
    have hb := body.compile (I ++ [t.item, t.jump 0]) (⟨I.length, I.length + 1, .tmplIf⟩ :: st)
      (more.instrs ++ (rest.instrs ++ is)) (by simpa using hbody)
    have hm := more.compile I [t.item] (body.code (I.length + 2)) t st (rest.instrs ++ is)
      (q := I.length + 2 + size body.instrs) (by simp [body.length_code]; omega) hmore
    have hr := rest.compile (I ++ (Block.tmplIf t body more .nil).code I.length) st is
      (by simpa [Block.length_code, Block.instrs, Instr.size, Nat.add_assoc] using hrest)
    rw [List.length_append, Block.length_code, List.append_assoc] at hr
    simp only [List.length_append, List.length_cons, List.length_nil, List.append_assoc, List.cons_append,
      List.nil_append] at hb hm
    rw [Block.instrs, List.cons_append, emitAll_cons (emit_tmplIf I st t), List.append_assoc, List.append_assoc, hb, hm,
      patch_tmplIf t body more (by omega)]
    simpa [Block.code, Block.instrs, Instr.size, Nat.add_assoc] using hr
  | .tmplWhile t body rest, h => by
    simp only [Block.instrs, EndforInPlace, Instr.size, endforInPlace_append] at h
    obtain ⟨-, hbody, -, hrest⟩ := h
    have hb := body.compile (I ++ [t.item, t.jump 0]) (⟨I.length, I.length + 1, .tmplWhile⟩ :: st)
      (.tmplEndwhile :: (rest.instrs ++ is)) (by simpa using hbody)
    have hw := emit_tmplEndwhile I (body.code (I.length + 2)) t st
    have hr := rest.compile (I ++ (Block.tmplWhile t body .nil).code I.length) st is
      (by simpa [Block.length_code, Block.instrs, Instr.size, Nat.add_assoc] using hrest)
    rw [List.length_append, Block.length_code, List.append_assoc] at hr
    simp only [List.length_append, List.length_cons, List.length_nil, List.append_assoc, List.cons_append,
      List.nil_append] at hb
    rw [Block.instrs, List.cons_append, emitAll_cons (emit_tmplWhile I st t), List.append_assoc, List.cons_append, hb,
      emitAll_cons hw, body.length_code]
    simpa [Block.code, Block.instrs, Instr.size, Nat.add_assoc] using hr
  | .tmplFor c body rest, h => by
    simp only [Block.instrs, EndforInPlace, Instr.size, endforInPlace_append] at h
    obtain ⟨-, hbody, hfor, hrest⟩ := h
    have hb := body.compile (I ++ [c.item]) (⟨I.length + 1, I.length + 2, .tmplFor⟩ :: st)
      (.tmplEndfor :: (rest.instrs ++ is)) (by simpa using hbody)
    have hf := emit_tmplEndfor I (body.code (I.length + 1)) c (I.length + 2) st
      (by simpa [body.length_code] using hfor)
    have hr := rest.compile (I ++ (Block.tmplFor c body .nil).code I.length) st is
      (by simpa [Block.length_code, Block.instrs, Instr.size, Nat.add_assoc] using hrest)
    rw [List.length_append, Block.length_code, List.append_assoc] at hr
    simp only [List.length_append, List.length_cons, List.length_nil, List.append_assoc, List.cons_append,
      List.nil_append] at hb
    rw [Block.instrs, List.cons_append, emitAll_cons (emit_tmplFor I st c), List.append_assoc, List.cons_append, hb,
      emitAll_cons hf]
    simpa [Block.code, Block.instrs, Instr.size, Nat.add_assoc] using hr

theorem Branches.compile (A pre C : List PrgItem) (t : Test) (st : List StackItem) (is : List Instr) {q : ℕ}
    (hq : A.length + pre.length + C.length + 1 = q) :
    ∀ more : Branches, EndforInPlace q more.instrs →
      emitAll ⟨.ofItems (A ++ (pre ++ t.jump 0 :: C)), ⟨A.length, A.length + pre.length, .tmplIf⟩ :: st⟩ (more.instrs ++ is) =
        emitAll ⟨.ofItems (A ++ (pre ++ t.jump (more.first q 0) :: (C ++ more.code q 0)).map
          (PrgItem.patch (q + size more.instrs))), st⟩ is
  | .tmplEndif, _ => by
    have hend := emit_tmplEndif A (pre ++ t.jump 0 :: C) (A.length + pre.length) st
    have hlen : A.length + (pre ++ t.jump 0 :: C).length = q := by
      simp
      omega
    rw [hlen] at hend
    rw [Branches.instrs, List.singleton_append, emitAll_cons hend]
    simp [Branches.code, Branches.first, Instr.size]
  | .tmplElse body, h => by
    simp only [Branches.instrs, EndforInPlace, Instr.size, endforInPlace_append] at h
    have he := emit_tmplElse A pre C t st
    rw [show A.length + pre.length + C.length + 2 = q + 1 by omega] at he
    have hb := body.compile (A ++ (pre ++ t.jump (q + 1) :: (C ++ [jumpItem .tmplJmp 0])))
      (⟨A.length, A.length + pre.length, .tmplIf⟩ :: st) (.tmplEndif :: is)
    have hlen : (A ++ (pre ++ t.jump (q + 1) :: (C ++ [jumpItem .tmplJmp 0]))).length = q + 1 := by
      simp
      omega
    have hend := emit_tmplEndif A (pre ++ t.jump (q + 1) :: (C ++ jumpItem .tmplJmp 0 :: body.code (q + 1)))
      (A.length + pre.length) st
    have hfin : A.length + (pre ++ t.jump (q + 1) :: (C ++ jumpItem .tmplJmp 0 :: body.code (q + 1))).length =
        q + size (Branches.tmplElse body).instrs := by
      simp [body.length_code, Branches.instrs, Instr.size]
      omega
    rw [hlen] at hb
    simp only [List.append_assoc, List.cons_append, List.nil_append] at hb
    rw [hfin] at hend
    rw [Branches.instrs, List.cons_append, emitAll_cons he, List.append_assoc, List.singleton_append, hb h.2.1,
      emitAll_cons hend]
    rfl
  | .tmplElseif t' body more, h => by
    simp only [Branches.instrs, EndforInPlace, Instr.size, endforInPlace_append] at h
    have he := emit_tmplElseif A pre C t t' st
    rw [show A.length + pre.length + C.length + 2 = q + 1 by omega] at he
    have hb := body.compile (A ++ (pre ++ t.jump (q + 1) :: (C ++ [jumpItem .tmplJmp 0, t'.item, t'.jump 0])))
      (⟨A.length, A.length + pre.length + C.length + 3, .tmplIf⟩ :: st) (more.instrs ++ is)
    have hlen : (A ++ (pre ++ t.jump (q + 1) :: (C ++ [jumpItem .tmplJmp 0, t'.item, t'.jump 0]))).length = q + 3 := by
      simp
      omega
    have hm := more.compile A (pre ++ t.jump (q + 1) :: (C ++ [jumpItem .tmplJmp 0, t'.item])) (body.code (q + 3)) t' st is
      (q := q + 3 + size body.instrs) (by simp [body.length_code]; omega) h.2.2
    rw [hlen] at hb
    rw [show A.length + (pre ++ t.jump (q + 1) :: (C ++ [jumpItem .tmplJmp 0, t'.item])).length =
      A.length + pre.length + C.length + 3 by simp; omega] at hm
    simp only [List.append_assoc, List.cons_append, List.nil_append] at hb hm
    rw [Branches.instrs, List.cons_append, emitAll_cons he, List.append_assoc, hb h.2.1, hm]
    simp [Branches.code, Branches.first, Instr.size, Nat.add_assoc]

end

/-! ### Where the jumps lead -/

mutual

theorem Block.jump_le (p : ℕ) {it : PrgItem} (hj : it.cmdnum.isJump) :
    ∀ B : Block, it ∈ B.code p → it.jump ≤ p + size B.instrs
  | .nil, hmem => by simp [Block.code] at hmem
  | .command c rest, hmem => by
    rcases List.mem_cons.1 hmem with rfl | hmem
    · exact absurd hj (by simp [c.not_jump])
    · have := rest.jump_le (p + 1) hj hmem
      simp only [Block.instrs, size_cons, Instr.size]
      omega
  | .tmplIf t body more rest, hmem => by
    simp only [Block.code, List.mem_cons, List.mem_append] at hmem
    simp only [Block.instrs, size_cons, size_append, Instr.size]
    rcases hmem with rfl | rfl | hmem | hmem | hmem
    · exact absurd hj (by simp [t.not_jump])
    · have := more.first_le (p + 2 + size body.instrs) (p + 2 + size body.instrs + size more.instrs)
      simp only [Test.jump, jumpItem]
      omega
    · have := body.jump_le _ hj hmem
      omega
    · have := more.jump_le _ _ hj hmem
      omega
    · have := rest.jump_le _ hj hmem
      omega
  | .tmplWhile t body rest, hmem => by
    simp only [Block.code, List.mem_cons, List.mem_append] at hmem
    simp only [Block.instrs, size_cons, size_append, Instr.size]
    rcases hmem with rfl | rfl | hmem | rfl | hmem
    · exact absurd hj (by simp [t.not_jump])
    · simp only [Test.jump, jumpItem]
      omega
    · have := body.jump_le _ hj hmem
      omega
    · simp only [jumpItem]
      omega
    · have := rest.jump_le _ hj hmem
      omega
  | .tmplFor c body rest, hmem => by
    simp only [Block.code, List.mem_cons, List.mem_append] at hmem
    simp only [Block.instrs, size_cons, size_append, Instr.size]
    rcases hmem with rfl | hmem | rfl | rfl | rfl | hmem
    · exact absurd hj (by simp [c.not_jump])
    · have := body.jump_le _ hj hmem
      omega
    · exact absurd hj (by simp [c.inc.not_jump])
    · exact absurd hj (by simp [c.exceeds.not_jump])
    · simp only [Test.jump, jumpItem]
      omega
    · have := rest.jump_le _ hj hmem
      omega

theorem Branches.jump_le (q fin : ℕ) {it : PrgItem} (hj : it.cmdnum.isJump) :
    ∀ more : Branches, it ∈ more.code q fin → it.jump ≤ max fin (q + size more.instrs)
  | .tmplEndif, hmem => by simp [Branches.code] at hmem
  | .tmplElse body, hmem => by
    simp only [Branches.instrs, size_cons, size_append, Instr.size]
    rcases List.mem_cons.1 hmem with rfl | hmem
    · simp only [jumpItem]
      omega
    · have := body.jump_le _ hj hmem
      omega
  | .tmplElseif t body more, hmem => by
    simp only [Branches.code, List.mem_cons, List.mem_append] at hmem
    simp only [Branches.instrs, size_cons, size_append, Instr.size]
    rcases hmem with rfl | rfl | rfl | hmem | hmem
    · simp only [jumpItem]
      omega
    · exact absurd hj (by simp [t.not_jump])
    · have := more.first_le (q + 3 + size body.instrs) fin
      simp only [Test.jump, jumpItem]
      omega
    · have := body.jump_le _ hj hmem
      omega
    · have := more.jump_le _ _ hj hmem
      omega

end

end MnoGoSearch.Template
