import MnoGoSearch.Template.Compile

/-!
# Accepted templates

A template that the compiler does not reject can be read as a block, if `ELSE` begins the last
branch of its condition. The compiler ends with a program if no `ENDFOR` makes it read an item of
memory that may have been given back.
-/

namespace MnoGoSearch.Template

/-! ### Steps of the compiler -/

/-- The memory is what the items need, and the first item of an open `FOR` is there. -/
structure CompileState.Ok (s : CompileState) : Prop where
  memory : s.prg = .ofItems s.prg.items
  loops : ∀ x ∈ s.st, x.cmd = .tmplFor → 0 < x.beg ∧ x.beg ≤ s.prg.items.length

/-- What an instruction opens or closes; the last of what is open is first. -/
def Instr.after : Instr → List Cmdnum → Option (List Cmdnum)
  | .command _, st => some st
  | .tmplIf _, st => some (.tmplIf :: st)
  | .tmplWhile _, st => some (.tmplWhile :: st)
  | .tmplFor _, st => some (.tmplFor :: st)
  | .tmplElseif _, .tmplIf :: st => some (.tmplIf :: st)
  | .tmplElse, .tmplIf :: st => some (.tmplIf :: st)
  | .tmplEndif, .tmplIf :: st => some st
  | .tmplEndwhile, .tmplWhile :: st => some st
  | .tmplEndfor, .tmplFor :: st => some st
  | _, _ => none

theorem setJump_ofItems_eq (items : List PrgItem) (i addr : ℕ) :
    (Prg.ofItems items).setJump i addr = .ofItems (items.modify i fun it => { it with jump := addr }) := by
  simp [Prg.setJump, Prg.ofItems]

variable {s s' : CompileState} {is : List Instr} {i : Instr}

theorem CompileState.Ok.of_le (hs : s.Ok) {items : List PrgItem} {st : List StackItem}
    (hlen : s.prg.items.length ≤ items.length)
    (hst : ∀ x ∈ st, x ∈ s.st ∨ (x.cmd = .tmplFor → 0 < x.beg ∧ x.beg ≤ items.length)) :
    (CompileState.mk (.ofItems items) st).Ok where
  memory := rfl
  loops x hx hfor := by
    rcases hst x hx with hx | hx
    · exact ⟨(hs.loops x hx hfor).1, (hs.loops x hx hfor).2.trans hlen⟩
    · exact hx hfor

theorem elsePart_ofItems_eq (I : List PrgItem) (st : List StackItem) (top : StackItem) :
    ∃ items : List PrgItem, (CompileState.mk (.ofItems I) st).elsePart top = .ofItems items ∧
      items.length = I.length + 1 := by
  refine ⟨(I ++ [jumpItem .tmplJmp 0]).modify top.jmp fun it => { it with jump := I.length + 1 }, ?_, by simp⟩
  simp [CompileState.elsePart, Prg.addJmp, setJump_ofItems_eq]

theorem patch_ofItems_eq (I : List PrgItem) (beg addr : ℕ) :
    ∃ items : List PrgItem,
      { Prg.ofItems I with items := I.take beg ++ (I.drop beg).map (PrgItem.patch addr) } = .ofItems items ∧
      items.length = I.length := by
  have hlen : (I.take beg ++ (I.drop beg).map (PrgItem.patch addr)).length = I.length := by
    simp
    omega
  exact ⟨_, by simp only [Prg.ofItems, hlen], hlen⟩

/-- **What an instruction does** when it is accepted. -/
theorem emit_ok (hs : s.Ok) (h : emit s i = .ok s') :
    s'.Ok ∧ s'.prg.items.length = s.prg.items.length + i.size ∧
      i.after (s.st.map StackItem.cmd) = some (s'.st.map StackItem.cmd) ∧
      (i = .tmplEndfor → s.prg.items.length % 64 ≠ 0) := by
  obtain ⟨prg, st⟩ := s
  obtain ⟨I, rfl⟩ : ∃ I, prg = .ofItems I := ⟨_, hs.memory⟩
  cases i with
  | command c =>
    cases h
    rw [add_ofItems]
    exact ⟨hs.of_le (by simp) fun x hx => .inl hx, by simp [Instr.size], rfl, by rintro ⟨⟩⟩
  | tmplIf t =>
    rw [emit_tmplIf] at h
    cases h
    refine ⟨hs.of_le (by simp) fun x hx => ?_, by simp [Instr.size], rfl, by rintro ⟨⟩⟩
    rcases List.mem_cons.1 hx with rfl | hx
    · exact .inr (by rintro ⟨⟩)
    · exact .inl hx
  | tmplWhile t =>
    rw [emit_tmplWhile] at h
    cases h
    refine ⟨hs.of_le (by simp) fun x hx => ?_, by simp [Instr.size], rfl, by rintro ⟨⟩⟩
    rcases List.mem_cons.1 hx with rfl | hx
    · exact .inr (by rintro ⟨⟩)
    · exact .inl hx
  | tmplFor c =>
    rw [emit_tmplFor] at h
    cases h
    refine ⟨hs.of_le (by simp) fun x hx => ?_, by simp [Instr.size], rfl, by rintro ⟨⟩⟩
    rcases List.mem_cons.1 hx with rfl | hx
    · exact .inr fun _ => ⟨Nat.succ_pos _, by simp⟩
    · exact .inl hx
  | tmplElseif t =>
    cases st with
    | nil => cases h
    | cons top st =>
      simp only [emit] at h
      split_ifs at h with htop
      obtain ⟨items, hitems, hlen⟩ := elsePart_ofItems_eq I (top :: st) top
      rw [hitems, add_ofItems, add_ofItems] at h
      cases h
      refine ⟨hs.of_le (by simp; omega) fun x hx => ?_, by simp [Instr.size, hlen], ?_, by rintro ⟨⟩⟩
      · rcases List.mem_cons.1 hx with rfl | hx
        · exact .inr fun hfor => absurd (htop.symm.trans hfor) (by rintro ⟨⟩)
        · exact .inl (List.mem_cons_of_mem _ hx)
      · simp [Instr.after, htop]
  | tmplElse =>
    cases st with
    | nil => cases h
    | cons top st =>
      simp only [emit, htmlTemplateCompileCommand] at h
      split_ifs at h with htop
      obtain ⟨items, hitems, hlen⟩ := elsePart_ofItems_eq I (top :: st) top
      rw [hitems] at h
      cases h
      refine ⟨hs.of_le (by simp; omega) fun x hx => .inl hx, by simp [Instr.size, hlen], ?_, by rintro ⟨⟩⟩
      simp [Instr.after, htop]
  | tmplEndif =>
    cases st with
    | nil => cases h
    | cons top st =>
      simp only [emit, htmlTemplateCompileCommand] at h
      split_ifs at h with htop
      obtain ⟨items, hitems, hlen⟩ := patch_ofItems_eq I top.beg I.length
      rw [items_ofItems, hitems] at h
      cases h
      refine ⟨hs.of_le (by simp [hlen]) fun x hx => .inl (List.mem_cons_of_mem _ hx), by simp [Instr.size, hlen], ?_, by rintro ⟨⟩⟩
      simp [Instr.after, htop]
  | tmplEndwhile =>
    cases st with
    | nil => cases h
    | cons top st =>
      simp only [emit, htmlTemplateCompileCommand] at h
      split_ifs at h with htop
      simp only [Prg.addJmp, add_ofItems, setJump_ofItems_eq] at h
      cases h
      refine ⟨hs.of_le (by simp) fun x hx => .inl (List.mem_cons_of_mem _ hx), by simp [Instr.size], ?_, by rintro ⟨⟩⟩
      simp [Instr.after, htop]
  | tmplEndfor =>
    cases st with
    | nil => cases h
    | cons top st =>
      simp only [emit, htmlTemplateCompileCommand] at h
      by_cases htop : top.cmd = .tmplFor
      · rw [if_pos htop] at h
        cases hitem : (Prg.ofItems I).items[top.beg - 1]? with
        | none =>
          simp only [hitem] at h
          cases h
        | some FromItem =>
          cases hmoves : (Prg.ofItems I).moves with
          | true =>
            simp only [hitem, hmoves, if_true] at h
            cases h
          | false =>
            simp only [hitem, hmoves, Bool.false_eq_true, if_false, Prg.addJmp, add_ofItems, Except.ok.injEq] at h
            subst h
            rw [moves_ofItems, decide_eq_false_iff_not] at hmoves
            refine ⟨hs.of_le (by simp) fun x hx => .inl (List.mem_cons_of_mem _ hx), by simp [Instr.size], ?_,
              fun _ => hmoves⟩
            simp [Instr.after, htop]
      · rw [if_neg htop] at h
        cases h

theorem emit_undefined (hs : s.Ok) (h : emit s i = .error .undefined) :
    i = .tmplEndfor ∧ s.prg.items.length % 64 = 0 := by
  obtain ⟨prg, st⟩ := s
  obtain ⟨I, rfl⟩ : ∃ I, prg = .ofItems I := ⟨_, hs.memory⟩
  cases i with
  | command c => cases h
  | tmplIf t => cases h
  | tmplWhile t => cases h
  | tmplFor c => cases h
  | tmplElseif t =>
    cases st with
    | nil => cases h
    | cons top st =>
      simp only [emit] at h
      split_ifs at h <;> cases h
  | tmplElse =>
    cases st with
    | nil => cases h
    | cons top st =>
      simp only [emit, htmlTemplateCompileCommand] at h
      split_ifs at h
      cases h
  | tmplEndif =>
    cases st with
    | nil => cases h
    | cons top st =>
      simp only [emit, htmlTemplateCompileCommand] at h
      split_ifs at h
      cases h
  | tmplEndwhile =>
    cases st with
    | nil => cases h
    | cons top st =>
      simp only [emit, htmlTemplateCompileCommand] at h
      split_ifs at h
      cases h
  | tmplEndfor =>
    cases st with
    | nil => cases h
    | cons top st =>
      simp only [emit, htmlTemplateCompileCommand] at h
      by_cases htop : top.cmd = .tmplFor
      · rw [if_pos htop] at h
        obtain ⟨hpos, hle⟩ := hs.loops top (List.mem_cons_self ..) htop
        have hlt : top.beg - 1 < (Prg.ofItems I).items.length := by
          simp only at hle
          omega
        have hitem := List.getElem?_eq_getElem hlt
        cases hmoves : (Prg.ofItems I).moves with
        | false =>
          simp only [hitem, hmoves, Bool.false_eq_true, if_false] at h
          cases h
        | true => exact ⟨rfl, by simpa using hmoves⟩
      · rw [if_neg htop] at h
        cases h

theorem emitAll_ok (hs : s.Ok) (h : emitAll s is = .ok s') : EndforInPlace s.prg.items.length is := by
  induction is generalizing s with
  | nil => trivial
  | cons i is ih =>
    rw [emitAll] at h
    cases hi : emit s i with
    | error e => rw [hi] at h; cases h
    | ok s1 =>
      rw [hi] at h
      obtain ⟨hs1, hlen, -, hfor⟩ := emit_ok hs hi
      exact ⟨hfor, hlen ▸ ih hs1 h⟩

theorem emitAll_undefined (hs : s.Ok) (h : emitAll s is = .error .undefined) :
    ¬EndforInPlace s.prg.items.length is := by
  induction is generalizing s with
  | nil => cases h
  | cons i is ih =>
    rw [emitAll] at h
    rintro ⟨hfor, hrest⟩
    cases hi : emit s i with
    | error e =>
      rw [hi] at h
      cases h
      obtain ⟨heq, hlen⟩ := emit_undefined hs hi
      exact hfor heq hlen
    | ok s1 =>
      rw [hi] at h
      obtain ⟨hs1, hlen, -, -⟩ := emit_ok hs hi
      exact ih hs1 h (hlen ▸ hrest)

/-! ### Reading -/

/-- What is open in a template; a condition may have its last branch. -/
inductive Open
  | tmplIf (elseSeen : Bool)
  | tmplWhile
  | tmplFor

/-- The command that opened it. -/
def Open.cmd : Open → Cmdnum
  | .tmplIf _ => .tmplIf
  | .tmplWhile => .tmplWhile
  | .tmplFor => .tmplFor

/-- `ELSE` begins the last branch of its condition. -/
def ElseLast : List Open → List Instr → Prop
  | _, [] => True
  | st, .tmplIf _ :: is => ElseLast (.tmplIf false :: st) is
  | st, .tmplWhile _ :: is => ElseLast (.tmplWhile :: st) is
  | st, .tmplFor _ :: is => ElseLast (.tmplFor :: st) is
  | .tmplIf elseSeen :: st, .tmplElseif _ :: is => elseSeen = false ∧ ElseLast (.tmplIf false :: st) is
  | .tmplIf elseSeen :: st, .tmplElse :: is => elseSeen = false ∧ ElseLast (.tmplIf true :: st) is
  | _ :: st, .tmplEndif :: is => ElseLast st is
  | _ :: st, .tmplEndwhile :: is => ElseLast st is
  | _ :: st, .tmplEndfor :: is => ElseLast st is
  | st, _ :: is => ElseLast st is

/-- Instructions can be read as the rest of what is open, and a block behind it. -/
def Reads : List Open → List Instr → Prop
  | [], is => ∃ B : Block, is = B.instrs
  | .tmplIf false :: st, is => ∃ (B : Block) (more : Branches) (is' : List Instr),
      is = B.instrs ++ (more.instrs ++ is') ∧ Reads st is'
  | .tmplIf true :: st, is => ∃ (B : Block) (is' : List Instr), is = B.instrs ++ .tmplEndif :: is' ∧ Reads st is'
  | .tmplWhile :: st, is => ∃ (B : Block) (is' : List Instr), is = B.instrs ++ .tmplEndwhile :: is' ∧ Reads st is'
  | .tmplFor :: st, is => ∃ (B : Block) (is' : List Instr), is = B.instrs ++ .tmplEndfor :: is' ∧ Reads st is'

theorem Reads.prepend {st : List Open} (pre : List Instr) (f : Block → Block)
    (hf : ∀ B, (f B).instrs = pre ++ B.instrs) (h : Reads st is) : Reads st (pre ++ is) := by
  match st, h with
  | [], ⟨B, hB⟩ => exact ⟨f B, by rw [hf, hB]⟩
  | .tmplIf false :: st, ⟨B, more, is', hB, h⟩ => exact ⟨f B, more, is', by rw [hf, hB, List.append_assoc], h⟩
  | .tmplIf true :: st, ⟨B, is', hB, h⟩ => exact ⟨f B, is', by rw [hf, hB, List.append_assoc], h⟩
  | .tmplWhile :: st, ⟨B, is', hB, h⟩ => exact ⟨f B, is', by rw [hf, hB, List.append_assoc], h⟩
  | .tmplFor :: st, ⟨B, is', hB, h⟩ => exact ⟨f B, is', by rw [hf, hB, List.append_assoc], h⟩

/-- **An accepted template can be read.** -/
theorem reads_of_emitAll {s s' : CompileState} {is : List Instr} {st : List Open} (hs : s.Ok)
    (hst : st.map Open.cmd = s.st.map StackItem.cmd) (helse : ElseLast st is) (h : emitAll s is = .ok s')
    (hend : s'.st = []) : Reads st is := by
  induction is generalizing s st with
  | nil =>
    cases h
    rw [hend, List.map_nil, List.map_eq_nil_iff] at hst
    subst hst
    exact ⟨.nil, rfl⟩
  | cons i is ih =>
    rw [emitAll] at h
    cases hi : emit s i with
    | error e => rw [hi] at h; cases h
    | ok s1 =>
      rw [hi] at h
      obtain ⟨hs1, -, hafter, -⟩ := emit_ok hs hi
      rw [← hst] at hafter
      -- what is read behind the instruction
      have hrest : ∀ st1 : List Open, i.after (st.map Open.cmd) = some (st1.map Open.cmd) → ElseLast st1 is →
          Reads st1 is := fun st1 hst1 helse1 => ih hs1 (Option.some.inj (hst1.symm.trans hafter)) helse1 h
      cases i with
      | command c => exact (hrest st rfl helse).prepend [.command c] (Block.command c) fun B => rfl
      | tmplIf t =>
        obtain ⟨B, more, is', rfl, h'⟩ := hrest (.tmplIf false :: st) rfl helse
        have hread := h'.prepend (.tmplIf t :: (B.instrs ++ more.instrs)) (Block.tmplIf t B more)
          fun rest => by simp [Block.instrs]
        simpa using hread
      | tmplWhile t =>
        obtain ⟨B, is', rfl, h'⟩ := hrest (.tmplWhile :: st) rfl helse
        have hread := h'.prepend (.tmplWhile t :: (B.instrs ++ [.tmplEndwhile])) (Block.tmplWhile t B)
          fun rest => by simp [Block.instrs]
        simpa using hread
      | tmplFor c =>
        obtain ⟨B, is', rfl, h'⟩ := hrest (.tmplFor :: st) rfl helse
        have hread := h'.prepend (.tmplFor c :: (B.instrs ++ [.tmplEndfor])) (Block.tmplFor c B)
          fun rest => by simp [Block.instrs]
        simpa using hread
      | tmplElseif t =>
        rcases st with _ | ⟨⟨_ | _⟩ | _ | _, st⟩
        · cases hafter
        · obtain ⟨B, more, is', rfl, h'⟩ := hrest (.tmplIf false :: st) rfl helse.2
          exact ⟨.nil, .tmplElseif t B more, is', by simp [Block.instrs, Branches.instrs], h'⟩
        · exact Bool.noConfusion helse.1
        · cases hafter
        · cases hafter
      | tmplElse =>
        rcases st with _ | ⟨⟨_ | _⟩ | _ | _, st⟩
        · cases hafter
        · obtain ⟨B, is', rfl, h'⟩ := hrest (.tmplIf true :: st) rfl helse.2
          exact ⟨.nil, .tmplElse B, is', by simp [Block.instrs, Branches.instrs], h'⟩
        · exact Bool.noConfusion helse.1
        · cases hafter
        · cases hafter
      | tmplEndif =>
        rcases st with _ | ⟨⟨_ | _⟩ | _ | _, st⟩
        · cases hafter
        · exact ⟨.nil, .tmplEndif, is, rfl, hrest st rfl helse⟩
        · exact ⟨.nil, is, rfl, hrest st rfl helse⟩
        · cases hafter
        · cases hafter
      | tmplEndwhile =>
        rcases st with _ | ⟨_ | _ | _, st⟩
        · cases hafter
        · cases hafter
        · exact ⟨.nil, is, rfl, hrest st rfl helse⟩
        · cases hafter
      | tmplEndfor =>
        rcases st with _ | ⟨_ | _ | _, st⟩
        · cases hafter
        · cases hafter
        · cases hafter
        · exact ⟨.nil, is, rfl, hrest st rfl helse⟩

end MnoGoSearch.Template
