import MnoGoSearch.Template.Meaning

/-!
# The grammar of templates

A template is in the grammar if it reads as a block: every condition and loop is closed by its own command, and nothing but
the end of the condition follows its `ELSE`. `acceptsGrammar_iff` says when the compiler accepts these templates and
reports an error for all others.
-/

namespace MnoGoSearch.Template

/-! ### What is wanted -/

/-- The template is in the grammar. -/
def InGrammar (tokens : List Token) : Prop := ∃ B : Block, B.instrs = tokens.map Token.instr

/-- **The compiler accepts exactly its grammar**: it ends with a program for a template that is in the grammar, and reports
an error for any other. -/
def AcceptsGrammar (tokens : List Token) : Prop :=
  ((∃ prg, htmlTemplateCompile tokens = .ok prg) ↔ InGrammar tokens) ∧
    (¬InGrammar tokens → ∃ errstr, htmlTemplateCompile tokens = .error (.template errstr))

/-! ### What is open -/

/-- What some instructions open and close, nothing if one of them closes what is not open. -/
def afterAll : List Cmdnum → List Instr → Option (List Cmdnum)
  | st, [] => some st
  | st, i :: is => (i.after st).bind fun st => afterAll st is

/-- As long as the instructions close what is open, no `ENDFOR` reads the first item of its loop when memory is
allocated. -/
def EndforReached (n : ℕ) : List Cmdnum → List Instr → Prop
  | _, [] => True
  | st, i :: is =>
    ∀ st', i.after st = some st' → (i = .tmplEndfor → n % 64 ≠ 0) ∧ EndforReached (n + i.size) st' is

/-- Every condition and loop is closed by its own command. -/
def Nested (is : List Instr) : Prop := afterAll [] is = some []

theorem afterAll_append (st : List Cmdnum) (is is' : List Instr) :
    afterAll st (is ++ is') = (afterAll st is).bind fun st => afterAll st is' := by
  induction is generalizing st with
  | nil => rfl
  | cons i is ih =>
    rw [List.cons_append, afterAll, afterAll, Option.bind_assoc]
    simp only [ih]

/-! ### Steps of the compiler -/

theorem emit_template {s : CompileState} {i : Instr} {errstr : String} (h : emit s i = .error (.template errstr)) :
    i.after (s.st.map StackItem.cmd) = none := by
  obtain ⟨prg, st⟩ := s
  cases i with
  | command c => cases h
  | tmplIf t => cases h
  | tmplWhile t => cases h
  | tmplFor c => cases h
  | tmplElseif t =>
    cases st with
    | nil => rfl
    | cons top st =>
      simp only [emit] at h
      split_ifs at h with htop
      all_goals
        obtain ⟨beg, jmp, cmd⟩ := top
        cases cmd <;> first | rfl | exact absurd rfl htop
  | tmplElse =>
    cases st with
    | nil => rfl
    | cons top st =>
      simp only [emit, htmlTemplateCompileCommand] at h
      split_ifs at h with htop
      obtain ⟨beg, jmp, cmd⟩ := top
      cases cmd <;> first | rfl | exact absurd rfl htop
  | tmplEndif =>
    cases st with
    | nil => rfl
    | cons top st =>
      simp only [emit, htmlTemplateCompileCommand] at h
      split_ifs at h with htop
      obtain ⟨beg, jmp, cmd⟩ := top
      cases cmd <;> first | rfl | exact absurd rfl htop
  | tmplEndwhile =>
    cases st with
    | nil => rfl
    | cons top st =>
      simp only [emit, htmlTemplateCompileCommand] at h
      split_ifs at h with htop
      obtain ⟨beg, jmp, cmd⟩ := top
      cases cmd <;> first | rfl | exact absurd rfl htop
  | tmplEndfor =>
    cases st with
    | nil => rfl
    | cons top st =>
      simp only [emit, htmlTemplateCompileCommand] at h
      by_cases htop : top.cmd = .tmplFor
      · rw [if_pos htop] at h
        split at h
        · cases h
        · split_ifs at h
          cases h
      · obtain ⟨beg, jmp, cmd⟩ := top
        cases cmd <;> first | rfl | exact absurd rfl htop

theorem after_of_undefined {s : CompileState} (h : emit s .tmplEndfor = .error .undefined) :
    ∃ st, Instr.tmplEndfor.after (s.st.map StackItem.cmd) = some st := by
  obtain ⟨prg, st⟩ := s
  cases st with
  | nil => cases h
  | cons top st =>
    simp only [emit, htmlTemplateCompileCommand] at h
    by_cases htop : top.cmd = .tmplFor
    · exact ⟨st.map StackItem.cmd, by simp [Instr.after, htop]⟩
    · rw [if_neg htop] at h
      cases h

/-- **What the compiler does with a template.** -/
theorem emitAll_cases {s : CompileState} (hs : s.Ok) (is : List Instr) :
    (EndforReached s.prg.items.length (s.st.map StackItem.cmd) is ∧
      ((∃ s', emitAll s is = .ok s' ∧ afterAll (s.st.map StackItem.cmd) is = some (s'.st.map StackItem.cmd)) ∨
        (∃ errstr, emitAll s is = .error (.template errstr)) ∧ afterAll (s.st.map StackItem.cmd) is = none)) ∨
      ¬EndforReached s.prg.items.length (s.st.map StackItem.cmd) is ∧ emitAll s is = .error .undefined := by
  induction is generalizing s with
  | nil => exact Or.inl ⟨trivial, Or.inl ⟨s, rfl, rfl⟩⟩
  | cons i is ih =>
    rw [emitAll, EndforReached, afterAll]
    cases hi : emit s i with
    | ok s' =>
      obtain ⟨hs', hlen, hafter, hfor⟩ := emit_ok hs hi
      have hrest := ih hs'
      rw [hlen] at hrest
      have hiff : (∀ st', i.after (s.st.map StackItem.cmd) = some st' →
          (i = .tmplEndfor → s.prg.items.length % 64 ≠ 0) ∧ EndforReached (s.prg.items.length + i.size) st' is) ↔
          EndforReached (s.prg.items.length + i.size) (s'.st.map StackItem.cmd) is := by
        constructor
        · exact fun h => (h _ hafter).2
        · intro h st' hst'
          rw [hafter, Option.some.injEq] at hst'
          exact ⟨hfor, hst' ▸ h⟩
      rw [hiff, hafter, Option.bind_some]
      exact hrest
    | error e =>
      cases e with
      | template errstr =>
        have hnone := emit_template hi
        rw [hnone]
        exact Or.inl ⟨fun _ h => absurd h (by simp), Or.inr ⟨⟨errstr, rfl⟩, rfl⟩⟩
      | undefined =>
        obtain ⟨rfl, hmod⟩ := emit_undefined hs hi
        obtain ⟨st, hst⟩ := after_of_undefined hi
        exact Or.inr ⟨fun h => (h st hst).1 rfl hmod, rfl⟩

theorem htmlTemplateCompile_cases (tokens : List Token) :
    (EndforReached 0 [] (tokens.map Token.instr) ∧
      ((∃ prg, htmlTemplateCompile tokens = .ok prg) ∧ Nested (tokens.map Token.instr) ∨
        (∃ errstr, htmlTemplateCompile tokens = .error (.template errstr)) ∧ ¬Nested (tokens.map Token.instr))) ∨
      ¬EndforReached 0 [] (tokens.map Token.instr) ∧ htmlTemplateCompile tokens = .error .undefined := by
  have h := emitAll_cases ok_nil (tokens.map Token.instr)
  rw [htmlTemplateCompile, htmlTemplateCompileTokens_eq, Nested]
  rcases h with ⟨hfor, ⟨s, hs, hafter⟩ | ⟨⟨errstr, herr⟩, hafter⟩⟩ | ⟨hfor, hundef⟩
  · refine Or.inl ⟨hfor, ?_⟩
    rw [List.map_nil] at hafter
    rw [hs, hafter, Option.some.injEq, List.map_eq_nil_iff]
    simp only
    cases hst : s.st with
    | nil => exact Or.inl ⟨⟨s.prg, rfl⟩, rfl⟩
    | cons top st =>
      refine Or.inr ⟨?_, List.cons_ne_nil _ _⟩
      simp only [missing]
      split <;> exact ⟨_, rfl⟩
  · rw [List.map_nil] at hafter
    rw [herr, hafter]
    exact Or.inl ⟨hfor, Or.inr ⟨⟨errstr, rfl⟩, by simp⟩⟩
  · exact Or.inr ⟨hfor, by rw [hundef]⟩

/-! ### Blocks -/

mutual

theorem Block.afterAll_instrs (st : List Cmdnum) : ∀ B : Block, afterAll st B.instrs = some st
  | .nil => rfl
  | .command c rest => rest.afterAll_instrs st
  | .tmplIf t body more rest => by
    rw [Block.instrs, afterAll, Instr.after, Option.bind_some, afterAll_append, body.afterAll_instrs, Option.bind_some,
      afterAll_append, more.afterAll_instrs, Option.bind_some, rest.afterAll_instrs]
  | .tmplWhile t body rest => by
    rw [Block.instrs, afterAll, Instr.after, Option.bind_some, afterAll_append, body.afterAll_instrs, Option.bind_some,
      afterAll, Instr.after, Option.bind_some, rest.afterAll_instrs]
  | .tmplFor c body rest => by
    rw [Block.instrs, afterAll, Instr.after, Option.bind_some, afterAll_append, body.afterAll_instrs, Option.bind_some,
      afterAll, Instr.after, Option.bind_some, rest.afterAll_instrs]

theorem Branches.afterAll_instrs (st : List Cmdnum) :
    ∀ more : Branches, afterAll (.tmplIf :: st) more.instrs = some st
  | .tmplEndif => rfl
  | .tmplElse body => by
    rw [Branches.instrs, afterAll, Instr.after, Option.bind_some, afterAll_append, body.afterAll_instrs, Option.bind_some]
    rfl
  | .tmplElseif t body more => by
    rw [Branches.instrs, afterAll, Instr.after, Option.bind_some, afterAll_append, body.afterAll_instrs, Option.bind_some,
      more.afterAll_instrs]

end

mutual

theorem Block.elseLast_instrs (st : List Open) (is : List Instr) (h : ElseLast st is) :
    ∀ B : Block, ElseLast st (B.instrs ++ is)
  | .nil => h
  | .command c rest => by
    have hrest := rest.elseLast_instrs st is h
    cases st with
    | nil => exact hrest
    | cons top st => cases top <;> exact hrest
  | .tmplIf t body more rest => by
    rw [Block.instrs, List.cons_append, List.append_assoc, List.append_assoc]
    have hmore := more.elseLast_instrs st _ (rest.elseLast_instrs st is h)
    exact body.elseLast_instrs (.tmplIf false :: st) _ hmore
  | .tmplWhile t body rest => by
    rw [Block.instrs, List.cons_append, List.append_assoc, List.cons_append]
    have hrest : ElseLast (.tmplWhile :: st) (.tmplEndwhile :: (rest.instrs ++ is)) := rest.elseLast_instrs st is h
    exact body.elseLast_instrs (.tmplWhile :: st) _ hrest
  | .tmplFor c body rest => by
    rw [Block.instrs, List.cons_append, List.append_assoc, List.cons_append]
    have hrest : ElseLast (.tmplFor :: st) (.tmplEndfor :: (rest.instrs ++ is)) := rest.elseLast_instrs st is h
    exact body.elseLast_instrs (.tmplFor :: st) _ hrest

theorem Branches.elseLast_instrs (st : List Open) (is : List Instr) (h : ElseLast st is) :
    ∀ more : Branches, ElseLast (.tmplIf false :: st) (more.instrs ++ is)
  | .tmplEndif => h
  | .tmplElse body => by
    rw [Branches.instrs, List.cons_append, List.append_assoc]
    have hend : ElseLast (.tmplIf true :: st) (.tmplEndif :: is) := h
    exact ⟨rfl, body.elseLast_instrs (.tmplIf true :: st) _ hend⟩
  | .tmplElseif t body more => by
    rw [Branches.instrs, List.cons_append, List.append_assoc]
    exact ⟨rfl, body.elseLast_instrs (.tmplIf false :: st) _ (more.elseLast_instrs st is h)⟩

end

/-! ### The grammar -/

/-- **The compiler accepts exactly its grammar** if no `ENDFOR` reads the first item of its loop when memory is allocated,
and no condition that is closed has something else than its end behind an `ELSE`. -/
theorem acceptsGrammar_iff (tokens : List Token) :
    AcceptsGrammar tokens ↔
      EndforReached 0 [] (tokens.map Token.instr) ∧
        (Nested (tokens.map Token.instr) → ElseLast [] (tokens.map Token.instr)) := by
  have hgrammar : InGrammar tokens → Nested (tokens.map Token.instr) ∧ ElseLast [] (tokens.map Token.instr) := by
    rintro ⟨B, hB⟩
    have helse := B.elseLast_instrs [] [] trivial
    rw [List.append_nil] at helse
    exact ⟨hB ▸ B.afterAll_instrs [], hB ▸ helse⟩
  rw [AcceptsGrammar]
  rcases htmlTemplateCompile_cases tokens with ⟨hfor, ⟨⟨prg, hprg⟩, hnested⟩ | ⟨⟨errstr, herr⟩, hnested⟩⟩ | ⟨hfor, hundef⟩
  · constructor
    · exact fun h => ⟨hfor, fun _ => (hgrammar (h.1.1 ⟨prg, hprg⟩)).2⟩
    · rintro ⟨-, helse⟩
      have hin : InGrammar tokens := exists_block hprg (helse hnested)
      exact ⟨iff_of_true ⟨prg, hprg⟩ hin, fun hnot => absurd hin hnot⟩
  · have hnot : ¬InGrammar tokens := fun hin => hnested (hgrammar hin).1
    refine iff_of_true ⟨iff_of_false ?_ hnot, fun _ => ⟨errstr, herr⟩⟩ ⟨hfor, fun h => absurd h hnested⟩
    rintro ⟨prg, hprg⟩
    rw [herr] at hprg
    cases hprg
  · refine iff_of_false ?_ fun h => hfor h.1
    rintro ⟨hiff, hnot⟩
    by_cases hin : InGrammar tokens
    · obtain ⟨prg, hprg⟩ := hiff.2 hin
      rw [hundef] at hprg
      cases hprg
    · obtain ⟨errstr, herr⟩ := hnot hin
      rw [hundef] at herr
      cases herr

/-- A condition with two `ELSE` is accepted. -/
theorem not_acceptsGrammar : ¬∀ tokens, AcceptsGrammar tokens := by
  intro h
  have hprg : ∃ prg, htmlTemplateCompile [ifToken, nameToken "ELSE", nameToken "ELSE", nameToken "ENDIF"] = .ok prg :=
    ⟨_, rfl⟩
  obtain ⟨B, hB⟩ := (h [ifToken, nameToken "ELSE", nameToken "ELSE", nameToken "ENDIF"]).1.1 hprg
  have helse := B.elseLast_instrs [] [] trivial
  rw [List.append_nil, hB] at helse
  exact absurd helse.2.1 (by decide)

end MnoGoSearch.Template
