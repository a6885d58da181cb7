import MnoGoSearch.Lib.Machine
import MnoGoSearch.Template.Accepted

/-!
# The meaning of a template

A compiled template is executed as it reads: the program executes the same commands on the same
variables in the same order, whether it ends or not.
-/

namespace MnoGoSearch.Template

open Lib.Machine

variable {σ : Type*} {prg : Prg} {tokens : List Token} {p : ℕ} {it : PrgItem}

/-! ### Placed code -/

/-- These items are in a program at some place. -/
def CodeAt (items : List PrgItem) (p : ℕ) (code : List PrgItem) : Prop := ∃ post, items.drop p = code ++ post

theorem CodeAt.head {items code : List PrgItem} (h : CodeAt items p (it :: code)) : items[p]? = some it := by
  obtain ⟨post, h⟩ := h
  rw [← List.head?_drop, h]
  rfl

theorem CodeAt.tail {items code : List PrgItem} (h : CodeAt items p (it :: code)) : CodeAt items (p + 1) code := by
  obtain ⟨post, h⟩ := h
  exact ⟨post, by rw [← List.tail_drop, h]; rfl⟩

theorem CodeAt.left {items code code' : List PrgItem} (h : CodeAt items p (code ++ code')) : CodeAt items p code := by
  obtain ⟨post, h⟩ := h
  exact ⟨code' ++ post, by rw [h, List.append_assoc]⟩

theorem CodeAt.right {items code code' : List PrgItem} (h : CodeAt items p (code ++ code')) :
    CodeAt items (p + code.length) code' := by
  obtain ⟨post, h⟩ := h
  exact ⟨post, by rw [← List.drop_drop, h, List.append_assoc, List.drop_left]⟩

/-! ### Steps of a program -/

section

variable {host : Host σ} {items : List PrgItem} {c : RunState σ} {x : Execution σ} {a : ℕ} {t : Test}

variable (host) in
theorem step_command {c : Command} (h : items[p]? = some c.item) (reg : Bool) (s : σ) :
    printHtmlTemplateStep host items ⟨p, reg, s⟩ = some (some (c.item, s), ⟨p + 1, reg, c.run host s⟩) := by
  have hjump := c.not_jump
  have hne := c.exec_ne
  simp only [printHtmlTemplateStep, h]
  split
  · next hn => simp [hn, Cmdnum.isJump] at hjump
  · next hn => simp [hn, Cmdnum.isJump] at hjump
  · next hn => simp [hn, Cmdnum.isJump] at hjump
  · rw [c.exec_eq]
    split
    · next he => cases he
    · next he => exact absurd (Option.some.inj he) hne
    · next e _ he =>
      obtain rfl := Option.some.inj he
      rfl

theorem step_test (h : items[p]? = some t.item) (reg : Bool) (s : σ) :
    printHtmlTemplateStep host items ⟨p, reg, s⟩ =
      some (some (t.item, s), ⟨p + 1, (templateCompare host t.item s).2, (templateCompare host t.item s).1⟩) := by
  have hjump := t.not_jump
  simp only [printHtmlTemplateStep, h]
  split
  · next hn => simp [hn, Cmdnum.isJump] at hjump
  · next hn => simp [hn, Cmdnum.isJump] at hjump
  · next hn => simp [hn, Cmdnum.isJump] at hjump
  · rw [t.exec_eq]

theorem step_jump (h : items[p]? = some (t.jump a)) (reg : Bool) (s : σ) :
    printHtmlTemplateStep host items ⟨p, reg, s⟩ =
      some (none, ⟨if reg == t.negated then p + 1 else a, reg, s⟩) := by
  simp only [printHtmlTemplateStep, h, Test.jump, jumpItem]
  cases t.negated <;> cases reg <;> rfl

variable (host) in
theorem step_jmp (h : items[p]? = some (jumpItem .tmplJmp a)) (reg : Bool) (s : σ) :
    printHtmlTemplateStep host items ⟨p, reg, s⟩ = some (none, ⟨a, reg, s⟩) := by
  simp only [printHtmlTemplateStep, h, jumpItem]

variable (host) in
theorem steps_test (h : items[p]? = some t.item) (h' : items[p + 1]? = some (t.jump a)) (reg : Bool)
    (s : σ) : ∃ reg', Steps (printHtmlTemplateStep host items) 2 ⟨p, reg, s⟩ [(t.item, s)]
      ⟨if (t.run host s).2 then p + 2 else a, reg', (t.run host s).1⟩ :=
  ⟨_, .event (step_test h reg s) (.silent (step_jump h' _ _) (.zero _))⟩

/-! ### The program follows the template -/

/-- A program does from a state what an execution does, and then is at some place. If the execution
has not ended, the program has taken so many steps. -/
def Follows (host : Host σ) (items : List PrgItem) (m : ℕ) (c : RunState σ) (q : ℕ) (x : Execution σ) : Prop :=
  match x.2 with
  | some s' => ∃ k reg', Steps (printHtmlTemplateStep host items) k c x.1 ⟨q, reg', s'⟩
  | none => ∃ k c', m ≤ 2 * k ∧ Steps (printHtmlTemplateStep host items) k c x.1 c'

theorem Follows.steps {m m' j q : ℕ} {c1 : RunState σ} {T : List (Event σ)}
    (h : Steps (printHtmlTemplateStep host items) j c T c1) (hx : Follows host items m c1 q x) (hm : m' ≤ m + 2 * j) :
    Follows host items m' c q (x.after T) := by
  obtain ⟨T', o⟩ := x
  cases o with
  | some s' =>
    obtain ⟨k, reg', hk⟩ := hx
    exact ⟨j + k, reg', h.trans hk⟩
  | none =>
    obtain ⟨k, c', hle, hk⟩ := hx
    exact ⟨j + k, c', by omega, h.trans hk⟩

theorem Follows.andThen {m q q' : ℕ} {c : RunState σ} {x : Execution σ} {f : σ → Execution σ}
    (hx : Follows host items m c q x) (hf : ∀ reg' s', Follows host items m ⟨q, reg', s'⟩ q' (f s')) :
    Follows host items m c q' (x.andThen f) := by
  obtain ⟨T, o⟩ := x
  cases o with
  | some s' =>
    obtain ⟨k, reg', hk⟩ := hx
    exact (hf reg' s').steps hk (by omega)
  | none => exact hx

theorem Follows.jmp {m q : ℕ} (hx : Follows host items m c q x)
    (h : items[q]? = some (jumpItem .tmplJmp a)) : Follows host items m c a x := by
  obtain ⟨T, o⟩ := x
  cases o with
  | some s' =>
    obtain ⟨k, reg', hk⟩ := hx
    have hone := Steps.silent (step_jmp host h reg' s') (.zero _)
    exact ⟨k + 1, reg', by simpa using hk.trans hone⟩
  | none => exact hx

theorem Follows.jmp_or_eq {m q : ℕ} (hx : Follows host items m c q x)
    (h : q = a ∨ items[q]? = some (jumpItem .tmplJmp a)) : Follows host items m c a x := by
  rcases h with rfl | h
  · exact hx
  · exact hx.jmp h

/-- **The branch** that is executed, and where the program is when it begins. -/
theorem select_steps (host : Host σ) {items : List PrgItem} {fin : ℕ} :
    ∀ (more : Branches) (t : Test) (body : Block) (p : ℕ) (reg : Bool) (s : σ),
      p + 2 + size body.instrs + size more.instrs = fin →
      CodeAt items p (t.item :: t.jump (more.first (p + 2 + size body.instrs) fin) ::
        (body.code (p + 2) ++ more.code (p + 2 + size body.instrs) fin)) →
      ∃ k p' reg', Steps (printHtmlTemplateStep host items) (k + 1) ⟨p, reg, s⟩
          ((Branches.tmplElseif t body more).select host s).1
          ⟨p', reg', ((Branches.tmplElseif t body more).select host s).2.1⟩ ∧
        CodeAt items p' (((Branches.tmplElseif t body more).select host s).2.2.code p') ∧
        (p' + size ((Branches.tmplElseif t body more).select host s).2.2.instrs = fin ∨
          items[p' + size ((Branches.tmplElseif t body more).select host s).2.2.instrs]? = some (jumpItem .tmplJmp fin)) := by
  intro more t body p reg s hfin hcode
  obtain ⟨reg', htest⟩ := steps_test host hcode.head hcode.tail.head reg s
  have hbody := hcode.tail.tail.left
  have hmore := hcode.tail.tail.right
  rw [body.length_code] at hmore
  cases hholds : (t.run host s).2 with
  | true =>
    rw [hholds, if_pos rfl] at htest
    refine ⟨1, p + 2, reg', ?_, ?_, ?_⟩
    · simpa [Branches.select, hholds] using htest
    · simpa [Branches.select, hholds] using hbody
    · simp only [Branches.select, hholds, if_true]
      cases more with
      | tmplEndif => exact .inl (by simpa [Branches.instrs, Instr.size] using hfin)
      | tmplElse body' => exact .inr hmore.head
      | tmplElseif t' body' more' => exact .inr hmore.head
  | false =>
    rw [hholds] at htest
    simp only [Bool.false_eq_true, if_false] at htest
    cases more with
    | tmplEndif =>
      refine ⟨1, fin, reg', ?_, ?_, ?_⟩
      · simpa [Branches.select, Branches.first, hholds] using htest
      · simp only [Branches.select, hholds]
        exact ⟨_, rfl⟩
      · exact .inl (by simp [Branches.select, hholds, Block.instrs])
    | tmplElse body' =>
      refine ⟨1, p + 2 + size body.instrs + 1, reg', ?_, ?_, ?_⟩
      · simpa [Branches.select, Branches.first, hholds] using htest
      · simpa [Branches.select, hholds] using hmore.tail
      · simp only [Branches.instrs, size_cons, size_append, size_nil, Instr.size] at hfin
        refine .inl ?_
        simp only [Branches.select, hholds, Bool.false_eq_true, if_false]
        omega
    | tmplElseif t' body' more' =>
      have hcode' := hmore.tail
      simp only [Branches.instrs, size_cons, size_append, Instr.size] at hfin
      obtain ⟨k, p', reg'', hsteps, hbranch, hend⟩ := select_steps host more' t' body' (p + 2 + size body.instrs + 1) reg'
        (t.run host s).1 (by omega) hcode'
      refine ⟨2 + k, p', reg'', ?_, ?_, ?_⟩
      · simpa [Branches.select, hholds, Nat.add_assoc] using htest.trans hsteps
      · simpa [Branches.select, hholds] using hbranch
      · simpa [Branches.select, hholds] using hend

theorem follows_nothing (host : Host σ) (items : List PrgItem) (c : RunState σ) (q : ℕ) :
    Follows host items 0 c q ([], none) := ⟨0, c, by omega, .zero c⟩

/-- **The program follows the template**: by induction on how deeply the execution is nested, for
blocks, and for loops whose variable is set. -/
theorem eval_follows (host : Host σ) (items : List PrgItem) (n : ℕ) :
    (∀ (B : Block) (p : ℕ) (reg : Bool) (s : σ), CodeAt items p (B.code p) →
      Follows host items n ⟨p, reg, s⟩ (p + size B.instrs) (B.eval host n s)) ∧
    (∀ (c : Command) (body rest : Block) (p : ℕ) (reg : Bool) (s : σ),
      CodeAt items p (body.code p ++ c.inc.item :: c.exceeds.item :: c.exceeds.jump p ::
        rest.code (p + size body.instrs + 3)) →
      Follows host items (n - 1) ⟨p, reg, s⟩ (p + size body.instrs + 3 + size rest.instrs) (evalFor host n c body rest s)) := by
  induction n with
  | zero =>
    refine ⟨fun B p reg s _ => ?_, fun c body rest p reg s _ => follows_nothing host items _ _⟩
    cases B <;> exact follows_nothing host items _ _
  | succ n ih =>
    obtain ⟨ihB, ihFor⟩ := ih
    refine ⟨fun B p reg s hcode => ?_, fun c body rest p reg s hcode => ?_⟩
    · cases B with
      | nil => exact ⟨0, reg, .zero _⟩
      | command c rest =>
        have hrest := ihB rest (p + 1) reg (c.run host s) hcode.tail
        have hstep := Steps.event (step_command host hcode.head reg s) (.zero _)
        rw [Block.instrs, size_cons, ← Nat.add_assoc]
        exact hrest.steps hstep (by omega)
      | tmplIf t body more rest =>
        have hif := hcode
        simp only [Block.code] at hif
        rw [← List.append_assoc, ← List.cons_append, ← List.cons_append] at hif
        obtain ⟨k, p', reg', hsteps, hbranch, hend⟩ := select_steps host more t body p reg s rfl hif.left
        have hrest := hif.right
        rw [List.length_cons, List.length_cons, List.length_append, body.length_code, more.length_code] at hrest
        have hfin : p + (size body.instrs + size more.instrs + 1 + 1) = p + 2 + size body.instrs + size more.instrs := by
          omega
        rw [hfin] at hrest
        have hexec := ihB _ p' reg' ((Branches.tmplElseif t body more).select host s).2.1 hbranch
        have hexec' := hexec.jmp_or_eq hend
        have hend' : p + size (Block.tmplIf t body more rest).instrs =
            p + 2 + size body.instrs + size more.instrs + size rest.instrs := by
          simp only [Block.instrs, size_cons, size_append, Instr.size]
          omega
        rw [hend']
        exact (hexec'.andThen fun reg' s' => ihB rest _ reg' s' hrest).steps hsteps (by omega)
      | tmplWhile t body rest =>
        obtain ⟨reg', htest⟩ := steps_test host hcode.head hcode.tail.head reg s
        have hbody := hcode.tail.tail.left
        have hjmp := hcode.tail.tail.right
        rw [body.length_code] at hjmp
        simp only [Block.eval]
        cases hholds : (t.run host s).2 with
        | true =>
          rw [hholds, if_pos rfl] at htest
          rw [if_pos rfl]
          have hagain := (ihB body (p + 2) reg' (t.run host s).1 hbody).jmp hjmp.head
          exact (hagain.andThen fun reg' s' => ihB (.tmplWhile t body rest) p reg' s' hcode).steps htest (by omega)
        | false =>
          rw [hholds, if_neg Bool.false_ne_true] at htest
          rw [if_neg Bool.false_ne_true]
          have hrest := ihB rest _ reg' (t.run host s).1 hjmp.tail
          have hend : p + size (Block.tmplWhile t body rest).instrs = p + 2 + size body.instrs + 1 + size rest.instrs := by
            simp only [Block.instrs, size_cons, size_append, Instr.size]
            omega
          rw [hend]
          exact hrest.steps htest (by omega)
      | tmplFor c body rest =>
        have hset := Steps.event (step_command host hcode.head reg s) (.zero _)
        have hfor := ihFor c body rest (p + 1) reg (c.run host s) hcode.tail
        have hend : p + size (Block.tmplFor c body rest).instrs = p + 1 + size body.instrs + 3 + size rest.instrs := by
          simp only [Block.instrs, size_cons, size_append, Instr.size]
          omega
        rw [hend]
        exact hfor.steps hset (by omega)
    · have hbody := ihB body p reg s hcode.left
      have htail := hcode.right
      rw [body.length_code] at htail
      refine hbody.andThen fun reg' s' => ?_
      have hinc := Steps.event (step_command host htail.head reg' s') (.zero _)
      obtain ⟨reg'', htest⟩ := steps_test host htail.tail.head htail.tail.tail.head reg' (c.inc.run host s')
      have hboth := hinc.trans htest
      simp only
      cases hexceeds : (c.exceeds.run host (c.inc.run host s')).2 with
      | true =>
        rw [hexceeds, if_pos rfl] at hboth
        rw [if_pos rfl]
        exact (ihB rest _ reg'' _ htail.tail.tail.tail).steps hboth (by omega)
      | false =>
        rw [hexceeds, if_neg Bool.false_ne_true] at hboth
        rw [if_neg Bool.false_ne_true]
        exact (ihFor c body rest p reg'' _ hcode).steps hboth (by omega)

/-! ### The same runs -/

/-- A program and a block execute the same: the one ends if the other does, with the same variables
after the same commands, and both execute the same commands as long as they run. -/
structure SameRuns (host : Host σ) (items : List PrgItem) (B : Block) (s : σ) : Prop where
  ends (T : List (Event σ)) (s' : σ) : (∃ n, B.eval host n s = (T, some s')) ↔
    ∃ k c', Steps (printHtmlTemplateStep host items) k ⟨0, false, s⟩ T c' ∧
      printHtmlTemplateStep host items c' = none ∧ c'.vars = s'
  /-- The beginnings of executions. -/
  begins (T : List (Event σ)) : (∃ n, T <+: (B.eval host n s).1) ↔
    ∃ k c' T', Steps (printHtmlTemplateStep host items) k ⟨0, false, s⟩ T' c' ∧ T <+: T'

theorem step_end (host : Host σ) (items : List PrgItem) (reg : Bool) (s : σ) :
    printHtmlTemplateStep host items ⟨items.length, reg, s⟩ = none := by
  simp [printHtmlTemplateStep]

/-- **The code of a block** executes as the block reads. -/
theorem sameRuns_code (host : Host σ) (B : Block) (s : σ) : SameRuns host (B.code 0) B s := by
  have hfollows (n : ℕ) : Follows host (B.code 0) n ⟨0, false, s⟩ (B.code 0).length (B.eval host n s) := by
    have h := (eval_follows host (B.code 0) n).1 B 0 false s ⟨[], by simp⟩
    rwa [Nat.zero_add, ← B.length_code 0] at h
  constructor
  · intro T s'
    constructor
    · rintro ⟨n, hn⟩
      have h := hfollows n
      rw [hn] at h
      obtain ⟨k, reg', hk⟩ := h
      exact ⟨k, _, hk, step_end .., rfl⟩
    · rintro ⟨k, c', hk, hhalted, rfl⟩
      -- an execution that is nested more deeply than the program has steps has ended
      have h := hfollows (2 * k + 1)
      rcases hx : B.eval host (2 * k + 1) s with ⟨T', o⟩
      rw [hx] at h
      cases o with
      | some s'' =>
        obtain ⟨k', reg', hk'⟩ := h
        obtain ⟨rfl, rfl⟩ := hk.eq_of_halted hk' hhalted (step_end ..)
        exact ⟨_, hx⟩
      | none =>
        obtain ⟨k', c'', hle, hk'⟩ := h
        have := hk.le_of_halted hk' hhalted
        omega
  · intro T
    constructor
    · rintro ⟨n, hn⟩
      have h := hfollows n
      rcases hx : B.eval host n s with ⟨T', o⟩
      rw [hx] at h hn
      cases o with
      | some s' =>
        obtain ⟨k, reg', hk⟩ := h
        exact ⟨k, _, T', hk, hn⟩
      | none =>
        obtain ⟨k, c', -, hk⟩ := h
        exact ⟨k, c', T', hk, hn⟩
    · rintro ⟨k, c', T', hk, hT⟩
      refine ⟨2 * k + 1, hT.trans ?_⟩
      have h := hfollows (2 * k + 1)
      rcases hx : B.eval host (2 * k + 1) s with ⟨T'', o⟩
      rw [hx] at h
      cases o with
      | some s' =>
        obtain ⟨k', reg', hk'⟩ := h
        exact hk.prefix_of_le hk' (hk'.le_of_halted hk (step_end ..))
      | none =>
        obtain ⟨k', c'', hle, hk'⟩ := h
        exact hk.prefix_of_le hk' (by omega)

end

/-! ### Compiled templates -/

theorem ok_nil : CompileState.Ok ⟨⟨[], 0⟩, []⟩ := ⟨rfl, nofun⟩

/-- **The program** of a template that reads as a block is the code of the block. -/
theorem htmlTemplateCompile_code {B : Block} (hB : B.instrs = tokens.map Token.instr)
    (h : EndforInPlace 0 (tokens.map Token.instr)) : htmlTemplateCompile tokens = .ok (.ofItems (B.code 0)) := by
  have hcompile := B.compile [] [] [] (hB ▸ h)
  rw [List.append_nil, hB] at hcompile
  rw [htmlTemplateCompile, htmlTemplateCompileTokens_eq]
  have hnil : (⟨[], 0⟩ : Prg) = .ofItems [] := rfl
  rw [hnil, hcompile]
  rfl

theorem exists_block (hprg : htmlTemplateCompile tokens = .ok prg)
    (helse : ElseLast [] (tokens.map Token.instr)) : ∃ B : Block, B.instrs = tokens.map Token.instr := by
  rw [htmlTemplateCompile, htmlTemplateCompileTokens_eq] at hprg
  cases hall : emitAll ⟨⟨[], 0⟩, []⟩ (tokens.map Token.instr) with
  | error e => simp [hall] at hprg
  | ok s =>
    cases hst : s.st with
    | cons top st => simp [hall, hst] at hprg
    | nil =>
      obtain ⟨B, hB⟩ := @reads_of_emitAll _ _ _ [] ok_nil rfl helse hall hst
      exact ⟨B, hB.symm⟩

theorem endforInPlace_of_ok (hprg : htmlTemplateCompile tokens = .ok prg) :
    EndforInPlace 0 (tokens.map Token.instr) := by
  rw [htmlTemplateCompile, htmlTemplateCompileTokens_eq] at hprg
  cases hall : emitAll ⟨⟨[], 0⟩, []⟩ (tokens.map Token.instr) with
  | error e => simp [hall] at hprg
  | ok s => exact emitAll_ok ok_nil hall

/-- The compiler does not reject a template. -/
def Accepted (tokens : List Token) : Prop := ∀ errstr, htmlTemplateCompile tokens ≠ .error (.template errstr)

theorem exists_prg (haccepted : Accepted tokens) (h : EndforInPlace 0 (tokens.map Token.instr)) :
    ∃ prg, htmlTemplateCompile tokens = .ok prg := by
  cases hprg : htmlTemplateCompile tokens with
  | ok prg => exact ⟨prg, rfl⟩
  | error e =>
    cases e with
    | template errstr => exact absurd hprg (haccepted errstr)
    | undefined =>
      rw [htmlTemplateCompile, htmlTemplateCompileTokens_eq] at hprg
      cases hall : emitAll ⟨⟨[], 0⟩, []⟩ (tokens.map Token.instr) with
      | error e =>
        rw [hall] at hprg
        cases hprg
        exact absurd h (emitAll_undefined ok_nil hall)
      | ok s =>
        cases hst : s.st with
        | nil => simp [hall, hst] at hprg
        | cons top st =>
          simp only [hall, hst, missing, Except.error.injEq] at hprg
          split at hprg <;> cases hprg

/-- The template reads as a block, and its program executes as the block does, with jumps that lead
to items or just behind the last one. -/
def PreservesMeaning (tokens : List Token) : Prop :=
  ∃ prg, htmlTemplateCompile tokens = .ok prg ∧
    (∀ it ∈ prg.items, it.cmdnum.isJump → it.jump ≤ prg.items.length) ∧
    (∃ B : Block, B.instrs = tokens.map Token.instr) ∧
    ∀ B : Block, B.instrs = tokens.map Token.instr →
      ∀ (σ : Type) (host : Host σ) (s : σ), SameRuns host prg.items B s

/-- **Compilation** preserves the meaning of an accepted template, `ELSE` being the last branch of its
condition, if and only if at no `ENDFOR` the number of items is a multiple of 64. -/
theorem preservesMeaning_iff (tokens : List Token) (haccepted : Accepted tokens)
    (helse : ElseLast [] (tokens.map Token.instr)) :
    PreservesMeaning tokens ↔ EndforInPlace 0 (tokens.map Token.instr) := by
  constructor
  · rintro ⟨prg, hprg, -⟩
    exact endforInPlace_of_ok hprg
  · intro h
    obtain ⟨prg, hprg⟩ := exists_prg haccepted h
    obtain ⟨B, hB⟩ := exists_block hprg helse
    have hcode := htmlTemplateCompile_code hB h
    refine ⟨_, hcode, fun it hmem hjump => ?_, ⟨B, hB⟩, fun B' hB' σ host s => ?_⟩
    · have hle := B.jump_le 0 hjump hmem
      rwa [Nat.zero_add, ← B.length_code 0] at hle
    · have hcode' := htmlTemplateCompile_code hB' h
      rw [hcode, Except.ok.injEq, Prg.ofItems, Prg.ofItems, Prg.mk.injEq] at hcode'
      rw [items_ofItems, hcode'.1]
      exact sameRuns_code host B' s

/-- `<!IF Name="q" Content="x">`. -/
def ifToken : Token :=
  ⟨Url.bytes "<!IF Name=\"q\" Content=\"x\">",
    ⟨[(Url.bytes "!IF", []), (Url.bytes "Name", Url.bytes "q"), (Url.bytes "Content", Url.bytes "x")]⟩⟩

/-- `<!FOR Name="i" From="1" To="2">`. -/
def forToken : Token :=
  ⟨Url.bytes "<!FOR Name=\"i\" From=\"1\" To=\"2\">",
    ⟨[(Url.bytes "!FOR", []), (Url.bytes "Name", Url.bytes "i"), (Url.bytes "From", Url.bytes "1"),
      (Url.bytes "To", Url.bytes "2")]⟩⟩

/-- `<br>`. -/
def brToken : Token := ⟨Url.bytes "<br>", ⟨[(Url.bytes "br", [])]⟩⟩

/-- A command with a name only. -/
def nameToken (name : String) : Token := ⟨Url.bytes s!"<!{name}>", ⟨[(Url.bytes s!"!{name}", [])]⟩⟩

/-- A condition with two branches, the first of which has a loop. -/
def forInIf : List Token :=
  [ifToken, forToken, brToken, nameToken "ENDFOR", nameToken "ELSE", brToken, nameToken "ENDIF"]

theorem preservesMeaning_forInIf : PreservesMeaning forInIf ↔ EndforInPlace 0 (forInIf.map Token.instr) :=
  preservesMeaning_iff forInIf
    (fun errstr h => by
      rw [show htmlTemplateCompile forInIf = Except.ok _ from rfl] at h
      cases h)
    ⟨rfl, trivial⟩

/-- A loop over 63 texts. -/
def endforAt64 : List Token := forToken :: (List.replicate 63 brToken ++ [nameToken "ENDFOR"])

theorem emitAll_replicate (I : List PrgItem) (st : List StackItem) (c : Command) (n : ℕ) (is : List Instr) :
    emitAll ⟨.ofItems I, st⟩ (List.replicate n (.command c) ++ is) =
      emitAll ⟨.ofItems (I ++ List.replicate n c.item), st⟩ is := by
  induction n generalizing I with
  | zero => simp
  | succ n ih =>
    rw [List.replicate_succ, List.cons_append, emitAll_cons rfl, add_ofItems, ih, List.append_assoc]
    rfl

theorem instr_endforAt64 : endforAt64.map Token.instr =
    .tmplFor (forCommand forToken.tag) :: (List.replicate 63 (.command (textCommand brToken.str)) ++ [.tmplEndfor]) := by
  rw [endforAt64, List.map_cons, List.map_append, List.map_replicate]
  rfl

theorem htmlTemplateCompile_endforAt64 : htmlTemplateCompile endforAt64 = .error .undefined := by
  have hnil : (⟨[], 0⟩ : Prg) = .ofItems [] := rfl
  have hmoves : (Prg.ofItems ([(forCommand forToken.tag).item] ++
      List.replicate 63 (textCommand brToken.str).item)).moves = true := by
    simp
  rw [htmlTemplateCompile, htmlTemplateCompileTokens_eq, instr_endforAt64, hnil, emitAll_cons (emit_tmplFor ..),
    emitAll_replicate, emitAll]
  simp only [List.nil_append, emit, htmlTemplateCompileCommand, if_true, List.length_nil, Nat.sub_self, items_ofItems,
    List.cons_append, List.getElem?_cons_zero] at hmoves ⊢
  rw [hmoves]
  rfl

/-- A loop over 63 texts is accepted, and its program is not that of the template. -/
theorem not_preservesMeaning :
    ¬∀ tokens, Accepted tokens → ElseLast [] (tokens.map Token.instr) → PreservesMeaning tokens := by
  intro hall
  have helse : ∀ n, ElseLast [.tmplFor] (List.replicate n (.command (textCommand brToken.str)) ++ [.tmplEndfor]) := by
    intro n
    induction n with
    | zero => trivial
    | succ n ih => exact ih
  obtain ⟨prg, hprg, -⟩ := hall endforAt64 (fun errstr h => by simp [htmlTemplateCompile_endforAt64] at h)
    (by rw [instr_endforAt64]; exact helse 63)
  rw [htmlTemplateCompile_endforAt64] at hprg
  cases hprg

end MnoGoSearch.Template
