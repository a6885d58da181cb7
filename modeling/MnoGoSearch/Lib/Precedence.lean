import Mathlib

/-!
# The operator-precedence machine

The two-stack machine that evaluates an infix expression while it reads it: values go on
one stack, operators that still wait for an operand on the other, and an operator is
performed as soon as one that binds no tighter arrives. Nothing here knows what the
values and the operators are.

`run_derives` is the result: after the tokens of an expression the machine has left on
the command stack only operators of that expression, and performing those gives the
expression's value. The value of an empty argument stack is a parameter (`Ops.bot`), so
that the machine is total; a derivable token string never meets it.
-/

namespace MnoGoSearch.Lib.Precedence

/-- A token of an infix expression. -/
inductive Tok (V U B : Type) where
  | operand (v : V)
  | unary (u : U)
  | binary (b : B)
  | lpar
  | rpar

/-- What waits on the command stack. -/
inductive Cmd (U B : Type) where
  | unary (u : U)
  | binary (b : B)
  | lpar

/-- The tree of an expression. -/
inductive Expr (V U B : Type) where
  | operand (v : V)
  /-- A prefix operator applied. -/
  | unary (u : U) (e : Expr V U B)
  /-- An infix operator applied. -/
  | binary (b : B) (e₁ e₂ : Expr V U B)

/-- The operators of a language: how tightly each infix operator binds, what the
operators compute, and what popping an empty argument stack yields. -/
structure Ops (V U B : Type) where
  /-- The precedence of an infix operator; prefix operators bind tighter than all. -/
  prec : B → ℕ
  /-- A prefix operator's function. -/
  un : U → V → V
  /-- An infix operator's function, of the left and the right operand. -/
  bin : B → V → V → V
  /-- What popping an empty stack yields. -/
  bot : V

/-- The two stacks, tops first. -/
structure St (V U B : Type) where
  cmds : List (Cmd U B)
  args : List V

variable {V U B : Type} (ops : Ops V U B)

/-- The value of an expression, by recursion on its tree. -/
def Expr.eval : Expr V U B → V
  | .operand v => v
  | .unary u e => ops.un u e.eval
  | .binary b e₁ e₂ => ops.bin b e₁.eval e₂.eval

/-! ### The machine -/

/-- Compute one operation and store the result: the right operand is on top. -/
def perform : Cmd U B → List V → List V
  | .unary u, as => ops.un u (as.headD ops.bot) :: as.tail
  | .binary b, as => ops.bin b (as.tail.headD ops.bot) (as.headD ops.bot) :: as.tail.tail
  | .lpar, as => as

/-- Perform from the top of the command stack while `p` holds of the top. -/
def reduce (p : Cmd U B → Bool) : List (Cmd U B) → List V → St V U B
  | [], as => ⟨[], as⟩
  | c :: cs, as => if p c then reduce p cs (perform ops c as) else ⟨c :: cs, as⟩

/-- Whether a waiting command is performed before infix operator `b` is pushed. -/
def yields (b : B) : Cmd U B → Bool
  | .unary _ => true
  | .binary b' => decide (ops.prec b ≤ ops.prec b')
  | .lpar => false

/-- Whether a waiting command is not an open bracket. -/
def Cmd.inside : Cmd U B → Bool
  | .lpar => false
  | _ => true

/-- Drop the open bracket on top, if there is one. -/
def popLpar : List (Cmd U B) → List (Cmd U B)
  | .lpar :: cs => cs
  | cs => cs

/-- One token. -/
def step (s : St V U B) : Tok V U B → St V U B
  | .operand v => ⟨s.cmds, v :: s.args⟩
  | .unary u => ⟨.unary u :: s.cmds, s.args⟩
  | .lpar => ⟨.lpar :: s.cmds, s.args⟩
  | .binary b =>
    let s' := reduce ops (yields ops b) s.cmds s.args
    ⟨.binary b :: s'.cmds, s'.args⟩
  | .rpar =>
    let s' := reduce ops Cmd.inside s.cmds s.args
    ⟨popLpar s'.cmds, s'.args⟩

/-- All the tokens. -/
def run (ts : List (Tok V U B)) (s : St V U B) : St V U B := ts.foldl (step ops) s

/-- The end of the input: perform everything that still waits. -/
def finish (s : St V U B) : St V U B := reduce ops (fun _ => true) s.cmds s.args

@[simp] theorem run_nil (s : St V U B) : run ops [] s = s := rfl

@[simp] theorem run_cons (t : Tok V U B) (ts : List (Tok V U B)) (s : St V U B) :
    run ops (t :: ts) s = run ops ts (step ops s t) := rfl

theorem run_append (ts₁ ts₂ : List (Tok V U B)) (s : St V U B) :
    run ops (ts₁ ++ ts₂) s = run ops ts₂ (run ops ts₁ s) := List.foldl_append

/-- Perform a list of commands, top first. -/
def performAll (P : List (Cmd U B)) (as : List V) : List V :=
  P.foldl (fun as c => perform ops c as) as

theorem performAll_append (P Q : List (Cmd U B)) (as : List V) :
    performAll ops (P ++ Q) as = performAll ops Q (performAll ops P as) := List.foldl_append

theorem reduce_append {p : Cmd U B → Bool} {P cs : List (Cmd U B)} (hP : ∀ c ∈ P, p c = true)
    (hcs : ∀ c ∈ cs.head?, p c = false) (as : List V) : reduce ops p (P ++ cs) as = ⟨cs, performAll ops P as⟩ := by
  induction P generalizing as with
  | nil =>
    cases cs with
    | nil => rfl
    | cons c cs => simp [reduce, hcs c (by simp), performAll]
  | cons c P ih =>
    rw [List.cons_append, reduce, if_pos (hP c (by simp)),
      ih (fun c' h => hP c' (List.mem_cons_of_mem _ h))]
    rfl

/-! ### The grammar -/

/-- `Derives ops n ts e`: the tokens `ts` are the expression `e`, in which every infix
operator outside brackets has precedence at least `n`. Infix operators associate to the
left; at level `⊤` there are none outside brackets. -/
inductive Derives : WithTop ℕ → List (Tok V U B) → Expr V U B → Prop where
  | operand {n : WithTop ℕ} (v : V) : Derives n [.operand v] (.operand v)
  /-- An expression in brackets. -/
  | paren {n : WithTop ℕ} {ts : List (Tok V U B)} {e : Expr V U B} :
      Derives 0 ts e → Derives n (.lpar :: (ts ++ [.rpar])) e
  | unary {n : WithTop ℕ} {ts : List (Tok V U B)} {e : Expr V U B} (u : U) :
      Derives ⊤ ts e → Derives n (.unary u :: ts) (.unary u e)
  /-- An infix operator: its left operand may use operators of its own precedence. -/
  | binary {n : WithTop ℕ} {b : B} {ts₁ ts₂ : List (Tok V U B)} {e₁ e₂ : Expr V U B} :
      n ≤ (ops.prec b : ℕ) → Derives (ops.prec b : ℕ) ts₁ e₁ →
      Derives ((ops.prec b + 1 : ℕ) : WithTop ℕ) ts₂ e₂ →
      Derives n (ts₁ ++ .binary b :: ts₂) (.binary b e₁ e₂)

variable {m n : WithTop ℕ} {b : B} {c : Cmd U B} {ts : List (Tok V U B)} {e : Expr V U B}

theorem Derives.mono (hmn : m ≤ n) (h : Derives ops n ts e) : Derives ops m ts e := by
  cases h with
  | operand v => exact .operand v
  | paren h => exact .paren h
  | unary u h => exact .unary u h
  | binary hn h₁ h₂ => exact .binary (le_trans hmn hn) h₁ h₂

/-- A command that an operator of precedence `n` or less performs. -/
def Above (n : WithTop ℕ) : Cmd U B → Prop
  | .unary _ => True
  | .binary b => n ≤ (ops.prec b : ℕ)
  | .lpar => False

theorem Above.mono (hmn : m ≤ n) (h : Above ops n c) : Above ops m c := by
  cases c with
  | unary u => trivial
  | binary b => exact le_trans hmn h
  | lpar => exact h

theorem Above.yields (h : Above ops (ops.prec b : ℕ) c) : yields ops b c = true := by
  cases c with
  | unary u => rfl
  | binary b' => exact decide_eq_true (WithTop.coe_le_coe.mp h)
  | lpar => exact h.elim

theorem Above.inside (h : Above ops n c) : c.inside = true := by
  cases c with
  | unary u => rfl
  | binary b' => rfl
  | lpar => exact h.elim

/-- No operator of precedence `n` or more performs the command on top of `cs`. -/
def Blocked (n : WithTop ℕ) (cs : List (Cmd U B)) : Prop :=
  ∀ c ∈ cs.head?, ∀ b, n ≤ (ops.prec b : ℕ) → yields ops b c = false

theorem blocked_nil (n : WithTop ℕ) : Blocked ops n ([] : List (Cmd U B)) := by
  intro c hc
  simp at hc

theorem blocked_lpar (n : WithTop ℕ) (cs : List (Cmd U B)) : Blocked ops n (.lpar :: cs) := by
  intro c hc b _
  simp only [List.head?_cons, Option.mem_some_iff] at hc
  subst hc
  rfl

theorem blocked_top (cs : List (Cmd U B)) : Blocked ops ⊤ cs := by
  intro c _ b hb
  exact absurd (top_le_iff.mp hb) (WithTop.coe_ne_top)

theorem blocked_binary (b : B) (cs : List (Cmd U B)) :
    Blocked ops ((ops.prec b + 1 : ℕ) : WithTop ℕ) (.binary b :: cs) := by
  intro c hc b' hb'
  simp only [List.head?_cons, Option.mem_some_iff] at hc
  subst hc
  have h : ops.prec b + 1 ≤ ops.prec b' := WithTop.coe_le_coe.mp hb'
  simp only [yields, decide_eq_false_iff_not]
  omega

theorem Blocked.mono (hmn : m ≤ n) {cs : List (Cmd U B)} (h : Blocked ops m cs) :
    Blocked ops n cs := fun c hc b hb => h c hc b (le_trans hmn hb)

/-! ### The machine computes the value -/

/-- What the machine has done after the tokens of `e`, starting from `s`: it has pushed
commands `P` that all bind at least as tightly as `n`, and performing them gives the value. -/
def Pending (n : WithTop ℕ) (e : Expr V U B) (s s' : St V U B) : Prop :=
  ∃ P, s'.cmds = P ++ s.cmds ∧ (∀ c ∈ P, Above ops n c) ∧ performAll ops P s'.args = e.eval ops :: s.args

theorem Pending.close {s s' : St V U B} (h : Pending ops n e ⟨.lpar :: s.cmds, s.args⟩ s') :
    step ops s' .rpar = ⟨s.cmds, e.eval ops :: s.args⟩ := by
  obtain ⟨P, hc, hP, hv⟩ := h
  have hr : reduce ops Cmd.inside s'.cmds s'.args = ⟨.lpar :: s.cmds, e.eval ops :: s.args⟩ := by
    rw [hc, reduce_append ops (fun c h => (hP c h).inside) (by simp [Cmd.inside]), hv]
  simp only [step, hr, popLpar]

theorem Pending.push {s s' : St V U B}
    (h : Pending ops (ops.prec b : ℕ) e s s') (hb : Blocked ops (ops.prec b : ℕ) s.cmds) :
    step ops s' (.binary b) = ⟨.binary b :: s.cmds, e.eval ops :: s.args⟩ := by
  obtain ⟨P, hc, hP, hv⟩ := h
  have hr : reduce ops (yields ops b) s'.cmds s'.args = ⟨s.cmds, e.eval ops :: s.args⟩ := by
    rw [hc, reduce_append ops (fun c h => (hP c h).yields) (fun c h => hb c h b le_rfl), hv]
  simp only [step, hr]

/-- **The machine reads an expression as the grammar does**: after the tokens of `e` only
operators of `e` are pending, and performing them gives the value of `e`. -/
theorem run_derives (h : Derives ops n ts e) :
    ∀ s : St V U B, Blocked ops n s.cmds → Pending ops n e s (run ops ts s) := by
  induction h with
  | operand v =>
    intro s _
    exact ⟨[], rfl, by simp, rfl⟩
  | @paren n ts e _ ih =>
    intro s _
    have hin := ih ⟨.lpar :: s.cmds, s.args⟩ (blocked_lpar ops 0 _)
    have hrun : run ops (.lpar :: (ts ++ [.rpar])) s = ⟨s.cmds, e.eval ops :: s.args⟩ := by
      rw [run_cons, run_append, run_cons, run_nil]
      exact hin.close
    exact ⟨[], by rw [hrun]; rfl, by simp, by rw [hrun]; rfl⟩
  | @unary n ts e u _ ih =>
    intro s _
    obtain ⟨P, hc, hP, hv⟩ := ih ⟨.unary u :: s.cmds, s.args⟩ (blocked_top ops _)
    refine ⟨P ++ [.unary u], ?_, ?_, ?_⟩
    · rw [run_cons]
      simpa [step] using hc
    · intro c hcm
      rcases List.mem_append.mp hcm with h | h
      · exact (hP c h).mono ops le_top
      · rw [List.mem_singleton] at h
        subst h
        trivial
    · rw [run_cons, performAll_append]
      simp only [step] at hv ⊢
      rw [hv]
      rfl
  | @binary n b ts₁ ts₂ e₁ e₂ hn _ _ ih₁ ih₂ =>
    intro s hb
    have hb' := hb.mono ops hn
    have hpush := (ih₁ s hb').push ops hb'
    obtain ⟨P, hc, hP, hv⟩ := ih₂ ⟨.binary b :: s.cmds, e₁.eval ops :: s.args⟩ (blocked_binary ops b _)
    have hle : (ops.prec b : WithTop ℕ) ≤ ((ops.prec b + 1 : ℕ) : WithTop ℕ) :=
      WithTop.coe_le_coe.mpr (Nat.le_succ _)
    refine ⟨P ++ [.binary b], ?_, ?_, ?_⟩
    · rw [run_append, run_cons, hpush]
      simpa using hc
    · intro c hcm
      rcases List.mem_append.mp hcm with h | h
      · exact (hP c h).mono ops (le_trans hn hle)
      · rw [List.mem_singleton] at h
        subst h
        exact hn
    · rw [run_append, run_cons, hpush, performAll_append, hv]
      rfl

theorem finish_run (h : Derives ops 0 ts e) : finish ops (run ops ts ⟨[], []⟩) = ⟨[], [e.eval ops]⟩ := by
  obtain ⟨P, hc, -, hv⟩ := run_derives ops h ⟨[], []⟩ (blocked_nil ops 0)
  rw [finish, hc, reduce_append ops (by simp) (by simp), hv]

end MnoGoSearch.Lib.Precedence
