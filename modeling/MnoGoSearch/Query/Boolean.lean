import MnoGoSearch.Lib.Precedence

/-!
# Boolean queries

The evaluation of a boolean query (`boolean.c`): `UdmCalcBoolItems` reads the item list of
a parsed query once, from left to right, and keeps two stacks, of commands and of values.
It is an instance of the operator-precedence machine of `Lib.Precedence`: a word, a stop
word and a whole quoted phrase are values, `NOT` is a prefix operator, and `OR` binds less
tightly than `AND` because its command code is smaller.

The well-formed item lists are those of the grammar `Parses`; on them the machine computes
the value of the expression (`udmCalcBoolItems_parses`).
-/

namespace MnoGoSearch.Query

open Lib.Precedence

/-! ### Items -/

/-- The commands of a query item, `UDM_STACK_*`. -/
inductive StackCmd where
  /-- `UDM_STACK_LEFT`. -/
  | left
  /-- `UDM_STACK_RIGHT`. -/
  | right
  /-- `UDM_STACK_BOT`, what an empty stack yields. -/
  | bot
  /-- `UDM_STACK_OR`. -/
  | or
  /-- `UDM_STACK_AND`. -/
  | and
  /-- `UDM_STACK_NOT`. -/
  | not
  /-- `UDM_STACK_PHRASE`, the quote that opens or closes a phrase. -/
  | phrase
  /-- `UDM_STACK_WORD`. -/
  | word
  /-- `UDM_STACK_STOP`, a stop word. -/
  | stop
  deriving DecidableEq, Repr

/-- The numbers of the commands. -/
def StackCmd.code : StackCmd → ℕ
  | .left => 0
  | .right => 1
  | .bot => 2
  | .or => 3
  | .and => 4
  | .not => 5
  | .phrase => 6
  | .word => 200
  | .stop => 201

/-- `UDM_STACK_ITEM`: a command and, for a word, its position in the query. -/
structure UdmStackItem where
  cmd : StackCmd
  arg : ℕ
  deriving DecidableEq, Repr

/-- `UDM_BOOLSTACK`: the command stack and the value stack, tops first. -/
structure UdmBoolStack where
  cstack : List StackCmd
  astack : List ℕ
  deriving DecidableEq, Repr

/-! ### The machine -/

/-- `TOPCMD`. -/
def topCmd (cstack : List StackCmd) : StackCmd := cstack.headD .bot

/-- `POPARG`: an empty stack yields `UDM_STACK_BOT`. -/
def popArg (astack : List ℕ) : ℕ × List ℕ := (astack.headD StackCmd.bot.code, astack.tail)

/-- The C truth values. -/
def flag (b : Bool) : ℕ := if b then 1 else 0

/-- Compute one operation and store result. Only the value stack is touched. -/
def perform (astack : List ℕ) : StackCmd → List ℕ
  | .or =>
    let (x1, astack) := popArg astack
    let (x2, astack) := popArg astack
    flag (x1 != 0 || x2 != 0) :: astack
  | .and =>
    let (x1, astack) := popArg astack
    let (x2, astack) := popArg astack
    flag (x1 != 0 && x2 != 0) :: astack
  | .not =>
    let (x1, astack) := popArg astack
    flag (x1 == 0) :: astack
  | _ => astack

/-- `while (p(TOPCMD(&s))) perform(&s, POPCMD(&s))`, for a `p` that fails on `UDM_STACK_BOT`. -/
def performWhile (p : StackCmd → Bool) : List StackCmd → List ℕ → UdmBoolStack
  | [], astack => ⟨[], astack⟩
  | c :: cstack, astack =>
    if p c then performWhile p cstack (perform astack c) else ⟨c :: cstack, astack⟩

/-- Pop LEFT bracket itself, if it is there. -/
def popLeft (cstack : List StackCmd) : List StackCmd :=
  if topCmd cstack = .left then cstack.tail else cstack

/-- The item loop of `UdmCalcBoolItems`. With `inPhrase` it is the inner loop that skips to
the closing quote. It fails where the source reads behind the last item: at a quote that
opens nothing or is never closed. -/
@[grind =] def calcItems (count : ℕ → UInt8) : Bool → List UdmStackItem → UdmBoolStack → Option UdmBoolStack
  | false, [], s => some s
  | true, [], _ => none
  | true, item :: items, s => calcItems count (item.cmd != .phrase) items s
  | false, item :: items, s =>
    match item.cmd with
    | .right =>
      -- Perform till LEFT bracket
      let s' := performWhile (fun c => c != .left && c != .bot) s.cstack s.astack
      calcItems count false items ⟨popLeft s'.cstack, s'.astack⟩
    | .or | .and =>
      let s' := performWhile (fun c => decide (item.cmd.code ≤ c.code)) s.cstack s.astack
      calcItems count false items ⟨item.cmd :: s'.cstack, s'.astack⟩
    | .left | .not => calcItems count false items ⟨item.cmd :: s.cstack, s.astack⟩
    | .phrase =>
      match items with
      | [] => none
      | first :: _ => calcItems count true items ⟨s.cstack, flag (count first.arg != 0) :: s.astack⟩
    | .stop => calcItems count false items ⟨s.cstack, 1 :: s.astack⟩
    | .word => calcItems count false items ⟨s.cstack, flag (count item.arg != 0) :: s.astack⟩
    | .bot => calcItems count false items s

/-- The stacks of `UdmCalcBoolItems` when only the result is left to pop. -/
def calcBoolStack (items : List UdmStackItem) (count : ℕ → UInt8) : Option UdmBoolStack :=
  (calcItems count false items ⟨[], []⟩).map fun s => performWhile (fun c => c != .bot) s.cstack s.astack

/-- `UdmCalcBoolItems`. -/
def udmCalcBoolItems (items : List UdmStackItem) (count : ℕ → UInt8) : Option ℕ :=
  (calcBoolStack items count).map fun s => (popArg s.astack).1

/-! ### What an item list means -/

/-- A boolean query. -/
inductive BoolExpr where
  /-- A word, by its position in the query. -/
  | word (arg : ℕ)
  | stop
  /-- A quoted phrase, by the position of its first item. -/
  | phrase (arg : ℕ)
  | not (e : BoolExpr)
  | and (e₁ e₂ : BoolExpr)
  | or (e₁ e₂ : BoolExpr)

/-- The truth value, by recursion on the query: a word is true when it has been found, a
stop word always, and a phrase when the flag of its first item is set. -/
def BoolExpr.eval (count : ℕ → UInt8) : BoolExpr → Bool
  | .word arg => count arg != 0
  | .stop => true
  | .phrase arg => count arg != 0
  | .not e => !e.eval count
  | .and e₁ e₂ => e₁.eval count && e₂.eval count
  | .or e₁ e₂ => e₁.eval count || e₂.eval count

/-- The levels of the grammar. -/
inductive Level where
  /-- Operands joined by `OR`. -/
  | disj
  /-- Operands joined by `AND`. -/
  | conj
  /-- An operand with any number of `NOT` before it. -/
  | neg
  deriving DecidableEq

/-- `Parses l items e`: the items are the query `e` at level `l`. `NOT` binds tighter than
`AND` and `AND` tighter than `OR`, and both associate to the left. -/
inductive Parses : Level → List UdmStackItem → BoolExpr → Prop where
  | word {l : Level} (arg : ℕ) : Parses l [⟨.word, arg⟩] (.word arg)
  | stop {l : Level} (arg : ℕ) : Parses l [⟨.stop, arg⟩] .stop
  /-- A quoted phrase: at least one item between two quotes, and no quote inside. -/
  | phrase {l : Level} (a b : ℕ) {first : UdmStackItem} {rest : List UdmStackItem} :
      first.cmd ≠ .phrase → (∀ item ∈ rest, item.cmd ≠ .phrase) →
      Parses l (⟨.phrase, a⟩ :: first :: (rest ++ [⟨.phrase, b⟩])) (.phrase first.arg)
  /-- A query in parentheses. -/
  | paren {l : Level} (a b : ℕ) {items : List UdmStackItem} {e : BoolExpr} :
      Parses .disj items e → Parses l (⟨.left, a⟩ :: (items ++ [⟨.right, b⟩])) e
  | not {l : Level} (a : ℕ) {items : List UdmStackItem} {e : BoolExpr} :
      Parses .neg items e → Parses l (⟨.not, a⟩ :: items) (.not e)
  | and {l : Level} (a : ℕ) {items₁ items₂ : List UdmStackItem} {e₁ e₂ : BoolExpr} :
      l ≠ .neg → Parses .conj items₁ e₁ → Parses .neg items₂ e₂ →
      Parses l (items₁ ++ ⟨.and, a⟩ :: items₂) (.and e₁ e₂)
  | or (a : ℕ) {items₁ items₂ : List UdmStackItem} {e₁ e₂ : BoolExpr} :
      Parses .disj items₁ e₁ → Parses .conj items₂ e₂ →
      Parses .disj (items₁ ++ ⟨.or, a⟩ :: items₂) (.or e₁ e₂)

/-! ### The machine of `Lib.Precedence` behind it -/

/-- The two infix operators. -/
inductive BoolOp where
  /-- `UDM_STACK_OR`. -/
  | or
  /-- `UDM_STACK_AND`. -/
  | and

/-- The C operators `||`, `&&` and `!` on the value stack's numbers, `AND` binding tighter. -/
def boolOps : Ops ℕ Unit BoolOp where
  prec
    | .or => 0
    | .and => 1
  un _ x := flag (x == 0)
  bin
    | .or, x, y => flag (y != 0 || x != 0)
    | .and, x, y => flag (y != 0 && x != 0)
  bot := StackCmd.bot.code

/-- A waiting operator as the source keeps it. -/
def cmdOf : Cmd Unit BoolOp → StackCmd
  | .unary _ => .not
  | .binary .or => .or
  | .binary .and => .and
  | .lpar => .left

/-- The machine's stacks as the source keeps them. -/
def stackOf (s : St ℕ Unit BoolOp) : UdmBoolStack := ⟨s.cmds.map cmdOf, s.args⟩

/-- The levels of the grammar as precedences. -/
def Level.prec : Level → WithTop ℕ
  | .disj => (0 : ℕ)
  | .conj => (1 : ℕ)
  | .neg => ⊤

@[simp] theorem flag_ne_zero (b : Bool) : (flag b != 0) = b := by cases b <;> rfl

@[simp] theorem flag_eq_zero (b : Bool) : (flag b == 0) = !b := by cases b <;> rfl

theorem perform_cmdOf (astack : List ℕ) (c : Cmd Unit BoolOp) :
    perform astack (cmdOf c) = Lib.Precedence.perform boolOps c astack := by
  cases c with
  | unary u => rfl
  | binary b => cases b <;> rfl
  | lpar => rfl

theorem performWhile_cmdOf {p : StackCmd → Bool} {q : Cmd Unit BoolOp → Bool}
    (hpq : ∀ c, p (cmdOf c) = q c) (cmds : List (Cmd Unit BoolOp)) (args : List ℕ) :
    performWhile p (cmds.map cmdOf) args = stackOf (reduce boolOps q cmds args) := by
  induction cmds generalizing args with
  | nil => rfl
  | cons c cmds ih =>
    rw [List.map_cons, performWhile, reduce, hpq, perform_cmdOf, ih]
    split <;> rfl

theorem calcItems_skip (count : ℕ → UInt8) {skipped : List UdmStackItem}
    (h : ∀ item ∈ skipped, item.cmd ≠ .phrase) (b : ℕ) (items : List UdmStackItem) (s : UdmBoolStack) :
    calcItems count true (skipped ++ ⟨.phrase, b⟩ :: items) s = calcItems count false items s := by
  induction skipped with
  | nil => rfl
  | cons item skipped ih =>
    have hne : (item.cmd != .phrase) = true := bne_iff_ne.mpr (h item (by simp))
    rw [List.cons_append, calcItems, hne]
    exact ih fun i hi => h i (List.mem_cons_of_mem _ hi)

theorem calcItems_right (count : ℕ → UInt8) (b : ℕ) (items : List UdmStackItem) (s : St ℕ Unit BoolOp) :
    calcItems count false (⟨.right, b⟩ :: items) (stackOf s) =
      calcItems count false items (stackOf (step boolOps s .rpar)) := by
  have hloop := performWhile_cmdOf (p := fun c => c != .left && c != .bot) (q := Cmd.inside)
    (fun c => by rcases c with _ | (_ | _) | _ <;> rfl) s.cmds s.args
  have hpop : ∀ cmds : List (Cmd Unit BoolOp), popLeft (cmds.map cmdOf) = (popLpar cmds).map cmdOf := by
    rintro (_ | ⟨_ | (_ | _) | _, cmds⟩) <;> rfl
  simp only [calcItems, stackOf, step] at hloop ⊢
  rw [hloop, hpop]

theorem calcItems_infix (count : ℕ → UInt8) (op : BoolOp) (a : ℕ) (items : List UdmStackItem)
    (s : St ℕ Unit BoolOp) :
    calcItems count false (⟨cmdOf (.binary op), a⟩ :: items) (stackOf s) =
      calcItems count false items (stackOf (step boolOps s (.binary op))) := by
  have hloop := performWhile_cmdOf (p := fun c => decide ((cmdOf (.binary op)).code ≤ c.code))
    (q := yields boolOps op)
    (fun c => by rcases op with _ | _ <;> rcases c with _ | (_ | _) | _ <;> rfl) s.cmds s.args
  cases op <;> simp only [calcItems, stackOf, step, cmdOf] at hloop ⊢ <;> rw [hloop] <;> rfl

variable {items : List UdmStackItem} {e : BoolExpr}

/-- The items of `e` are read as some tokens are by the machine: the tokens of an expression
with the value of `e`. -/
theorem Parses.tokens (count : ℕ → UInt8) {l : Level}
    (h : Parses l items e) :
    ∃ ts x, Derives boolOps l.prec ts x ∧ x.eval boolOps = flag (e.eval count) ∧
      ∀ rest s, calcItems count false (items ++ rest) (stackOf s) =
        calcItems count false rest (stackOf (run boolOps ts s)) := by
  induction h with
  | word arg => exact ⟨[.operand (flag (count arg != 0))], _, .operand _, rfl, fun _ _ => rfl⟩
  | stop arg => exact ⟨[.operand 1], _, .operand _, rfl, fun _ _ => rfl⟩
  | @phrase l a b first rest hfirst hrest =>
    refine ⟨[.operand (flag (count first.arg != 0))], _, .operand _, rfl, fun tail s => ?_⟩
    have hskip : ∀ item ∈ first :: rest, item.cmd ≠ .phrase := by simpa using ⟨hfirst, hrest⟩
    have hend := calcItems_skip count hskip b tail ⟨s.cmds.map cmdOf, flag (count first.arg != 0) :: s.args⟩
    rw [List.cons_append, List.cons_append, List.append_assoc]
    exact hend
  | @paren l a b items e _ ih =>
    obtain ⟨ts, x, hd, hv, hrun⟩ := ih
    refine ⟨.lpar :: (ts ++ [.rpar]), x, .paren hd, hv, fun rest s => ?_⟩
    rw [run_cons, run_append, run_cons, run_nil, ← calcItems_right count b, ← hrun]
    simp [calcItems, stackOf, step, cmdOf]
  | @not l a items e _ ih =>
    obtain ⟨ts, x, hd, hv, hrun⟩ := ih
    refine ⟨.unary () :: ts, .unary () x, .unary () hd, ?_, fun rest s => ?_⟩
    · rw [Expr.eval, hv, BoolExpr.eval]
      exact congrArg flag (flag_eq_zero _)
    · rw [run_cons, ← hrun]
      rfl
  | @and l a items₁ items₂ e₁ e₂ hl _ _ ih₁ ih₂ =>
    obtain ⟨ts₁, x₁, hd₁, hv₁, hrun₁⟩ := ih₁
    obtain ⟨ts₂, x₂, hd₂, hv₂, hrun₂⟩ := ih₂
    have hle : l.prec ≤ ((1 : ℕ) : WithTop ℕ) := by
      cases l with
      | disj => exact WithTop.coe_le_coe.mpr (Nat.zero_le 1)
      | conj => exact le_rfl
      | neg => exact absurd rfl hl
    refine ⟨ts₁ ++ .binary .and :: ts₂, .binary .and x₁ x₂, .binary hle hd₁ (hd₂.mono _ le_top), ?_,
      fun rest s => ?_⟩
    · rw [Expr.eval, hv₁, hv₂, BoolExpr.eval, Bool.and_comm]
      exact congrArg flag (by rw [flag_ne_zero, flag_ne_zero])
    · rw [run_append, run_cons, ← hrun₂, ← calcItems_infix count .and a, ← hrun₁]
      simp [cmdOf]
  | @or a items₁ items₂ e₁ e₂ _ _ ih₁ ih₂ =>
    obtain ⟨ts₁, x₁, hd₁, hv₁, hrun₁⟩ := ih₁
    obtain ⟨ts₂, x₂, hd₂, hv₂, hrun₂⟩ := ih₂
    refine ⟨ts₁ ++ .binary .or :: ts₂, .binary .or x₁ x₂, .binary le_rfl hd₁ hd₂, ?_, fun rest s => ?_⟩
    · rw [Expr.eval, hv₁, hv₂, BoolExpr.eval, Bool.or_comm]
      exact congrArg flag (by rw [flag_ne_zero, flag_ne_zero])
    · rw [run_append, run_cons, ← hrun₂, ← calcItems_infix count .or a, ← hrun₁]
      simp [cmdOf]

theorem calcBoolStack_parses (count : ℕ → UInt8)
    (h : Parses .disj items e) : calcBoolStack items count = some ⟨[], [flag (e.eval count)]⟩ := by
  obtain ⟨ts, x, hd, hv, hrun⟩ := h.tokens count
  have hitems : calcItems count false items ⟨[], []⟩ = some (stackOf (run boolOps ts ⟨[], []⟩)) := by
    simpa [calcItems, stackOf] using hrun [] ⟨[], []⟩
  have hend := performWhile_cmdOf (p := fun c => c != .bot) (q := fun _ => true)
    (fun c => by rcases c with _ | (_ | _) | _ <;> rfl) (run boolOps ts ⟨[], []⟩).cmds
    (run boolOps ts ⟨[], []⟩).args
  have hfin := finish_run boolOps hd
  rw [finish] at hfin
  rw [calcBoolStack, hitems, Option.map_some]
  simp only [stackOf] at hend ⊢
  rw [hend, hfin, hv]
  rfl

/-- **`UdmCalcBoolItems` computes the truth value of the query**, and at its end one value is
left on the data stack and nothing on the command stack. -/
theorem udmCalcBoolItems_parses (count : ℕ → UInt8) (items : List UdmStackItem) (e : BoolExpr)
    (h : Parses .disj items e) :
    calcBoolStack items count = some ⟨[], [flag (e.eval count)]⟩ ∧
      udmCalcBoolItems items count = some (flag (e.eval count)) := by
  have hstack := calcBoolStack_parses count h
  exact ⟨hstack, by rw [udmCalcBoolItems, hstack]; rfl⟩

/-- `a | ~b & "c d"` with `b` and the phrase found is false: `NOT` and `AND` come first. -/
theorem udmCalcBoolItems_or_not_and :
    calcBoolStack [⟨.word, 0⟩, ⟨.or, 0⟩, ⟨.not, 0⟩, ⟨.word, 1⟩, ⟨.and, 0⟩,
      ⟨.phrase, 0⟩, ⟨.word, 2⟩, ⟨.word, 3⟩, ⟨.phrase, 0⟩] (fun arg => if arg = 0 then 0 else 1) =
        some ⟨[], [0]⟩ ∧
      udmCalcBoolItems [⟨.word, 0⟩, ⟨.or, 0⟩, ⟨.not, 0⟩, ⟨.word, 1⟩, ⟨.and, 0⟩,
        ⟨.phrase, 0⟩, ⟨.word, 2⟩, ⟨.word, 3⟩, ⟨.phrase, 0⟩] (fun arg => if arg = 0 then 0 else 1) = some 0 :=
  udmCalcBoolItems_parses (fun arg => if arg = 0 then 0 else 1)
    ([⟨.word, 0⟩] ++ ⟨.or, 0⟩ :: ([⟨.not, 0⟩, ⟨.word, 1⟩] ++ ⟨.and, 0⟩ ::
      (⟨.phrase, 0⟩ :: ⟨.word, 2⟩ :: ([⟨.word, 3⟩] ++ [⟨.phrase, 0⟩]))))
    (.or (.word 0) (.and (.not (.word 1)) (.phrase 2)))
    (.or 0 (.word 0) (.and 0 (by decide) (.not 0 (.word 1)) (.phrase 0 0 (by decide) (by decide))))

end MnoGoSearch.Query
