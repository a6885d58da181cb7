import MnoGoSearch.Query.ItemList
import Mathlib

/-!
# Completing a query, and dropping it

The query parser leaves a list of items in which neighbouring words may have no operator
between them. `UdmStackItemListCopy` (`boolean.c`) copies the list, inserts an operator that
depends on the search mode, and gives the copy up when it holds no phrase, no `OR` and no
`NOT`: the condition is then taken to be redundant, and the scorer falls back on the plain
test of the search mode.

`acceptsDocument_exact_iff` says when a document is accepted as the completed expression
says: always in the modes `all` and `bool`, and in the mode `any` unless the query asks for
a conjunction in so many words.
-/

namespace MnoGoSearch.Query

/-! ### The copy -/

/-- `UDM_MODE_*`. -/
inductive UdmSearchMode where
  | all
  | any
  | bool
  | phrase
  | allMinus
  | allMinusHalf
  deriving DecidableEq, Repr

/-- The operator to insert: search mode dependent. -/
def addCmdOf : UdmSearchMode → StackCmd
  | .any => .or
  | _ => .and

/-- WORD or PHRASE or RIGHT or STOPWORD. -/
def endsOperand : StackCmd → Bool
  | .word | .stop | .phrase | .right => true
  | _ => false

/-- WORD or PHRASE or LEFT or STOPWORD or NOT. -/
def startsOperand : StackCmd → Bool
  | .word | .stop | .phrase | .left | .not => true
  | _ => false

/-- The loop of `UdmStackItemListCopy`, behind an item with command `prev`. -/
@[grind =] def copyItems (addCmd : StackCmd) : StackCmd → Bool → List UdmStackItem → List UdmStackItem
  | _, _, [] => []
  | prev, inphrase, item :: items =>
    let rest := item :: copyItems addCmd item.cmd (if item.cmd = .phrase then !inphrase else inphrase) items
    if endsOperand prev && startsOperand item.cmd && !inphrase then ⟨addCmd, 0⟩ :: rest else rest

/-- The completed item list. -/
def completeItems (mode : UdmSearchMode) : List UdmStackItem → List UdmStackItem
  | [] => []
  | item :: items => item :: copyItems (addCmdOf mode) item.cmd (item.cmd == .phrase) items

/-- How often a command occurs, as `UDM_STACK_STAT` counts it. -/
def countCmd (c : StackCmd) (items : List UdmStackItem) : ℕ := items.countP fun item => item.cmd = c

/-- `UdmStackItemListCopy`. No commands other than AND and parenthesis: the copy is freed.
Phrases are ignored in the loose modes. -/
def udmStackItemListCopy (mode : UdmSearchMode) (items : List UdmStackItem) : List UdmStackItem :=
  let dst := completeItems mode items
  let nPhrase := if mode = .allMinus ∨ mode = .allMinusHalf then 0 else countCmd .phrase dst
  if nPhrase = 0 ∧ countCmd .or dst = 0 ∧ countCmd .not dst = 0 then [] else dst

/-! ### The scorer -/

/-- The end of `UdmScoreParamInitStep2`: the search mode and the condition that remain. -/
def udmScoreParamInitStep2 (mode : UdmSearchMode) (query : QueryState) : UdmSearchMode × List UdmStackItem :=
  if query.ncmds > 0 ∨ mode = .bool then
    let copy := udmStackItemListCopy mode query.items
    if copy.isEmpty then (mode, []) else (.bool, copy)
  else (mode, [])

/-- `UdmOptimizeUsingAND`. -/
def udmOptimizeUsingAND (items : List UdmStackItem) (mode : UdmSearchMode) : Bool :=
  match mode with
  | .all => true
  | .bool => items.all fun item => item.cmd = .phrase ∨ item.cmd = .and ∨ item.cmd = .word
  | _ => false

/-- `UdmCountThreshold`. -/
def udmCountThreshold (mode : UdmSearchMode) (nuniq : ℕ) : ℕ :=
  match mode with
  | .allMinus => nuniq - 1
  | .allMinusHalf => 1 + (nuniq - 1) / 2
  | _ => 0

/-- The tests of `UdmGroupByURLLoop2` on one document. `found` says which positions of the
query the word masks of its sections have, `count` is the count array and `rare` the extra
count of rare words. -/
def acceptsDocument (mode : UdmSearchMode) (query : QueryState) (found : ℕ → Bool) (count : ℕ → UInt8)
    (rare : ℕ → ℕ) : Option Bool :=
  let (mode, items) := udmScoreParamInitStep2 mode query
  let z := List.range query.nuniq
  if udmOptimizeUsingAND items mode && !z.all found then some false
  else
    let checkCounts : Bool :=
      if mode = .all ∧ query.nuniq > 30 then z.all fun z => count z != 0
      else if mode = .allMinus ∨ mode = .allMinusHalf then
        udmCountThreshold mode query.nuniq ≤ ((z.filter fun z => count z != 0).map fun z => 1 + rare z).sum
      else true
    if mode = .bool then (udmCalcBoolItems items count).map fun res => res != 0 && checkCounts
    else some checkCounts

/-- Evaluating the completed expression. -/
def evaluates (mode : UdmSearchMode) (query : QueryState) (count : ℕ → UInt8) : Option Bool :=
  (udmCalcBoolItems (completeItems mode query.items) count).map fun res => res != 0

/-- `count` and `found` of one document agree: outside phrases a word counts when it is found,
and the flag of a phrase (of the item `phrase` it begins with) is set only when all its words
are found. -/
@[grind =] def CountsOf (found : ℕ → Bool) (count : ℕ → UInt8) : Option ℕ → List UdmStackItem → Prop
  | _, [] => True
  | none, item :: items =>
    match item.cmd with
    | .word => (count item.arg ≠ 0 ↔ found item.arg = true) ∧ CountsOf found count none items
    | .phrase => CountsOf found count (some (items.head?.elim 0 UdmStackItem.arg)) items
    | _ => CountsOf found count none items
  | some phrase, item :: items =>
    match item.cmd with
    | .word => (count phrase ≠ 0 → found item.arg = true) ∧ CountsOf found count (some phrase) items
    | .phrase => CountsOf found count none items
    | _ => CountsOf found count (some phrase) items

/-! ### Item lists with nothing but conjunctions -/

/-- Whether all operands are true: words outside phrases, and the flags of phrases. -/
@[grind =] def operandsTrue (count : ℕ → UInt8) : Bool → List UdmStackItem → Bool
  | _, [] => true
  | true, item :: items => operandsTrue count (item.cmd != .phrase) items
  | false, item :: items =>
    match item.cmd with
    | .word => count item.arg != 0 && operandsTrue count false items
    | .phrase => count (items.head?.elim 0 UdmStackItem.arg) != 0 && operandsTrue count true items
    | _ => operandsTrue count false items

/-- No operand follows an operand without an operator between them; `closed` says that an
operand has just ended. -/
def Spaced : Bool → Bool → List UdmStackItem → Prop
  | _, _, [] => True
  | true, _, item :: items => Spaced (item.cmd != .phrase) true items
  | false, closed, item :: items =>
    (startsOperand item.cmd = true → closed = false) ∧
      Spaced (item.cmd == .phrase) (endsOperand item.cmd) items

/-- Neither `OR` nor `NOT`, and no stray stack bottom. -/
def Conjunctive (items : List UdmStackItem) : Prop :=
  ∀ item ∈ items, item.cmd ≠ .or ∧ item.cmd ≠ .not ∧ item.cmd ≠ .bot

/-- All values on the stack are true. -/
def allTrue (astack : List ℕ) : Bool := astack.all (· != 0)

/-- The stacks of a conjunction: only `AND` and open brackets wait, and there are no more
values than the waiting `AND` can take, and one more when an operand has just ended. -/
def ConjStack (closed : Bool) (s : UdmBoolStack) : Prop :=
  (∀ c ∈ s.cstack, c = .and ∨ c = .left) ∧
    s.astack.length ≤ s.cstack.count .and + if closed then 1 else 0

variable {closed inphrase : Bool} {s : UdmBoolStack} {rare : ℕ → ℕ} {query : QueryState} {count : ℕ → UInt8}
variable {z : ℕ} {mode : UdmSearchMode} {addCmd prev : StackCmd} {item : UdmStackItem}
variable {items : List UdmStackItem} {cstack : List StackCmd}

theorem ConjStack.close (h : ConjStack closed s) : ConjStack true s := by
  refine ⟨h.1, le_trans h.2 ?_⟩
  cases closed <;> simp

theorem perform_and (astack : List ℕ) :
    allTrue (perform astack .and) = allTrue astack ∧ (perform astack .and).length ≤ max 1 (astack.length - 1) := by
  rcases astack with _ | ⟨x, _ | ⟨y, rest⟩⟩
  · exact ⟨rfl, by simp [perform, popArg]⟩
  · refine ⟨?_, by simp [perform, popArg]⟩
    simp [perform, popArg, allTrue, StackCmd.code]
  · refine ⟨?_, by simp [perform, popArg]⟩
    simp [perform, popArg, allTrue, Bool.and_assoc]

theorem performWhile_conj (p : StackCmd → Bool) {astack : List ℕ}
    (h : ConjStack true ⟨cstack, astack⟩) :
    ConjStack true (performWhile p cstack astack) ∧
      allTrue (performWhile p cstack astack).astack = allTrue astack := by
  induction cstack generalizing astack with
  | nil => exact ⟨h, rfl⟩
  | cons c cstack ih =>
    rw [performWhile]
    split
    · obtain ⟨hc, hlen⟩ := h
      have hrest : ∀ c' ∈ cstack, c' = .and ∨ c' = .left := fun c' hc' => hc c' (List.mem_cons_of_mem _ hc')
      rcases hc c (by simp) with rfl | rfl
      · obtain ⟨htrue, hperf⟩ := perform_and astack
        have hlen' : (perform astack .and).length ≤ cstack.count .and + 1 := by
          simp only [List.count_cons_self, if_true] at hlen
          omega
        obtain ⟨hst, hall⟩ := ih ⟨hrest, hlen'⟩
        exact ⟨hst, hall.trans htrue⟩
      · -- an open bracket is dropped
        have hlen' : astack.length ≤ cstack.count .and + 1 := by simpa using hlen
        exact ih ⟨hrest, hlen'⟩
    · exact ⟨h, rfl⟩

theorem ConjStack.popLeft (h : ConjStack true s) : ConjStack true ⟨Query.popLeft s.cstack, s.astack⟩ := by
  obtain ⟨cstack, astack⟩ := s
  rw [Query.popLeft]
  split
  · rename_i htop
    cases cstack with
    | nil => exact h
    | cons c cs =>
      obtain rfl : c = .left := htop
      exact ⟨fun c hc => h.1 c (List.mem_cons_of_mem _ hc), by simpa using h.2⟩
  · exact h

theorem ConjStack.pushAnd (h : ConjStack true s) : ConjStack false ⟨.and :: s.cstack, s.astack⟩ := by
  refine ⟨fun c hc => ?_, by simpa using h.2⟩
  rcases List.mem_cons.mp hc with rfl | hc
  · exact Or.inl rfl
  · exact h.1 c hc

theorem exists_calcItems (count : ℕ → UInt8) (h : quotesClosed inphrase items = true) (s : UdmBoolStack) :
    ∃ s', calcItems count inphrase items s = some s' := by
  induction items generalizing inphrase s with
  | nil =>
    cases inphrase
    · exact ⟨s, rfl⟩
    · simp [quotesClosed] at h
  | cons item items ih =>
    obtain ⟨cmd, arg⟩ := item
    cases inphrase
    · cases cmd
      case phrase =>
        cases items with
        | nil => simp [quotesClosed] at h
        | cons first items => exact ih h _
      all_goals exact ih h _
    · rw [calcItems]
      refine ih ?_ s
      by_cases hc : cmd = .phrase
      · subst hc
        exact h
      · have hne : (cmd != .phrase) = true := bne_iff_ne.mpr hc
        rw [quotesClosed, if_neg hc] at h
        rwa [hne]

/-- What the machine has computed of a conjunction: the values on its stack are all true when
they were before and the operands read are true. -/
theorem calcItems_conj (count : ℕ → UInt8)
    {s' : UdmBoolStack} (hconj : Conjunctive items) (hspaced : Spaced inphrase closed items)
    (hs : ConjStack (inphrase || closed) s) (hrun : calcItems count inphrase items s = some s') :
    ConjStack true s' ∧ allTrue s'.astack = (allTrue s.astack && operandsTrue count inphrase items) := by
  induction items generalizing inphrase closed s with
  | nil =>
    cases inphrase
    · obtain rfl := Option.some.inj hrun
      exact ⟨hs.close, by simp [operandsTrue]⟩
    · simp [calcItems] at hrun
  | cons item items ih =>
    obtain ⟨cmd, arg⟩ := item
    have hrest : Conjunctive items := fun it hit => hconj it (List.mem_cons_of_mem _ hit)
    cases inphrase
    · obtain ⟨hstart, hnext⟩ := hspaced
      -- an operand pushes its value where none is waiting for an operator
      have hpush : ∀ v, startsOperand cmd = true → ConjStack true ⟨s.cstack, v :: s.astack⟩ := by
        intro v hst
        obtain ⟨hc, hlen⟩ := hs
        rw [hstart hst] at hlen
        exact ⟨hc, by simpa using hlen⟩
      cases cmd
      case or => exact absurd rfl (hconj ⟨.or, arg⟩ List.mem_cons_self).1
      case not => exact absurd rfl (hconj ⟨.not, arg⟩ List.mem_cons_self).2.1
      case bot => exact absurd rfl (hconj ⟨.bot, arg⟩ List.mem_cons_self).2.2
      case word =>
        have hnext' : Spaced false true items := hnext
        obtain ⟨hst, hall⟩ := ih hrest hnext' (hpush _ rfl) hrun
        refine ⟨hst, hall.trans ?_⟩
        simp only [operandsTrue, allTrue, List.all_cons, flag_ne_zero]
        rw [Bool.and_comm (count arg != 0) (s.astack.all _), Bool.and_assoc]
      case stop =>
        have hnext' : Spaced false true items := hnext
        obtain ⟨hst, hall⟩ := ih hrest hnext' (hpush 1 rfl) hrun
        exact ⟨hst, hall⟩
      case phrase =>
        cases items with
        | nil => simp [calcItems] at hrun
        | cons first items =>
          have hnext' : Spaced true true (first :: items) := hnext
          obtain ⟨hst, hall⟩ := ih hrest hnext' (hpush _ rfl) hrun
          refine ⟨hst, hall.trans ?_⟩
          simp only [operandsTrue, allTrue, List.all_cons, flag_ne_zero, List.head?_cons, Option.elim_some]
          rw [Bool.and_comm (count first.arg != 0) (s.astack.all _), Bool.and_assoc]
      case left =>
        have hnext' : Spaced false false items := hnext
        have hopen : closed = false := hstart rfl
        refine ih hrest hnext' (s := ⟨.left :: s.cstack, s.astack⟩) ⟨?_, ?_⟩ hrun
        · intro c hc
          rcases List.mem_cons.mp hc with rfl | hc
          · exact Or.inr rfl
          · exact hs.1 c hc
        · have hlen := hs.2
          rw [hopen] at hlen
          simpa using hlen
      case right =>
        have hnext' : Spaced false true items := hnext
        obtain ⟨hst, hall⟩ := performWhile_conj (fun c => c != .left && c != .bot) hs.close
        have hrun' := hrun
        simp only [calcItems] at hrun'
        obtain ⟨hst', hall'⟩ := ih hrest hnext' hst.popLeft hrun'
        exact ⟨hst', by rw [hall', hall]; rfl⟩
      case and =>
        have hnext' : Spaced false false items := hnext
        obtain ⟨hst, hall⟩ := performWhile_conj (fun c => decide (StackCmd.and.code ≤ c.code)) hs.close
        have hrun' := hrun
        simp only [calcItems] at hrun'
        obtain ⟨hst', hall'⟩ := ih hrest hnext' hst.pushAnd hrun'
        exact ⟨hst', by rw [hall', hall]; rfl⟩
    · rw [calcItems] at hrun
      have hs' : ConjStack ((cmd != .phrase) || true) s := by simpa using hs
      exact ih hrest hspaced hs' hrun

theorem performWhile_cstack {p : StackCmd → Bool} (h : ∀ c ∈ cstack, p c = true)
    (astack : List ℕ) : (performWhile p cstack astack).cstack = [] := by
  induction cstack generalizing astack with
  | nil => rfl
  | cons c cstack ih =>
    rw [performWhile, if_pos (h c (by simp))]
    exact ih (fun c' hc' => h c' (List.mem_cons_of_mem _ hc')) _

/-- **Evaluating a conjunction**: the result is true exactly when all operands are, however the
operators and brackets of the query are misplaced. -/
theorem udmCalcBoolItems_conj (count : ℕ → UInt8) (hconj : Conjunctive items)
    (hspaced : Spaced false false items) (hquotes : quotesClosed false items = true) :
    (udmCalcBoolItems items count).map (· != 0) = some (operandsTrue count false items) := by
  obtain ⟨s, hrun⟩ := exists_calcItems count hquotes ⟨[], []⟩
  obtain ⟨hst, hall⟩ := calcItems_conj count hconj hspaced (s := ⟨[], []⟩) ⟨by simp, by simp⟩ hrun
  obtain ⟨hst', hall'⟩ := performWhile_conj (fun c => c != .bot) hst
  have hbot : ∀ c ∈ s.cstack, (c != .bot) = true := by
    intro c hc
    rcases hst.1 c hc with rfl | rfl <;> rfl
  have hempty := performWhile_cstack hbot s.astack
  rw [udmCalcBoolItems, calcBoolStack, hrun]
  simp only [Option.map_some, Option.some.injEq]
  have hval : allTrue (performWhile (fun c => c != .bot) s.cstack s.astack).astack = operandsTrue count false items := by
    rw [hall', hall]
    rfl
  rw [← hval]
  -- no command is left, so at most one value is
  have hlen := hst'.2
  rw [hempty] at hlen
  generalize (performWhile (fun c => c != .bot) s.cstack s.astack).astack = astack at hlen ⊢
  rcases astack with _ | ⟨x, _ | ⟨y, rest⟩⟩
  · rfl
  · simp [popArg, allTrue]
  · simp at hlen

/-! ### The completed list -/

theorem addCmdOf_cases (mode : UdmSearchMode) : addCmdOf mode = .or ∨ addCmdOf mode = .and := by
  cases mode <;> simp [addCmdOf]

theorem spaced_true (a b : Bool) (items : List UdmStackItem) : Spaced true a items ↔ Spaced true b items := by
  cases items <;> rfl

theorem head?_copyItems_true (addCmd prev : StackCmd) (items : List UdmStackItem) :
    (copyItems addCmd prev true items).head? = items.head? := by
  cases items <;> simp [copyItems]

theorem mem_copyItems (h : item ∈ copyItems addCmd prev inphrase items) : item ∈ items ∨ item = ⟨addCmd, 0⟩ := by
  induction items generalizing prev inphrase with
  | nil => simp [copyItems] at h
  | cons first items ih =>
    have hrest : ∀ ip, item ∈ first :: copyItems addCmd first.cmd ip items → item ∈ first :: items ∨ item = ⟨addCmd, 0⟩ := by
      intro ip hmem
      rcases List.mem_cons.mp hmem with rfl | hmem
      · exact Or.inl List.mem_cons_self
      · exact (ih hmem).imp_left (List.mem_cons_of_mem _)
    simp only [copyItems] at h
    split at h
    · rcases List.mem_cons.mp h with rfl | h
      · exact Or.inr rfl
      · exact hrest _ h
    · exact hrest _ h

theorem mem_copyItems_of_mem (h : item ∈ items) : item ∈ copyItems addCmd prev inphrase items := by
  induction items generalizing prev inphrase with
  | nil => simp at h
  | cons first items ih =>
    have hrest : ∀ ip, item ∈ first :: copyItems addCmd first.cmd ip items := by
      intro ip
      rcases List.mem_cons.mp h with rfl | h
      · exact List.mem_cons_self
      · exact List.mem_cons_of_mem _ (ih h)
    simp only [copyItems]
    split
    · exact List.mem_cons_of_mem _ (hrest _)
    · exact hrest _

theorem spaced_copyItems (hadd : addCmd = .or ∨ addCmd = .and) (prev : StackCmd)
    (inphrase : Bool) (items : List UdmStackItem) :
    Spaced inphrase (endsOperand prev) (copyItems addCmd prev inphrase items) := by
  induction items generalizing prev inphrase with
  | nil => cases inphrase <;> exact trivial
  | cons item items ih =>
    have hnext := ih item.cmd (if item.cmd = .phrase then !inphrase else inphrase)
    cases inphrase with
    | true =>
      simp only [copyItems, Bool.not_true, Bool.and_false, Bool.false_eq_true, if_false, Spaced]
      by_cases hc : item.cmd = .phrase
      · simp only [hc, if_true, Bool.not_true] at hnext ⊢
        exact hnext
      · have hne : (item.cmd != .phrase) = true := bne_iff_ne.mpr hc
        simp only [hc, if_false] at hnext ⊢
        rw [hne]
        exact (spaced_true _ _ _).mp hnext
    | false =>
      -- the item itself, behind whatever ends no operand
      have hitem : ∀ closed, (startsOperand item.cmd = true → closed = false) → Spaced false closed
          (item :: copyItems addCmd item.cmd (if item.cmd = .phrase then !false else false) items) := by
        intro closed hclosed
        refine ⟨hclosed, ?_⟩
        by_cases hc : item.cmd = .phrase
        · simpa [hc] using hnext
        · have hne : (item.cmd == .phrase) = false := beq_eq_false_iff_ne.mpr hc
          simpa [hc, hne] using hnext
      simp only [copyItems]
      split
      · rcases hadd with rfl | rfl <;> exact ⟨fun _ => by contradiction, hitem false fun _ => rfl⟩
      · rename_i hgap
        refine hitem _ fun hst => ?_
        simpa [hst] using hgap

theorem operandsTrue_copyItems (count : ℕ → UInt8) (hadd : addCmd = .or ∨ addCmd = .and)
    (prev : StackCmd) (inphrase : Bool) (items : List UdmStackItem) :
    operandsTrue count inphrase (copyItems addCmd prev inphrase items) = operandsTrue count inphrase items := by
  induction items generalizing prev inphrase with
  | nil => rfl
  | cons item items ih =>
    obtain ⟨cmd, arg⟩ := item
    have hnext := ih cmd (if cmd = .phrase then !inphrase else inphrase)
    cases inphrase with
    | true =>
      simp only [copyItems, Bool.not_true, Bool.and_false, Bool.false_eq_true, if_false, operandsTrue]
      by_cases hc : cmd = .phrase
      · subst hc
        exact hnext
      · have hne : (cmd != .phrase) = true := bne_iff_ne.mpr hc
        simpa [hc, hne] using hnext
    | false =>
      have hitem : operandsTrue count false
          (⟨cmd, arg⟩ :: copyItems addCmd cmd (if cmd = .phrase then !false else false) items) =
            operandsTrue count false (⟨cmd, arg⟩ :: items) := by
        cases cmd
        case phrase =>
          simp only [operandsTrue, if_true, Bool.not_false, head?_copyItems_true] at hnext ⊢
          rw [hnext]
        case word =>
          simp only [operandsTrue] at hnext ⊢
          exact congrArg _ hnext
        all_goals exact hnext
      simp only [copyItems]
      split
      · rcases hadd with rfl | rfl <;> exact hitem
      · exact hitem

theorem quotesClosed_copyItems (hadd : addCmd = .or ∨ addCmd = .and)
    (prev : StackCmd) (inphrase : Bool) (items : List UdmStackItem) :
    quotesClosed inphrase (copyItems addCmd prev inphrase items) = quotesClosed inphrase items := by
  induction items generalizing prev inphrase with
  | nil => rfl
  | cons item items ih =>
    have hitem : quotesClosed inphrase
        (item :: copyItems addCmd item.cmd (if item.cmd = .phrase then !inphrase else inphrase) items) =
          quotesClosed inphrase (item :: items) := ih _ _
    simp only [copyItems]
    split
    · rcases hadd with rfl | rfl <;> exact hitem
    · exact hitem

theorem spaced_completeItems (mode : UdmSearchMode) (items : List UdmStackItem) :
    Spaced false false (completeItems mode items) := by
  cases items with
  | nil => exact trivial
  | cons item items => exact ⟨fun _ => rfl, spaced_copyItems (addCmdOf_cases mode) _ _ _⟩

theorem operandsTrue_completeItems (count : ℕ → UInt8) (mode : UdmSearchMode) (items : List UdmStackItem) :
    operandsTrue count false (completeItems mode items) = operandsTrue count false items := by
  cases items with
  | nil => rfl
  | cons item items =>
    obtain ⟨cmd, arg⟩ := item
    have hnext := operandsTrue_copyItems count (addCmdOf_cases mode) cmd (cmd == .phrase) items
    cases cmd
    case phrase =>
      have hhead := head?_copyItems_true (addCmdOf mode) .phrase items
      simp only [completeItems, operandsTrue, beq_self_eq_true] at hnext ⊢
      rw [hhead, hnext]
    case word =>
      simp only [completeItems, operandsTrue] at hnext ⊢
      exact congrArg _ hnext
    all_goals exact hnext

theorem quotesClosed_completeItems (mode : UdmSearchMode) (items : List UdmStackItem) :
    quotesClosed false (completeItems mode items) = quotesClosed false items := by
  cases items with
  | nil => rfl
  | cons item items =>
    have hnext := quotesClosed_copyItems (addCmdOf_cases mode) item.cmd (item.cmd == .phrase) items
    by_cases hc : item.cmd = .phrase
    · simpa [completeItems, quotesClosed, hc] using hnext
    · have hne : (item.cmd == .phrase) = false := beq_eq_false_iff_ne.mpr hc
      simpa [completeItems, quotesClosed, hc, hne] using hnext

theorem mem_completeItems (h : item ∈ completeItems mode items) : item ∈ items ∨ item = ⟨addCmdOf mode, 0⟩ := by
  cases items with
  | nil => simp [completeItems] at h
  | cons first items =>
    rcases List.mem_cons.mp h with rfl | h
    · exact Or.inl List.mem_cons_self
    · exact (mem_copyItems h).imp_left (List.mem_cons_of_mem _)

theorem mem_completeItems_of_mem (h : item ∈ items) : item ∈ completeItems mode items := by
  cases items with
  | nil => simp at h
  | cons first items =>
    rcases List.mem_cons.mp h with rfl | h
    · exact List.mem_cons_self
    · exact List.mem_cons_of_mem _ (mem_copyItems_of_mem h)

/-! ### When the condition is dropped -/

theorem operandsTrue_iff (count : ℕ → UInt8) (h : ∀ item ∈ items, item.cmd ≠ .phrase) :
    operandsTrue count false items = true ↔ ∀ z, ⟨.word, z⟩ ∈ items → count z ≠ 0 := by
  induction items with
  | nil => simp [operandsTrue]
  | cons item items ih =>
    obtain ⟨cmd, arg⟩ := item
    have ih' := ih fun it hit => h it (List.mem_cons_of_mem _ hit)
    cases cmd
    case phrase => exact absurd rfl (h ⟨.phrase, arg⟩ List.mem_cons_self)
    case word => simp [operandsTrue, ih']
    all_goals simp [operandsTrue, ih']

theorem CountsOf.iff_found {found : ℕ → Bool}
    (h : ∀ item ∈ items, item.cmd ≠ .phrase) (hc : CountsOf found count none items)
    (hz : ⟨.word, z⟩ ∈ items) : count z ≠ 0 ↔ found z = true := by
  induction items with
  | nil => simp at hz
  | cons item items ih =>
    obtain ⟨cmd, arg⟩ := item
    have ih' := ih fun it hit => h it (List.mem_cons_of_mem _ hit)
    rcases List.mem_cons.mp hz with heq | hrest
    · obtain ⟨rfl, rfl⟩ := UdmStackItem.mk.inj heq
      exact hc.1
    · cases cmd
      case phrase => exact absurd rfl (h ⟨.phrase, arg⟩ List.mem_cons_self)
      case word => exact ih' hc.2 hrest
      all_goals exact ih' hc hrest

theorem CountsOf.found {found : ℕ → Bool} {count : ℕ → UInt8} {phrase : Option ℕ} {items : List UdmStackItem}
    (hphrase : ∀ f ∈ phrase, count f ≠ 0) (hc : CountsOf found count phrase items)
    (htrue : operandsTrue count phrase.isSome items = true) {z : ℕ} (hz : ⟨.word, z⟩ ∈ items) : found z = true := by
  have hnone : ∀ f ∈ (none : Option ℕ), count f ≠ 0 := by simp
  induction items generalizing phrase with
  | nil => simp at hz
  | cons item items ih =>
    obtain ⟨cmd, arg⟩ := item
    cases phrase with
    | none =>
      cases cmd
      case word =>
        simp only [Option.isSome_none, operandsTrue, Bool.and_eq_true, bne_iff_ne] at htrue
        rcases List.mem_cons.mp hz with heq | hz
        · obtain ⟨-, rfl⟩ := UdmStackItem.mk.inj heq
          exact hc.1.mp htrue.1
        · exact ih hnone hc.2 htrue.2 hz
      case phrase =>
        simp only [Option.isSome_none, operandsTrue, Bool.and_eq_true, bne_iff_ne] at htrue
        rcases List.mem_cons.mp hz with heq | hz
        · simp at heq
        · have hflag : ∀ f ∈ some (items.head?.elim 0 UdmStackItem.arg), count f ≠ 0 := by simpa using htrue.1
          exact ih hflag hc htrue.2 hz
      all_goals
        rcases List.mem_cons.mp hz with heq | hz
        · simp at heq
        · exact ih hnone hc htrue hz
    | some f =>
      cases cmd
      case word =>
        rcases List.mem_cons.mp hz with heq | hz
        · obtain ⟨-, rfl⟩ := UdmStackItem.mk.inj heq
          exact hc.1 (hphrase f rfl)
        · exact ih hphrase hc.2 htrue hz
      case phrase =>
        rcases List.mem_cons.mp hz with heq | hz
        · simp at heq
        · exact ih hnone hc htrue hz
      all_goals
        rcases List.mem_cons.mp hz with heq | hz
        · simp at heq
        · exact ih hphrase hc htrue hz

/-- The list holds no phrase, no `OR` and no `NOT`. -/
def Plain (items : List UdmStackItem) : Prop :=
  ∀ item ∈ items, item.cmd ≠ .phrase ∧ item.cmd ≠ .or ∧ item.cmd ≠ .not

instance (items : List UdmStackItem) : Decidable (Plain items) :=
  inferInstanceAs (Decidable (∀ item ∈ items, item.cmd ≠ .phrase ∧ item.cmd ≠ .or ∧ item.cmd ≠ .not))

/-- The search modes with a boolean condition. -/
def Boolean (mode : UdmSearchMode) : Prop := mode = .all ∨ mode = .any ∨ mode = .bool

theorem countCmd_eq_zero {c : StackCmd} : countCmd c items = 0 ↔ ∀ item ∈ items, item.cmd ≠ c := by
  simp [countCmd, List.countP_eq_zero]

theorem udmStackItemListCopy_eq (hmode : Boolean mode) (items : List UdmStackItem) :
    udmStackItemListCopy mode items = if Plain (completeItems mode items) then [] else completeItems mode items := by
  have hloose : ¬ (mode = .allMinus ∨ mode = .allMinusHalf) := by
    rcases hmode with rfl | rfl | rfl <;> simp
  rw [udmStackItemListCopy]
  simp only [hloose, if_false, countCmd_eq_zero]
  refine if_congr ?_ rfl rfl
  simp only [Plain, forall_and]

theorem evaluates_of_plain (hq : query.ItemsOk) (hquotes : quotesClosed false query.items = true)
    (hplain : Plain (completeItems mode query.items)) (count : ℕ → UInt8) :
    evaluates mode query count = some ((List.range query.nuniq).all fun z => count z != 0) := by
  have hitems : ∀ item ∈ query.items, item.cmd ≠ .phrase := fun item h => (hplain item (mem_completeItems_of_mem h)).1
  have hconj : Conjunctive (completeItems mode query.items) := by
    intro item hitem
    refine ⟨(hplain item hitem).2.1, (hplain item hitem).2.2, ?_⟩
    rcases mem_completeItems hitem with h | rfl
    · exact hq.noBot item h
    · rcases addCmdOf_cases mode with h | h <;> simp [h]
  rw [evaluates, udmCalcBoolItems_conj count hconj (spaced_completeItems _ _)
    (by rw [quotesClosed_completeItems]; exact hquotes), operandsTrue_completeItems]
  congr 1
  rw [Bool.eq_iff_iff, operandsTrue_iff count hitems]
  simp [hq.word]

theorem all_found_iff (hq : query.ItemsOk) {found : ℕ → Bool}
    (hitems : ∀ item ∈ query.items, item.cmd ≠ .phrase) (hc : CountsOf found count none query.items) :
    (List.range query.nuniq).all found = (List.range query.nuniq).all fun z => count z != 0 := by
  rw [Bool.eq_iff_iff]
  simp only [List.all_eq_true, List.mem_range, bne_iff_ne]
  exact forall₂_congr fun z hz => (hc.iff_found hitems ((hq.word z).mpr hz)).symm

/-- A kept condition is the completed expression: the test for all words that may come before
it lets through what the expression does. -/
theorem acceptsDocument_of_kept (hq : query.ItemsOk) (hquotes : quotesClosed false query.items = true)
    {found : ℕ → Bool} (hkept : udmScoreParamInitStep2 mode query = (.bool, completeItems mode query.items))
    (hc : CountsOf found count none query.items) :
    acceptsDocument mode query found count rare = evaluates mode query count := by
  rw [acceptsDocument, hkept]
  simp only [reduceCtorEq, false_and, or_self, if_false, if_true, Bool.and_true]
  split
  · rename_i hand
    simp only [Bool.and_eq_true, Bool.not_eq_true', udmOptimizeUsingAND] at hand
    obtain ⟨hopt, hnot⟩ := hand
    have hconj : Conjunctive (completeItems mode query.items) := by
      intro item hitem
      have := List.all_eq_true.mp hopt item hitem
      rw [decide_eq_true_eq] at this
      rcases this with h | h | h <;> simp [h]
    rw [evaluates, udmCalcBoolItems_conj count hconj (spaced_completeItems _ _)
      (by rw [quotesClosed_completeItems]; exact hquotes), operandsTrue_completeItems]
    -- some word has not been found, so some operand is false
    congr 1
    symm
    rw [← Bool.not_eq_true]
    intro htrue
    have hall : (List.range query.nuniq).all found = true := by
      rw [List.all_eq_true]
      intro z hz
      have hnone : ∀ f ∈ (none : Option ℕ), count f ≠ 0 := by simp
      exact hc.found hnone htrue ((hq.word z).mpr (List.mem_range.mp hz))
    exact Bool.false_ne_true (hnot.symm.trans hall)
  · rfl

theorem plain_completeItems_of_and (hand : addCmdOf mode = .and)
    (h : Plain items) : Plain (completeItems mode items) := by
  intro item hitem
  rcases mem_completeItems hitem with hmem | rfl
  · exact h item hmem
  · simp [hand]

/-- The two ways the scorer is left without a condition to evaluate: there is no operator, or
the copy has been given up. -/
theorem udmScoreParamInitStep2_cases (hmode : Boolean mode) (query : QueryState) :
    udmScoreParamInitStep2 mode query = (.bool, completeItems mode query.items) ∨
      udmScoreParamInitStep2 mode query = (mode, []) ∧
        (query.ncmds = 0 ∧ mode ≠ .bool ∨ Plain (completeItems mode query.items)) := by
  rw [udmScoreParamInitStep2, udmStackItemListCopy_eq hmode]
  by_cases hcall : query.ncmds > 0 ∨ mode = .bool
  · rw [if_pos hcall]
    by_cases hplain : Plain (completeItems mode query.items)
    · exact Or.inr ⟨by simp [hplain], Or.inr hplain⟩
    · have hne : completeItems mode query.items ≠ [] := by
        intro hnil
        exact hplain (by simp [hnil, Plain])
      exact Or.inl (by simp [hplain, hne])
  · rw [if_neg hcall, not_or] at *
    exact Or.inr ⟨rfl, Or.inl ⟨by omega, hcall.2⟩⟩

theorem acceptsDocument_of_dropped_all (hq : query.ItemsOk) (hmode : mode = .all ∨ mode = .bool)
    {found : ℕ → Bool} (hdrop : udmScoreParamInitStep2 mode query = (mode, []))
    (hitems : ∀ item ∈ query.items, item.cmd ≠ .phrase) (hc : CountsOf found count none query.items) :
    acceptsDocument mode query found count rare = some ((List.range query.nuniq).all fun z => count z != 0) := by
  have hall := all_found_iff hq hitems hc
  rw [acceptsDocument, hdrop]
  rcases hmode with rfl | rfl
  · cases hcounts : (List.range query.nuniq).all fun z => count z != 0 <;>
      simp [udmOptimizeUsingAND, hall, hcounts]
  · have hempty (count : ℕ → UInt8) : udmCalcBoolItems [] count = some StackCmd.bot.code := rfl
    cases hcounts : (List.range query.nuniq).all fun z => count z != 0 <;>
      simp [udmOptimizeUsingAND, hall, hcounts, hempty, StackCmd.code]

theorem acceptsDocument_of_dropped_any {found : ℕ → Bool} (hdrop : udmScoreParamInitStep2 .any query = (.any, [])) :
    acceptsDocument .any query found count rare = some true := by
  simp [acceptsDocument, hdrop, udmOptimizeUsingAND]

theorem parses_copyItems_or (count : ℕ → UInt8) {pre : List UdmStackItem} {e : BoolExpr}
    (hprev : endsOperand prev = true) (hpre : Parses .disj pre e)
    (h : ∀ item ∈ items, item.cmd = .word ∨ item.cmd = .stop) :
    ∃ e', Parses .disj (pre ++ copyItems .or prev false items) e' ∧
      (e'.eval count = true ↔ e.eval count = true ∨ ∃ item ∈ items, item.cmd = .word → count item.arg ≠ 0) := by
  induction items generalizing pre e prev with
  | nil => exact ⟨e, by simpa [copyItems] using hpre, by simp⟩
  | cons item items ih =>
    obtain ⟨cmd, arg⟩ := item
    have hrest : ∀ item ∈ items, item.cmd = .word ∨ item.cmd = .stop := fun it hit => h it (List.mem_cons_of_mem _ hit)
    rcases h ⟨cmd, arg⟩ List.mem_cons_self with rfl | rfl
    · obtain ⟨e', he', hval⟩ := ih (rfl : endsOperand .word = true) (hpre.or 0 (.word arg)) hrest
      exact ⟨e', by simpa [copyItems, hprev, startsOperand] using he', by simp [hval, BoolExpr.eval, or_assoc]⟩
    · obtain ⟨e', he', hval⟩ := ih (rfl : endsOperand .stop = true) (hpre.or 0 (.stop arg)) hrest
      exact ⟨e', by simpa [copyItems, hprev, startsOperand] using he', by simp [hval, BoolExpr.eval]⟩

theorem evaluates_any_of_ncmds (hq : query.ItemsOk) (hn : query.ncmds = 0)
    (hz : z < query.nuniq) (hcount : count z ≠ 0) : evaluates .any query count = some true := by
  have hitems := hq.ncmds.mp hn
  have hmem := (hq.word z).mpr hz
  rw [evaluates]
  cases hlist : query.items with
  | nil => simp [hlist] at hmem
  | cons item items =>
    obtain ⟨cmd, arg⟩ := item
    rw [hlist] at hitems hmem
    have hrest : ∀ item ∈ items, item.cmd = .word ∨ item.cmd = .stop := fun it hit => hitems it (List.mem_cons_of_mem _ hit)
    have hfirst : ∃ e, Parses .disj [⟨cmd, arg⟩] e ∧ (e.eval count = true ↔ (cmd = .word → count arg ≠ 0)) ∧
        endsOperand cmd = true ∧ (cmd == .phrase) = false := by
      rcases hitems ⟨cmd, arg⟩ List.mem_cons_self with rfl | rfl
      · exact ⟨_, .word arg, by simp [BoolExpr.eval], rfl, rfl⟩
      · exact ⟨_, .stop arg, by simp [BoolExpr.eval], rfl, rfl⟩
    obtain ⟨e, he, hval, hends, hphrase⟩ := hfirst
    obtain ⟨e', he', hval'⟩ := parses_copyItems_or count hends he hrest
    have htrue : e'.eval count = true := by
      rw [hval', hval]
      rcases List.mem_cons.mp hmem with heq | hmem
      · obtain ⟨-, rfl⟩ := UdmStackItem.mk.inj heq
        exact Or.inl fun _ => hcount
      · exact Or.inr ⟨_, hmem, fun _ => hcount⟩
    have hlist' : completeItems .any (⟨cmd, arg⟩ :: items) = [⟨cmd, arg⟩] ++ copyItems .or cmd false items := by
      rw [completeItems, hphrase]
      rfl
    rw [hlist', udmCalcBoolItems, calcBoolStack_parses count he', htrue]
    rfl

/-! ### The exact condition -/

/-- The query asks for several words and says so with its operators: there is no phrase, no
`OR` and no `NOT`, and no two neighbouring operands are without an operator. -/
def AsksForAll (query : QueryState) : Prop :=
  2 ≤ query.nuniq ∧ Plain query.items ∧
    query.items.IsChain fun a b => ¬ (endsOperand a.cmd = true ∧ startsOperand b.cmd = true)

theorem copyItems_of_isChain
    (h : (item :: items).IsChain fun a b => ¬ (endsOperand a.cmd = true ∧ startsOperand b.cmd = true))
    (hphrase : ∀ it ∈ items, it.cmd ≠ .phrase) : copyItems addCmd item.cmd false items = items := by
  induction items generalizing item with
  | nil => rfl
  | cons next items ih =>
    obtain ⟨hgap, hrest⟩ := List.isChain_cons_cons.mp h
    have hne := hphrase next List.mem_cons_self
    have hgap' : (endsOperand item.cmd && startsOperand next.cmd) = false := by simpa using hgap
    simp only [copyItems, hne, if_false, hgap', Bool.false_and, Bool.false_eq_true]
    rw [ih hrest fun it hit => hphrase it (List.mem_cons_of_mem _ hit)]

theorem isChain_of_copyItems (addCmd : StackCmd)
    (hphrase : ∀ it ∈ items, it.cmd ≠ .phrase) (h : ∀ it ∈ copyItems addCmd item.cmd false items, it.cmd ≠ addCmd) :
    (item :: items).IsChain fun a b => ¬ (endsOperand a.cmd = true ∧ startsOperand b.cmd = true) := by
  induction items generalizing item with
  | nil => exact .singleton _
  | cons next items ih =>
    have hne := hphrase next List.mem_cons_self
    by_cases hgap : endsOperand item.cmd = true ∧ startsOperand next.cmd = true
    · refine absurd rfl (h ⟨addCmd, 0⟩ ?_)
      simp [copyItems, hgap]
    · have hgap' : (endsOperand item.cmd && startsOperand next.cmd) = false := by simpa using hgap
      simp only [copyItems, hne, if_false, hgap', Bool.false_and, Bool.false_eq_true] at h
      exact List.isChain_cons_cons.mpr ⟨hgap, ih (fun it hit => hphrase it (List.mem_cons_of_mem _ hit))
        fun it hit => h it (List.mem_cons_of_mem _ hit)⟩

theorem plain_completeItems_any_iff (items : List UdmStackItem) :
    Plain (completeItems .any items) ↔
      Plain items ∧ items.IsChain fun a b => ¬ (endsOperand a.cmd = true ∧ startsOperand b.cmd = true) := by
  cases items with
  | nil => simp [completeItems, Plain]
  | cons item items =>
    constructor
    · intro h
      have hplain : Plain (item :: items) := fun it hit => h it (mem_completeItems_of_mem hit)
      have hne : (item.cmd == .phrase) = false := beq_eq_false_iff_ne.mpr (hplain item List.mem_cons_self).1
      refine ⟨hplain, isChain_of_copyItems .or
        (fun it hit => (hplain it (List.mem_cons_of_mem _ hit)).1) fun it hit => ?_⟩
      refine (h it ?_).2.1
      rw [completeItems, hne]
      exact List.mem_cons_of_mem _ hit
    · rintro ⟨hplain, hchain⟩
      have hne : (item.cmd == .phrase) = false := beq_eq_false_iff_ne.mpr (hplain item List.mem_cons_self).1
      rw [completeItems, hne, copyItems_of_isChain hchain fun it hit => (hplain it (List.mem_cons_of_mem _ hit)).1]
      exact hplain

/-- The query means the same with and without its condition: on every document that has some
word of it, the tests of the scorer and the completed expression agree. -/
def PreservesQuery (mode : UdmSearchMode) (query : QueryState) : Prop :=
  ∀ found count rare, CountsOf found count none query.items → (∃ z < query.nuniq, found z = true) →
    acceptsDocument mode query found count rare = evaluates mode query count

theorem not_phrase_of_ncmds (hq : query.ItemsOk) (hn : query.ncmds = 0) : ∀ item ∈ query.items, item.cmd ≠ .phrase := by
  intro item hitem
  rcases hq.ncmds.mp hn item hitem with h | h <;> simp [h]

theorem plain_of_ncmds (hq : query.ItemsOk) (hn : query.ncmds = 0) : Plain query.items := by
  intro item hitem
  rcases hq.ncmds.mp hn item hitem with h | h <;> simp [h]

theorem preservesQuery_all_bool (hq : query.ItemsOk) (hquotes : quotesClosed false query.items = true)
    (hmode : mode = .all ∨ mode = .bool) : PreservesQuery mode query := by
  intro found count rare hc _
  have hmode' : Boolean mode := by
    rcases hmode with rfl | rfl
    · exact Or.inl rfl
    · exact Or.inr (Or.inr rfl)
  have hand : addCmdOf mode = .and := by rcases hmode with rfl | rfl <;> rfl
  rcases udmScoreParamInitStep2_cases hmode' query with hkept | ⟨hdrop, hwhy⟩
  · exact acceptsDocument_of_kept hq hquotes hkept hc
  · have hplain : Plain (completeItems mode query.items) := by
      rcases hwhy with ⟨hn, -⟩ | hplain
      · exact plain_completeItems_of_and hand (plain_of_ncmds hq hn)
      · exact hplain
    have hitems : ∀ item ∈ query.items, item.cmd ≠ .phrase := fun it hit => (hplain it (mem_completeItems_of_mem hit)).1
    rw [acceptsDocument_of_dropped_all hq hmode hdrop hitems hc, evaluates_of_plain hq hquotes hplain]

theorem preservesQuery_any_iff (hq : query.ItemsOk) (hquotes : quotesClosed false query.items = true) :
    PreservesQuery .any query ↔ ¬ AsksForAll query := by
  have hmode : Boolean .any := Or.inr (Or.inl rfl)
  constructor
  · rintro hpres ⟨htwo, hplain, hchain⟩
    have hcompl : Plain (completeItems .any query.items) := (plain_completeItems_any_iff _).mpr ⟨hplain, hchain⟩
    have hdrop : udmScoreParamInitStep2 .any query = (.any, []) := by
      rcases udmScoreParamInitStep2_cases hmode query with hkept | ⟨hdrop, -⟩
      · rw [udmScoreParamInitStep2, udmStackItemListCopy_eq hmode, if_pos hcompl] at hkept
        simp at hkept
      · exact hdrop
    -- a document with the first word only
    have hcounts : ∀ items, (∀ item ∈ items, item.cmd ≠ .phrase) →
        CountsOf (fun z => z == 0) (fun z => if z = 0 then 1 else 0) none items := by
      intro items hitems
      induction items with
      | nil => exact trivial
      | cons item items ih =>
        have ih' := ih fun it hit => hitems it (List.mem_cons_of_mem _ hit)
        obtain ⟨cmd, arg⟩ := item
        cases cmd
        case phrase => exact absurd rfl (hitems ⟨.phrase, arg⟩ List.mem_cons_self)
        case word => exact ⟨by by_cases h : arg = 0 <;> simp [h], ih'⟩
        all_goals exact ih'
    have h := hpres (fun z => z == 0) (fun z => if z = 0 then 1 else 0) (fun _ => 0)
      (hcounts _ fun it hit => (hplain it hit).1) ⟨0, by omega, rfl⟩
    rw [acceptsDocument_of_dropped_any hdrop, evaluates_of_plain hq hquotes hcompl, Option.some.injEq] at h
    have h1 := List.all_eq_true.mp h.symm 1 (List.mem_range.mpr (by omega))
    simp at h1
  · intro hnot found count rare hc hfound
    obtain ⟨z, hz, hzf⟩ := hfound
    rcases udmScoreParamInitStep2_cases hmode query with hkept | ⟨hdrop, hwhy⟩
    · exact acceptsDocument_of_kept hq hquotes hkept hc
    · rw [acceptsDocument_of_dropped_any hdrop]
      rcases hwhy with ⟨hn, -⟩ | hplain
      · have hcount := (hc.iff_found (not_phrase_of_ncmds hq hn) ((hq.word z).mpr hz)).mpr hzf
        rw [evaluates_any_of_ncmds hq hn hz hcount]
      · -- the one word of the query has been found
        obtain ⟨hitems, hchain⟩ := (plain_completeItems_any_iff _).mp hplain
        have hone : query.nuniq = 1 := by
          by_contra h
          exact hnot ⟨by omega, hitems, hchain⟩
        have hcount := (hc.iff_found (fun it hit => (hitems it hit).1) ((hq.word z).mpr hz)).mpr hzf
        obtain rfl : z = 0 := by omega
        rw [evaluates_of_plain hq hquotes hplain, hone]
        simp [hcount]

end MnoGoSearch.Query
