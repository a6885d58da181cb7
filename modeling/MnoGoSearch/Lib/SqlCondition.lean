import Mathlib.Data.List.Basic
import Mathlib.Data.Int.Order.Basic

/-!
# Conditions on a column

A condition of a query that compares one column with integers: its text cut into words and symbols, the grammar of
these tokens, and the numbers that satisfy it. `AND` binds more than `OR`; a list behind `IN` has numbers only.

`allowed_of_derives` refutes the grammar for a list of tokens by two of them: a comma comes two tokens behind a
parenthesis or a comma, and `OR` does not.
-/

namespace MnoGoSearch.Lib.SqlCondition

/-! ## Tokens -/

/-- A token. -/
inductive Token where
  /-- A name, a keyword or a number. -/
  | word (w : List UInt8)
  /-- Any other character but a blank. -/
  | sym (c : UInt8)
  deriving DecidableEq

/-- The characters of words: letters, digits, and `.`, `_`, `-`. -/
def isWordChar (c : UInt8) : Bool :=
  (0x41 ≤ c && c ≤ 0x5A) || (0x61 ≤ c && c ≤ 0x7A) || (0x30 ≤ c && c ≤ 0x39) || c = 0x2E || c = 0x5F || c = 0x2D

/-- The word that has been read. -/
def flush (w : List UInt8) : List Token := if w = [] then [] else [.word w]

/-- The tokens of a text, behind a word `w` that is being read. -/
@[grind =] def lexFrom : List UInt8 → List UInt8 → List Token
  | w, [] => flush w
  | w, c :: s =>
    if isWordChar c = true then lexFrom (w ++ [c]) s
    else flush w ++ ((if c = 0x20 then [] else [.sym c]) ++ lexFrom [] s)

/-- The tokens of a text. -/
def lex (s : List UInt8) : List Token := lexFrom [] s

@[simp] theorem lex_nil : lex [] = [] := rfl

theorem lexFrom_append {u : List UInt8} (hu : ∀ c ∈ u, isWordChar c = true) (w s : List UInt8) :
    lexFrom w (u ++ s) = lexFrom (w ++ u) s := by
  induction u generalizing w with
  | nil => simp
  | cons c u ih =>
    obtain ⟨hc, hu⟩ := List.forall_mem_cons.mp hu
    rw [List.cons_append, lexFrom, if_pos hc, ih hu, List.append_assoc, List.singleton_append]

variable {w : List UInt8} {x y z a b : Token}

theorem lex_word (hw : ∀ c ∈ w, isWordChar c = true) (hne : w ≠ []) {c : UInt8}
    (hc : isWordChar c = false) (s : List UInt8) : lex (w ++ c :: s) = .word w :: lex (c :: s) := by
  have hc' : ¬ isWordChar c = true := by rw [hc]; exact Bool.false_ne_true
  rw [lex, lexFrom_append hw, List.nil_append, lex, lexFrom, lexFrom, if_neg hc', if_neg hc', flush, flush, if_neg hne,
    if_pos rfl, List.nil_append, List.singleton_append]

theorem lex_blank (s : List UInt8) : lex (0x20 :: s) = lex s := by
  rw [lex, lexFrom, if_neg (by decide), if_pos rfl, flush, if_pos rfl, List.nil_append, List.nil_append, lex]

theorem lex_sym {c : UInt8} (hc : isWordChar c = false) (hblank : c ≠ 0x20) (s : List UInt8) :
    lex (c :: s) = .sym c :: lex s := by
  have hc' : ¬ isWordChar c = true := by rw [hc]; exact Bool.false_ne_true
  rw [lex, lexFrom, if_neg hc', if_neg hblank, flush, if_pos rfl, List.nil_append, List.singleton_append, lex]

/-! ## The grammar -/

/-- A condition. -/
inductive Cond where
  /-- The column is a number. -/
  | eq (n : ℤ)
  /-- It is not below a number. -/
  | ge (n : ℤ)
  /-- It is not above a number. -/
  | le (n : ℤ)
  /-- It is one of some numbers. -/
  | isIn (ns : List ℤ)
  | and (c d : Cond)
  | or (c d : Cond)

/-- A number satisfies a condition. -/
def Cond.Holds (x : ℤ) : Cond → Prop
  | .eq n => x = n
  | .ge n => n ≤ x
  | .le n => x ≤ n
  | .isIn ns => x ∈ ns
  | .and c d => c.Holds x ∧ d.Holds x
  | .or c d => c.Holds x ∨ d.Holds x

/-- The levels of the grammar. -/
inductive Level where
  /-- A comparison, a list, or a condition in parentheses. -/
  | atom
  /-- Some of these with `AND`. -/
  | conj
  /-- Some of these with `OR`. -/
  | expr

/-- `IN`. -/
def inWord : Token := .word [0x49, 0x4E]

/-- `AND`. -/
def andWord : Token := .word [0x41, 0x4E, 0x44]

/-- `OR`. -/
def orWord : Token := .word [0x4F, 0x52]

/-- `(`. -/
def lpar : Token := .sym 0x28

/-- `)`. -/
def rpar : Token := .sym 0x29

/-- `,`. -/
def comma : Token := .sym 0x2C

variable (col : List UInt8) (num : ℤ → List UInt8)

/-- The numbers of a list behind the first one. -/
def members (ns : List ℤ) : List Token := ns.flatMap fun n => [comma, .word (num n)]

/-- The tokens of a condition on the column `col`, with the numerals of `num`. -/
inductive Derives : Level → List Token → Cond → Prop where
  /-- `col=n`. -/
  | eq (n : ℤ) : Derives .atom [.word col, .sym 0x3D, .word (num n)] (.eq n)
  /-- `col>=n`. -/
  | ge (n : ℤ) : Derives .atom [.word col, .sym 0x3E, .sym 0x3D, .word (num n)] (.ge n)
  /-- `col<=n`. -/
  | le (n : ℤ) : Derives .atom [.word col, .sym 0x3C, .sym 0x3D, .word (num n)] (.le n)
  /-- `col IN (n,...)`. -/
  | isIn (n : ℤ) (ns : List ℤ) :
      Derives .atom (.word col :: inWord :: lpar :: .word (num n) :: (members num ns ++ [rpar])) (.isIn (n :: ns))
  /-- A condition in parentheses. -/
  | paren {l : List Token} {c : Cond} : Derives .expr l c → Derives .atom (lpar :: (l ++ [rpar])) c
  /-- One part of an `AND`. -/
  | conj {l : List Token} {c : Cond} : Derives .atom l c → Derives .conj l c
  | and {l m : List Token} {c d : Cond} :
      Derives .atom l c → Derives .conj m d → Derives .conj (l ++ andWord :: m) (.and c d)
  /-- One part of an `OR`. -/
  | expr {l : List Token} {c : Cond} : Derives .conj l c → Derives .expr l c
  | or {l m : List Token} {c d : Cond} :
      Derives .conj l c → Derives .expr m d → Derives .expr (l ++ orWord :: m) (.or c d)

variable {col num}

theorem derives_or {α : Type} {toks : α → List Token} {cond : α → Cond} {holds : ℤ → α → Prop} (a : α) (as : List α)
    (h : ∀ b ∈ a :: as, Derives col num .conj (toks b) (cond b) ∧ ∀ x, (cond b).Holds x ↔ holds x b) :
    ∃ c, Derives col num .expr (toks a ++ as.flatMap fun b => orWord :: toks b) c ∧
      ∀ x, c.Holds x ↔ ∃ b ∈ a :: as, holds x b := by
  induction as generalizing a with
  | nil =>
    obtain ⟨hd, hx⟩ := h a List.mem_cons_self
    exact ⟨cond a, by simpa using Derives.expr hd, fun x => by simpa using hx x⟩
  | cons b as ih =>
    obtain ⟨ha, hrest⟩ := List.forall_mem_cons.mp h
    obtain ⟨c, hc, hholds⟩ := ih b hrest
    refine ⟨.or (cond a) c, ?_, fun x => ?_⟩
    · rw [List.flatMap_cons]
      exact .or ha.1 hc
    · rw [Cond.Holds, ha.2 x, hholds x]
      exact (List.exists_mem_cons_iff (holds x) a (b :: as)).symm

/-! ## What the grammar does not derive -/

/-- What may stand two tokens behind a token. -/
def Allowed (a c : Token) : Prop :=
  (c = comma → a = lpar ∨ a = comma) ∧ (c = orWord → a ≠ lpar ∧ a ≠ comma)

/-- All tokens of a list may stand where they do, behind two tokens. -/
@[grind =] def Checked : Token → Token → List Token → Prop
  | _, _, [] => True
  | a, b, c :: l => Allowed a c ∧ Checked b c l

/-- The last two tokens of a list behind two tokens. -/
@[grind =] def after : Token → Token → List Token → Token × Token
  | a, b, [] => (a, b)
  | _, b, c :: l => after b c l

variable {L : Level} {c : Cond} {l : List Token}

theorem checked_append {m : List Token} :
    Checked a b (l ++ m) ↔ Checked a b l ∧ Checked (after a b l).1 (after a b l).2 m := by
  induction l generalizing a b with
  | nil => simp [Checked, after]
  | cons c l ih => rw [List.cons_append, Checked, Checked, after, ih, and_assoc]

theorem after_append {m : List Token} : after a b (l ++ m) = after (after a b l).1 (after a b l).2 m := by
  induction l generalizing a b with
  | nil => simp [after]
  | cons c l ih => rw [List.cons_append, after, after, ih]

theorem allowed_of_checked {m : List Token} (h : Checked a b (l ++ x :: y :: z :: m)) : Allowed x z := by
  rw [checked_append] at h
  exact h.2.2.2.1

/-- No parenthesis is opened, and no member of a list begins. -/
def Closed (a : Token) : Prop := a ≠ lpar ∧ a ≠ comma

theorem allowed_word (a : Token) (hw : .word w ≠ orWord) : Allowed a (.word w) :=
  ⟨fun h => absurd h (by simp [comma]), fun h => absurd h hw⟩

theorem allowed_sym (a : Token) {c : UInt8} (hc : .sym c ≠ comma) : Allowed a (.sym c) :=
  ⟨fun h => absurd h hc, fun h => absurd h (by simp [orWord])⟩

theorem closed_word (w : List UInt8) : Closed (.word w) := ⟨by simp [lpar], by simp [comma]⟩

theorem closed_sym {c : UInt8} (hpar : c ≠ 0x28) (hcomma : c ≠ 0x2C) : Closed (.sym c) :=
  ⟨by simpa [lpar] using hpar, by simpa [comma] using hcomma⟩

theorem Closed.allowed_or (h : Closed a) : Allowed a orWord := ⟨fun hor => absurd hor (by decide), fun _ => h⟩

theorem checked_members (hnum : ∀ n, .word (num n) ≠ orWord) (ha : a = lpar ∨ a = comma) (w : List UInt8)
    (ns : List ℤ) : Checked a (.word w) (members num ns ++ [rpar]) ∧
      Closed (after a (.word w) (members num ns ++ [rpar])).1 ∧ (after a (.word w) (members num ns ++ [rpar])).2 = rpar := by
  induction ns generalizing a w with
  | nil => exact ⟨⟨allowed_sym a (by decide), trivial⟩, closed_word w, rfl⟩
  | cons n ns ih =>
    obtain ⟨hchecked, hafter⟩ := ih (Or.inr rfl) (num n)
    refine ⟨⟨⟨fun _ => ha, fun h => absurd h (by decide)⟩, allowed_word _ (hnum n), hchecked⟩, hafter⟩

/-- The tokens of a condition stand where they may, whatever stands in front, and the last two are closed. -/
theorem checked_of_derives (hcol : .word col ≠ orWord) (hnum : ∀ n, .word (num n) ≠ orWord)
    (h : Derives col num L l c) (a b : Token) :
    Checked a b l ∧ Closed (after a b l).1 ∧ Closed (after a b l).2 := by
  have heq : Closed (.sym 0x3D) := closed_sym (by decide) (by decide)
  induction h generalizing a b with
  | eq n =>
    exact ⟨⟨allowed_word _ hcol, allowed_sym _ (by decide), allowed_word _ (hnum n), trivial⟩, heq, closed_word _⟩
  | ge n =>
    exact ⟨⟨allowed_word _ hcol, allowed_sym _ (by decide), allowed_sym _ (by decide), allowed_word _ (hnum n), trivial⟩,
      heq, closed_word _⟩
  | le n =>
    exact ⟨⟨allowed_word _ hcol, allowed_sym _ (by decide), allowed_sym _ (by decide), allowed_word _ (hnum n), trivial⟩,
      heq, closed_word _⟩
  | isIn n ns =>
    obtain ⟨hchecked, hfirst, hlast⟩ := checked_members hnum (Or.inl rfl) (num n) ns
    refine ⟨⟨allowed_word _ hcol, allowed_word _ (by decide), allowed_sym _ (by decide), allowed_word _ (hnum n), hchecked⟩,
      hfirst, ?_⟩
    have hrpar : Closed rpar := closed_sym (by decide) (by decide)
    rw [← hlast] at hrpar
    exact hrpar
  | @paren l c hl ih =>
    obtain ⟨hchecked, -, hlast⟩ := ih b lpar
    refine ⟨⟨allowed_sym _ (by decide), checked_append.mpr ⟨hchecked, allowed_sym _ (by decide), trivial⟩⟩, ?_⟩
    rw [after, after_append]
    exact ⟨hlast, closed_sym (by decide) (by decide)⟩
  | conj _ ih => exact ih a b
  | expr _ ih => exact ih a b
  | @and l m c d _ _ ihl ihm =>
    obtain ⟨hl, -, -⟩ := ihl a b
    obtain ⟨hm, hafter⟩ := ihm (after a b l).2 andWord
    refine ⟨checked_append.mpr ⟨hl, allowed_word _ (by decide), hm⟩, ?_⟩
    rw [after_append]
    exact hafter
  | @or l m c d _ _ ihl ihm =>
    obtain ⟨hl, hclosed, -⟩ := ihl a b
    obtain ⟨hm, hafter⟩ := ihm (after a b l).2 orWord
    refine ⟨checked_append.mpr ⟨hl, hclosed.allowed_or, hm⟩, ?_⟩
    rw [after_append]
    exact hafter

/-- **Three tokens of a condition.** -/
theorem allowed_of_derives (hcol : .word col ≠ orWord) (hnum : ∀ n, .word (num n) ≠ orWord)
    {m : List Token} (h : Derives col num L (l ++ x :: y :: z :: m) c) : Allowed x z :=
  allowed_of_checked (checked_of_derives hcol hnum h lpar lpar).1

end MnoGoSearch.Lib.SqlCondition
