import Mathlib.Data.List.Basic
import Mathlib.Data.Prod.Basic
import Mathlib.Tactic.SplitIfs

/-!
# Tokens of SQL

A scanner that reads a text byte by byte: words, numbers with their sign, literals in single quotes, where a quote is
doubled and, in some dialects, a backslash escapes, comments, and symbols. A literal that is not closed and a comment are
tokens of their own.

Texts are put together at characters that end every token (`lex_append_delim`), so that the tokens of a text are those of
its parts; what stands in a literal is one token whatever it is (`lex_literal`).
-/

namespace MnoGoSearch.Lib.SqlTokens

/-! ## The scanner -/

/-- A token. -/
inductive Token where
  | word (w : List UInt8)
  | num (w : List UInt8)
  | str (s : List UInt8)
  /-- Any other character but a blank. -/
  | sym (c : UInt8)
  /-- A literal that is not closed. -/
  | unclosed (s : List UInt8)
  | comment
  deriving DecidableEq

/-- What has been read of a token. -/
inductive State where
  | between
  | word (w : List UInt8)
  | num (w : List UInt8)
  | dash
  | slash
  | str (s : List UInt8)
  /-- A backslash in a literal. -/
  | esc (s : List UInt8)
  | quote (s : List UInt8)
  | comment

/-- A letter. -/
def isLetter (c : UInt8) : Bool := (0x41 ≤ c && c ≤ 0x5A) || (0x61 ≤ c && c ≤ 0x7A) || c == 0x5F

/-- A digit. -/
def isDigit (c : UInt8) : Bool := 0x30 ≤ c && c ≤ 0x39

/-- A character of a word behind its first one. -/
def isWordChar (c : UInt8) : Bool := isLetter c || isDigit c || c == 0x2E

/-- The first character of a token. -/
def begin (c : UInt8) : List Token × State :=
  if c = 0x20 then ([], .between)
  else if isLetter c then ([], .word [c])
  else if isDigit c then ([], .num [c])
  else if c = 0x2D then ([], .dash)
  else if c = 0x2F then ([], .slash)
  else if c = 0x27 then ([], .str [])
  else ([.sym c], .between)

/-- The token that ends. -/
def flush : State → List Token
  | .between => []
  | .word w => [.word w]
  | .num w => [.num w]
  | .dash => [.sym 0x2D]
  | .slash => [.sym 0x2F]
  | .str s => [.unclosed s]
  | .esc s => [.unclosed s]
  | .quote s => [.str s]
  | .comment => [.comment]

/-- The token ends, and the next one begins. -/
def next (st : State) (c : UInt8) : List Token × State := (flush st ++ (begin c).1, (begin c).2)

section Scanner

/- A backslash escapes the character behind it in a literal. -/
variable (escapes : Bool)

/-- One character. -/
def step (st : State) (c : UInt8) : List Token × State :=
  match st with
  | .between => next .between c
  | .word w => if isWordChar c then ([], .word (w ++ [c])) else next st c
  | .num w => if isDigit c then ([], .num (w ++ [c])) else next st c
  | .dash => if isDigit c then ([], .num [0x2D, c]) else if c = 0x2D then ([], .comment) else next st c
  | .slash => if c = 0x2A then ([], .comment) else next st c
  | .str s => if c = 0x27 then ([], .quote s) else if c = 0x5C ∧ escapes then ([], .esc s) else ([], .str (s ++ [c]))
  | .esc s => ([], .str (s ++ [c]))
  | .quote s => if c = 0x27 then ([], .str (s ++ [c])) else next st c
  | .comment => ([], .comment)

/-- Some characters. -/
def feed : State → List UInt8 → List Token × State
  | st, [] => ([], st)
  | st, c :: s => ((step escapes st c).1 ++ (feed (step escapes st c).2 s).1, (feed (step escapes st c).2 s).2)

/-- The tokens of a text. -/
def lex (s : List UInt8) : List Token := (feed escapes .between s).1 ++ flush (feed escapes .between s).2

/-- The token that is being read ends with the next delimiter. -/
def State.Ends : State → Prop
  | .str _ => False
  | .esc _ => False
  | .comment => False
  | _ => True

instance : DecidablePred State.Ends
  | .between | .word _ | .num _ | .dash | .slash | .quote _ => .isTrue trivial
  | .str _ | .esc _ | .comment => .isFalse id

/-- A text in which no literal and no comment is open at the end. -/
def Closed (s : List UInt8) : Prop := (feed escapes .between s).2.Ends

instance (s : List UInt8) : Decidable (Closed escapes s) := inferInstanceAs (Decidable (State.Ends _))

end Scanner

/-! ## Texts that are put together -/

variable {escapes : Bool} {v' w v s : List UInt8} {c : UInt8}

theorem feed_append (st : State) (s t : List UInt8) : feed escapes st (s ++ t) =
    ((feed escapes st s).1 ++ (feed escapes (feed escapes st s).2 t).1, (feed escapes (feed escapes st s).2 t).2) := by
  induction s generalizing st with
  | nil => rfl
  | cons c s ih => rw [List.cons_append, feed, feed, ih, List.append_assoc]

/-- A character that ends every token but a literal. -/
def isDelim (c : UInt8) : Bool :=
  !isWordChar c && c != 0x2D && c != 0x2F && c != 0x2A && c != 0x27

/-- The token of a delimiter. -/
def delimToken (c : UInt8) : List Token := if c = 0x20 then [] else [.sym c]

theorem begin_of_isDelim (hc : isDelim c = true) : begin c = (delimToken c, .between) := by
  simp only [isDelim, isWordChar, Bool.and_eq_true, Bool.not_eq_true', Bool.or_eq_false_iff, bne_iff_ne] at hc
  obtain ⟨⟨⟨⟨⟨⟨hletter, hdigit⟩, -⟩, hdash⟩, hslash⟩, -⟩, hquote⟩ := hc
  rw [begin, delimToken, hletter, hdigit, if_neg Bool.false_ne_true, if_neg Bool.false_ne_true, if_neg hdash, if_neg hslash,
    if_neg hquote]
  split_ifs <;> rfl

theorem step_of_isDelim {st : State} (hst : st.Ends) (hc : isDelim c = true) :
    step escapes st c = (flush st ++ delimToken c, .between) := by
  have hnext : next st c = (flush st ++ delimToken c, .between) := by rw [next, begin_of_isDelim hc]
  simp only [isDelim, isWordChar, Bool.and_eq_true, Bool.not_eq_true', bne_iff_ne] at hc
  obtain ⟨⟨⟨⟨hword, hdash⟩, -⟩, hstar⟩, hquote⟩ := hc
  have hdigit : isDigit c = false := (Bool.or_eq_false_iff.mp (Bool.or_eq_false_iff.mp hword).1).2
  have hchar : ¬isWordChar c = true := by
    rw [isWordChar, hword]
    exact Bool.false_ne_true
  have hnodigit : ¬isDigit c = true := by
    rw [hdigit]
    exact Bool.false_ne_true
  cases st with
  | between => rw [step, hnext]
  | word w => rw [step, if_neg hchar, hnext]
  | num w => rw [step, if_neg hnodigit, hnext]
  | dash => rw [step, if_neg hnodigit, if_neg hdash, hnext]
  | slash => rw [step, if_neg hstar, hnext]
  | quote s => rw [step, if_neg hquote, hnext]
  | str s => exact absurd hst id
  | esc s => exact absurd hst id
  | comment => exact absurd hst id

/-- **Behind a delimiter** the tokens begin anew. -/
theorem lex_append_delim (hs : Closed escapes s) (hc : isDelim c = true) (t : List UInt8) :
    lex escapes (s ++ c :: t) = lex escapes s ++ (delimToken c ++ lex escapes t) := by
  rw [lex, feed_append, feed, step_of_isDelim hs hc]
  simp only [lex, List.append_assoc]

theorem closed_append_delim (hs : Closed escapes s) (hc : isDelim c = true) {t : List UInt8}
    (ht : Closed escapes t) : Closed escapes (s ++ c :: t) := by
  rw [Closed, feed_append, feed, step_of_isDelim hs hc]
  exact ht

theorem feed_str (hv : ∀ c ∈ v, c ≠ 0x27 ∧ c ≠ 0x5C) (s : List UInt8) :
    feed escapes (.str s) v = ([], .str (s ++ v)) := by
  induction v generalizing s with
  | nil => rw [feed, List.append_nil]
  | cons c v ih =>
    obtain ⟨⟨hquote, hback⟩, hrest⟩ := List.forall_mem_cons.mp hv
    rw [feed, step, if_neg hquote, if_neg fun h => hback h.1, ih hrest, List.append_assoc, List.singleton_append,
      List.nil_append]

theorem feed_literal (hv : ∀ c ∈ v, c ≠ 0x27 ∧ c ≠ 0x5C) :
    feed escapes .between (0x27 :: (v ++ [0x27])) = ([], .quote v) := by
  have hfirst : step escapes .between 0x27 = ([], .str []) := rfl
  rw [feed, hfirst, feed_append, feed_str hv]
  rfl

/-- **A literal** without quotes and backslashes in it. -/
theorem lex_literal (hv : ∀ c ∈ v, c ≠ 0x27 ∧ c ≠ 0x5C) : lex escapes (0x27 :: (v ++ [0x27])) = [.str v] := by
  rw [lex, feed_literal hv]
  rfl

theorem closed_literal (hv : ∀ c ∈ v, c ≠ 0x27 ∧ c ≠ 0x5C) : Closed escapes (0x27 :: (v ++ [0x27])) := by
  rw [Closed, feed_literal hv]
  trivial

theorem feed_word (hv : ∀ c ∈ v, isWordChar c = true) (w : List UInt8) :
    feed escapes (.word w) v = ([], .word (w ++ v)) := by
  induction v generalizing w with
  | nil => rw [feed, List.append_nil]
  | cons c v ih =>
    obtain ⟨hc, hrest⟩ := List.forall_mem_cons.mp hv
    rw [feed, step, if_pos hc, ih hrest, List.append_assoc, List.singleton_append, List.nil_append]

theorem feed_between_word (hc : isLetter c = true) (hw : ∀ d ∈ w, isWordChar d = true) :
    feed escapes .between (c :: w) = ([], .word (c :: w)) := by
  have hblank : c ≠ 0x20 := fun h => by rw [h] at hc; exact absurd hc (by decide)
  have hfirst : step escapes .between c = ([], .word [c]) := by
    rw [step, next, begin, if_neg hblank, if_pos hc]
    rfl
  rw [feed, hfirst, feed_word hw]
  rfl

theorem feed_num (hv : ∀ c ∈ v, isDigit c = true) (w : List UInt8) : feed escapes (.num w) v = ([], .num (w ++ v)) := by
  induction v generalizing w with
  | nil => rw [feed, List.append_nil]
  | cons c v ih =>
    obtain ⟨hc, hrest⟩ := List.forall_mem_cons.mp hv
    rw [feed, step, if_pos hc, ih hrest, List.append_assoc, List.singleton_append, List.nil_append]

theorem feed_between_digits (hv : ∀ c ∈ v, isDigit c = true) (hne : v ≠ []) :
    feed escapes .between v = ([], .num v) := by
  obtain ⟨c, w, rfl⟩ := List.exists_cons_of_ne_nil hne
  obtain ⟨hc, hrest⟩ := List.forall_mem_cons.mp hv
  have hblank : c ≠ 0x20 := fun h => by rw [h] at hc; exact absurd hc (by decide)
  have hletter : ¬isLetter c = true := fun h => by
    simp only [isDigit, isLetter, Bool.and_eq_true, Bool.or_eq_true, decide_eq_true_eq, beq_iff_eq] at hc h
    rcases h with (h | h) | rfl
    · exact absurd (UInt8.le_trans h.1 hc.2) (by decide)
    · exact absurd (UInt8.le_trans h.1 hc.2) (by decide)
    · exact absurd hc.2 (by decide)
  have hfirst : step escapes .between c = ([], .num [c]) := by
    rw [step, next, begin, if_neg hblank, if_neg hletter, if_pos hc]
    rfl
  rw [feed, hfirst, feed_num hrest]
  rfl

theorem feed_between_negative (hv : ∀ c ∈ v, isDigit c = true) (hne : v ≠ []) :
    feed escapes .between (0x2D :: v) = ([], .num (0x2D :: v)) := by
  obtain ⟨c, w, rfl⟩ := List.exists_cons_of_ne_nil hne
  obtain ⟨hc, hrest⟩ := List.forall_mem_cons.mp hv
  have hfirst : step escapes .between 0x2D = ([], .dash) := rfl
  have hsecond : step escapes .dash c = ([], .num [0x2D, c]) := by rw [step, if_pos hc]
  rw [feed, hfirst, feed, hsecond, feed_num hrest]
  rfl

/-- Digits, with a minus or without. -/
def Numeral (v : List UInt8) : Prop :=
  ∃ w, (∀ c ∈ w, isDigit c = true) ∧ w ≠ [] ∧ (v = w ∨ v = 0x2D :: w)

theorem feed_numeral (hv : Numeral v) : feed escapes .between v = ([], .num v) := by
  obtain ⟨w, hw, hne, rfl | rfl⟩ := hv
  · exact feed_between_digits hw hne
  · exact feed_between_negative hw hne

/-! ## The structure of a text -/

/-- What is left of a token without the values. -/
inductive Shape where
  | word (w : List UInt8)
  | num
  | str
  | sym (c : UInt8)
  /-- A literal that is not closed. -/
  | unclosed
  | comment
  deriving DecidableEq

/-- The shape of a token. -/
def Token.shape : Token → Shape
  | .word w => .word w
  | .num _ => .num
  | .str _ => .str
  | .sym c => .sym c
  | .unclosed _ => .unclosed
  | .comment => .comment

/-- The literal in a token. -/
def Token.literal : Token → Option (List UInt8)
  | .str s => some s
  | _ => none

/-- Two texts have the same structure, and these are the literals of the first one. -/
structure Similar (escapes : Bool) (s s' : List UInt8) (literals : List (List UInt8)) : Prop where
  /-- Nothing is open at the end. -/
  closed : Closed escapes s
  closed' : Closed escapes s'
  /-- The tokens have the same shapes. -/
  shape : (lex escapes s).map Token.shape = (lex escapes s').map Token.shape
  literals : (lex escapes s).filterMap Token.literal = literals

/-- **Texts of the same structure** are put together at a delimiter. -/
theorem Similar.append_delim {s' t t' : List UInt8} {l m : List (List UInt8)} (hs : Similar escapes s s' l)
    (ht : Similar escapes t t' m) (hc : isDelim c = true) : Similar escapes (s ++ c :: t) (s' ++ c :: t') (l ++ m) := by
  have hdelim : (delimToken c).filterMap Token.literal = [] := by
    rw [delimToken]
    split_ifs <;> rfl
  refine ⟨closed_append_delim hs.closed hc ht.closed, closed_append_delim hs.closed' hc ht.closed', ?_, ?_⟩
  · rw [lex_append_delim hs.closed hc, lex_append_delim hs.closed' hc]
    simp only [List.map_append, hs.shape, ht.shape]
  · rw [lex_append_delim hs.closed hc, List.filterMap_append, List.filterMap_append, hs.literals, ht.literals, hdelim,
      List.nil_append]

theorem Similar.refl (hs : Closed escapes s) :
    Similar escapes s s ((lex escapes s).filterMap Token.literal) := ⟨hs, hs, rfl, rfl⟩

theorem Similar.nil : Similar escapes [] [] [] := ⟨trivial, trivial, rfl, rfl⟩

/-- **Literals** have the same structure. -/
theorem Similar.literal (hv : ∀ c ∈ v, c ≠ 0x27 ∧ c ≠ 0x5C) (hv' : ∀ c ∈ v', c ≠ 0x27 ∧ c ≠ 0x5C) :
    Similar escapes (0x27 :: (v ++ [0x27])) (0x27 :: (v' ++ [0x27])) [v] := by
  refine ⟨closed_literal hv, closed_literal hv', ?_, ?_⟩
  · rw [lex_literal hv, lex_literal hv']
    rfl
  · rw [lex_literal hv]
    rfl

/-- **Numbers** have the same structure. -/
theorem Similar.num (hv : Numeral v) (hv' : Numeral v') : Similar escapes v v' [] := by
  refine ⟨?_, ?_, ?_, ?_⟩
  · rw [Closed, feed_numeral hv]
    trivial
  · rw [Closed, feed_numeral hv']
    trivial
  · rw [lex, lex, feed_numeral hv, feed_numeral hv']
    rfl
  · rw [lex, feed_numeral hv]
    rfl

theorem Similar.word (hc : isLetter c = true) (hw : ∀ d ∈ w, isWordChar d = true) :
    Similar escapes (c :: w) (c :: w) [] := by
  have hfeed : feed escapes .between (c :: w) = ([], .word (c :: w)) := feed_between_word hc hw
  refine ⟨?_, ?_, rfl, ?_⟩
  · rw [Closed, hfeed]
    trivial
  · rw [Closed, hfeed]
    trivial
  · rw [lex, hfeed]
    rfl

end MnoGoSearch.Lib.SqlTokens
