import MnoGoSearch.Url.Canonize
import Mathlib.Data.List.DropRight
import Mathlib.Data.List.Infix

/-!
# Lexemes of XML

`UdmXMLScan` (`parsexml.c`) reads one lexeme. A place is a number of bytes from the beginning of the document, and behind
the document stands a NUL, which counts as whitespace, as `strchr` finds it in every set. `udmXMLScan_fine` says what a
lexeme is in the document, and that reading goes on.
-/

namespace MnoGoSearch.Xml

open Url

/-! ### Searching for a text -/

section Seek

variable {pat s : List UInt8}

/-- How many bytes stand in front of a text, all of them if it does not follow. -/
def seek (pat : List UInt8) : List UInt8 → ℕ
  | [] => 0
  | c :: s => if pat.isPrefixOf (c :: s) then 0 else seek pat s + 1

theorem seek_le (pat s : List UInt8) : seek pat s ≤ s.length := by
  induction s with
  | nil => exact le_rfl
  | cons c s ih =>
    rw [seek, List.length_cons]
    split_ifs <;> omega

theorem isPrefix_drop_seek (h : seek pat s < s.length) : pat <+: s.drop (seek pat s) := by
  induction s with
  | nil => exact absurd h (Nat.lt_irrefl 0)
  | cons c s ih =>
    rw [seek] at h ⊢
    split_ifs at h ⊢ with hpre
    · rwa [List.drop_zero, ← List.isPrefixOf_iff_prefix]
    · exact ih (by rw [List.length_cons] at h; omega)

theorem seek_add_length_le (pat s : List UInt8) (h : seek pat s < s.length) : seek pat s + pat.length ≤ s.length := by
  have hle := (isPrefix_drop_seek h).length_le
  rw [List.length_drop] at hle
  omega

/-- **The text is found** exactly where it occurs. -/
theorem seek_lt_iff (s : List UInt8) (hpat : pat ≠ []) : seek pat s < s.length ↔ pat <:+: s := by
  constructor
  · intro h
    exact (isPrefix_drop_seek h).isInfix.trans (List.drop_suffix _ _).isInfix
  · intro h
    induction s with
    | nil => exact absurd (List.infix_nil.1 h) hpat
    | cons c s ih =>
      rw [seek]
      split_ifs with hpre
      · exact Nat.succ_pos _
      · rcases List.infix_cons_iff.1 h with h | h
        · exact absurd (List.isPrefixOf_iff_prefix.2 h) hpre
        · exact Nat.succ_lt_succ (ih h)

end Seek

/-! ### The scanner -/

/-- The lexemes. -/
inductive Lex where
  | eof | string | ident | cdata | eq | lt | gt | lb | rb | slash | comment | question | exclam
  deriving DecidableEq, Repr

/-- `UdmLex2str`. -/
def udmLex2str : Lex → String
  | .eof => "EOF"
  | .string => "STRING"
  | .ident => "IDENT"
  | .cdata => "CDATA"
  | .eq => "'='"
  | .lt => "'<'"
  | .gt => "'>'"
  | .lb => "'['"
  | .rb => "']'"
  | .slash => "'/'"
  | .comment => "COMMENT"
  | .question => "'?'"
  | .exclam => "'!'"

/-- A byte that `strchr(" \t\r\n", …)` finds. -/
def isSpace (c : UInt8) : Bool := c == 0 || c == 0x20 || c == 0x09 || c == 0x0D || c == 0x0A

/-- The lexemes of one character. -/
def simpleLex (c : UInt8) : Option Lex :=
  if c = 0x3F then some .question
  else if c = 0x3D then some .eq
  else if c = 0x2F then some .slash
  else if c = 0x3C then some .lt
  else if c = 0x3E then some .gt
  else if c = 0x21 then some .exclam
  else if c = 0x5B then some .lb
  else if c = 0x5D then some .rb
  else none

/-- A byte that ends an identifier; a `!` does not. -/
def isDelim (c : UInt8) : Bool :=
  c == 0x3F || c == 0x27 || c == 0x22 || c == 0x3D || c == 0x2F || c == 0x3C || c == 0x3E || c == 0x5B || c == 0x5D ||
    isSpace c

/-- The bytes between two places. -/
def textBetween (doc : List UInt8) (beg stop : ℕ) : List UInt8 := (doc.take stop).drop beg

/-- A lexeme with its range, and the place behind it. -/
structure Token where
  lex : Lex
  /-- `a->beg`. -/
  beg : ℕ
  /-- `a->end`. -/
  stop : ℕ
  /-- `p->cur`. -/
  cur : ℕ
  deriving DecidableEq, Repr

/-- `UdmXMLNormText`: without whitespace at both ends. -/
def udmXMLNormText (doc : List UInt8) (beg stop : ℕ) : ℕ × ℕ :=
  let s := textBetween doc beg stop
  let beg' := beg + (s.takeWhile isSpace).length
  (beg', beg' + ((s.dropWhile isSpace).rdropWhile isSpace).length)

section Scan

variable (skip : Bool) (doc : List UInt8)

/-- `UdmXMLNormText`, if `UDM_XML_SKIP_TEXT_NORMALIZATION` is not set. -/
def normUnlessSkip (beg stop : ℕ) : ℕ × ℕ := if skip then (beg, stop) else udmXMLNormText doc beg stop

/-- A lexeme that begins with this byte, at its place. -/
def lexemeAt (beg : ℕ) (c : UInt8) (s : List UInt8) : Token :=
  if [0x3C, 0x21, 0x2D, 0x2D].isPrefixOf (c :: s) then
    -- The search begins at the `<`, so that `<!-->` is a comment.
    let k := beg + seek [0x2D, 0x2D, 0x3E] (c :: s)
    let cur := if k < doc.length then k + 3 else k
    ⟨.comment, beg, cur, cur⟩
  else if [0x3C, 0x21, 0x5B, 0x43, 0x44, 0x41, 0x54, 0x41, 0x5B].isPrefixOf (c :: s) then
    let k := beg + 9 + seek [0x5D, 0x5D, 0x3E] ((c :: s).drop 9)
    -- Without `]]>` the end of the range is still its beginning.
    if k < doc.length then ⟨.cdata, beg, k + 3, k + 3⟩ else ⟨.cdata, beg, beg, k⟩
  else
    match simpleLex c with
    | some lex => ⟨lex, beg, beg + 1, beg + 1⟩
    | none =>
      if c = 0x22 ∨ c = 0x27 then
        let stop := beg + 1 + (s.takeWhile (· ≠ c)).length
        let r := normUnlessSkip skip doc (beg + 1) stop
        ⟨.string, r.1, r.2, if stop < doc.length then stop + 1 else stop⟩
      else
        let stop := beg + ((c :: s).takeWhile fun c => !isDelim c).length
        let r := normUnlessSkip skip doc beg stop
        ⟨.ident, r.1, r.2, stop⟩

/-- `UdmXMLScan`. -/
def udmXMLScan (cur : ℕ) : Token :=
  let beg := cur + ((doc.drop cur).takeWhile isSpace).length
  match doc.drop beg with
  | [] => ⟨.eof, doc.length, doc.length, doc.length⟩
  | c :: s => lexemeAt skip doc beg c s

end Scan

/-! ### What is read -/

section Fine

variable {skip : Bool} {doc : List UInt8} {beg stop cur : ℕ}

theorem length_textBetween (h : stop ≤ doc.length) : (textBetween doc beg stop).length = stop - beg := by
  rw [textBetween, List.length_drop, List.length_take, Nat.min_eq_left h]

theorem normUnlessSkip_bounds (skip : Bool) (hle : beg ≤ stop) (hdoc : stop ≤ doc.length) :
    beg ≤ (normUnlessSkip skip doc beg stop).1 ∧
      (normUnlessSkip skip doc beg stop).1 ≤ (normUnlessSkip skip doc beg stop).2 ∧
      (normUnlessSkip skip doc beg stop).2 ≤ stop := by
  rw [normUnlessSkip]
  split_ifs with hskip
  · exact ⟨le_rfl, hle, le_rfl⟩
  · have hlen := congrArg List.length
      (List.takeWhile_append_dropWhile (p := isSpace) (l := textBetween doc beg stop))
    rw [List.length_append, length_textBetween hdoc] at hlen
    have hdrop := (List.rdropWhile_prefix isSpace
      ((textBetween doc beg stop).dropWhile isSpace)).length_le
    exact ⟨Nat.le_add_right _ _, Nat.le_add_right _ _, by rw [udmXMLNormText]; omega⟩

theorem normUnlessSkip_eq (hle : beg ≤ stop) (hdoc : stop ≤ doc.length)
    (h : ∀ c ∈ textBetween doc beg stop, isSpace c = false) : normUnlessSkip skip doc beg stop = (beg, stop) := by
  have htake : (textBetween doc beg stop).takeWhile isSpace = [] := by
    rw [List.takeWhile_eq_nil_iff]
    intro hpos
    exact Bool.eq_false_iff.1 (h _ (List.getElem_mem _))
  have hdrop : (textBetween doc beg stop).dropWhile isSpace = textBetween doc beg stop := by
    have happ := List.takeWhile_append_dropWhile (p := isSpace) (l := textBetween doc beg stop)
    rwa [htake, List.nil_append] at happ
  have hrdrop : (textBetween doc beg stop).rdropWhile isSpace = textBetween doc beg stop := by
    rw [List.rdropWhile_eq_self_iff]
    exact fun hl => Bool.eq_false_iff.1 (h _ (List.getLast_mem hl))
  rw [normUnlessSkip]
  split_ifs
  · rfl
  · rw [udmXMLNormText, htake, hdrop, hrdrop, length_textBetween hdoc, List.length_nil, Nat.add_zero]
    exact congrArg (Prod.mk beg) (Nat.add_sub_cancel' hle)

theorem textBetween_takeWhile (p : UInt8 → Bool) {s : List UInt8} (h : doc.drop beg = s) :
    textBetween doc beg (beg + (s.takeWhile p).length) = s.takeWhile p := by
  rw [textBetween, List.drop_take, h, Nat.add_sub_cancel_left]
  exact List.prefix_iff_eq_take.1 (List.takeWhile_prefix p) |>.symm

/-- What holds of a lexeme: it lies in the document behind the place, and what is read behind it is shorter. -/
structure Token.Fine (doc : List UInt8) (cur : ℕ) (t : Token) : Prop where
  /-- It is not in front of the place. -/
  beg_ge : cur ≤ t.beg
  /-- It ends behind its beginning. -/
  beg_le : t.beg ≤ t.stop
  /-- What was read is in the document. -/
  stop_le : t.stop ≤ t.cur
  cur_le : t.cur ≤ doc.length
  /-- Something is read unless only whitespace is left. -/
  progress : t.lex ≠ .eof → cur < t.cur
  eof : t.lex = .eof → ∀ c ∈ doc.drop cur, isSpace c = true
  /-- An identifier is not empty. -/
  ident : t.lex = .ident → t.beg < t.stop
  /-- A section has an end, or its range is empty. -/
  cdata : t.lex = .cdata →
    t.beg + 9 ≤ doc.length ∧
      if [0x5D, 0x5D, 0x3E] <:+: doc.drop (t.beg + 9) then t.beg + 12 ≤ t.stop else t.stop = t.beg

theorem simpleLex_ne (c : UInt8) : simpleLex c ≠ some .eof ∧ simpleLex c ≠ some .ident ∧ simpleLex c ≠ some .cdata := by
  rw [simpleLex]
  split_ifs <;> exact ⟨by decide, by decide, by decide⟩

theorem isDelim_eq_false {c : UInt8} (hspace : isSpace c = false) (hsimple : simpleLex c = none)
    (hquote : ¬(c = 0x22 ∨ c = 0x27)) : isDelim c = false := by
  rw [simpleLex] at hsimple
  split_ifs at hsimple
  rw [not_or] at hquote
  simp only [isDelim, Bool.or_eq_false_iff, beq_eq_false_iff_ne]
  exact ⟨⟨⟨⟨⟨⟨⟨⟨⟨‹_›, hquote.2⟩, hquote.1⟩, ‹_›⟩, ‹_›⟩, ‹_›⟩, ‹_›⟩, ‹_›⟩, ‹_›⟩, hspace⟩

theorem isSpace_of_isDelim {c : UInt8} (h : isDelim c = false) : isSpace c = false := by
  rw [isDelim, Bool.or_eq_false_iff] at h
  exact h.2

theorem lexemeAt_fine {c : UInt8} {s : List UInt8} (h : doc.drop beg = c :: s) (hspace : isSpace c = false) :
    (lexemeAt skip doc beg c s).Fine doc beg := by
  have hlen : beg + (s.length + 1) = doc.length := by
    have hl := congrArg List.length h
    rw [List.length_drop, List.length_cons] at hl
    omega
  rw [lexemeAt]
  split_ifs with hcomment hcdata hquote
  · have hle := seek_le [0x2D, 0x2D, 0x3E] (c :: s)
    have hpos : 0 < seek [0x2D, 0x2D, 0x3E] (c :: s) := by
      have hc : c = 0x3C := by
        rw [List.isPrefixOf_iff_prefix, List.cons_prefix_cons] at hcomment
        exact hcomment.1.symm
      rw [hc, seek, if_neg (by simp)]
      exact Nat.succ_pos _
    have hfound (hlt : beg + seek [0x2D, 0x2D, 0x3E] (c :: s) < doc.length) :
        beg + seek [0x2D, 0x2D, 0x3E] (c :: s) + 3 ≤ doc.length := by
      have hadd := seek_add_length_le [0x2D, 0x2D, 0x3E] (c :: s) (by rw [List.length_cons]; omega)
      simp only [List.length_cons, List.length_nil] at hadd
      omega
    rw [List.length_cons] at hle
    obtain ⟨k, hk⟩ : ∃ k, k = beg + seek [0x2D, 0x2D, 0x3E] (c :: s) := ⟨_, rfl⟩
    rw [← hk] at hfound ⊢
    have hcur : beg < (if k < doc.length then k + 3 else k) ∧ (if k < doc.length then k + 3 else k) ≤ doc.length := by
      split_ifs with hlt
      · exact ⟨by omega, hfound hlt⟩
      · exact ⟨by omega, by omega⟩
    exact ⟨le_rfl, hcur.1.le, le_rfl, hcur.2, fun _ => hcur.1, nofun, nofun, nofun⟩
  · have hlen9 := (List.isPrefixOf_iff_prefix.1 hcdata).length_le
    simp only [List.length_cons, List.length_nil] at hlen9
    have hdrop : doc.drop (beg + 9) = (c :: s).drop 9 := by rw [← List.drop_drop, h]
    have hdroplen : ((c :: s).drop 9).length = doc.length - (beg + 9) := by rw [← hdrop, List.length_drop]
    have hle := seek_le [0x5D, 0x5D, 0x3E] ((c :: s).drop 9)
    have hiff := seek_lt_iff ((c :: s).drop 9) (show [0x5D, 0x5D, 0x3E] ≠ [] by simp)
    dsimp only
    split_ifs with hlt
    · have hadd := seek_add_length_le [0x5D, 0x5D, 0x3E] ((c :: s).drop 9) (by omega)
      have hinfix := hiff.1 (by omega)
      simp only [List.length_cons, List.length_nil] at hadd
      refine ⟨le_rfl, by dsimp only; omega, le_rfl, by dsimp only; omega, fun _ => by dsimp only; omega, nofun, nofun,
        fun _ => ⟨by dsimp only; omega, ?_⟩⟩
      rw [hdrop, if_pos hinfix]
      dsimp only
      omega
    · have hinfix : ¬[0x5D, 0x5D, 0x3E] <:+: (c :: s).drop 9 := fun hin => hlt (by have := hiff.2 hin; omega)
      refine ⟨le_rfl, le_rfl, by dsimp only; omega, by dsimp only; omega, fun _ => by dsimp only; omega, nofun, nofun,
        fun _ => ⟨by dsimp only; omega, ?_⟩⟩
      rw [hdrop, if_neg hinfix]
  · split
    case _ lex hlex =>
      obtain ⟨heof, hident, hcd⟩ := simpleLex_ne c
      rw [hlex, ne_eq, Option.some.injEq] at heof hident hcd
      exact ⟨le_rfl, Nat.le_succ _, le_rfl, by dsimp only; omega, fun _ => Nat.lt_succ_self _,
        fun h => absurd h heof, fun h => absurd h hident, fun h => absurd h hcd⟩
    case _ =>
      have hle := (List.takeWhile_prefix (fun d => decide (d ≠ c)) (l := s)).length_le
      have hstop : beg + 1 + (s.takeWhile (· ≠ c)).length ≤ doc.length := by omega
      obtain ⟨h1, h2, h3⟩ := normUnlessSkip_bounds skip (Nat.le_add_right _ _) hstop
      have hcur (k : ℕ) (hk : k ≤ doc.length) :
          k ≤ (if k < doc.length then k + 1 else k) ∧ (if k < doc.length then k + 1 else k) ≤ doc.length := by
        split_ifs <;> omega
      obtain ⟨h4, h5⟩ := hcur _ hstop
      exact ⟨(Nat.le_succ beg).trans h1, h2, h3.trans h4, h5, fun _ => by dsimp only; omega, nofun, nofun, nofun⟩
  · split
    case _ lex hlex =>
      obtain ⟨heof, hident, hcd⟩ := simpleLex_ne c
      rw [hlex, ne_eq, Option.some.injEq] at heof hident hcd
      exact ⟨le_rfl, Nat.le_succ _, le_rfl, by dsimp only; omega, fun _ => Nat.lt_succ_self _,
        fun h => absurd h heof, fun h => absurd h hident, fun h => absurd h hcd⟩
    case _ hsimple =>
      have hle := (List.takeWhile_prefix (fun d => !isDelim d) (l := c :: s)).length_le
      have hpos : 0 < ((c :: s).takeWhile fun d => !isDelim d).length := by
        rw [List.takeWhile_cons_of_pos (by rw [isDelim_eq_false hspace hsimple hquote]; rfl)]
        exact Nat.succ_pos _
      have heq : normUnlessSkip skip doc beg (beg + ((c :: s).takeWhile fun d => !isDelim d).length) =
          (beg, beg + ((c :: s).takeWhile fun d => !isDelim d).length) := by
        refine normUnlessSkip_eq (Nat.le_add_right _ _) (by rw [List.length_cons] at hle; omega) fun d hd => ?_
        rw [textBetween_takeWhile _ h] at hd
        have hnot := List.mem_takeWhile_imp hd
        exact isSpace_of_isDelim (by simpa using hnot)
      rw [List.length_cons] at hle
      dsimp only
      rw [heq]
      exact ⟨le_rfl, Nat.le_add_right _ _, le_rfl, by dsimp only; omega, fun _ => by dsimp only; omega, nofun,
        fun _ => by dsimp only; omega, nofun⟩

theorem lexemeAt_ne_eof (skip : Bool) (doc : List UInt8) (beg : ℕ) (c : UInt8) (s : List UInt8) :
    (lexemeAt skip doc beg c s).lex ≠ .eof := by
  rw [lexemeAt]
  split_ifs
  · exact nofun
  · dsimp only
    split_ifs <;> exact nofun
  all_goals
    split
    case _ lex hlex =>
      exact fun h => (simpleLex_ne c).1 (by rw [hlex]; exact congrArg some h)
    case _ => exact nofun

/-- **A lexeme lies in the document**, behind the place where the scanner was, and the scanner goes on. -/
theorem udmXMLScan_fine (skip : Bool) (hcur : cur ≤ doc.length) : (udmXMLScan skip doc cur).Fine doc cur := by
  rw [udmXMLScan]
  have hdrop : doc.drop (cur + ((doc.drop cur).takeWhile isSpace).length) = (doc.drop cur).dropWhile isSpace := by
    have hleft := @List.drop_left _ ((doc.drop cur).takeWhile isSpace) ((doc.drop cur).dropWhile isSpace)
    rwa [List.takeWhile_append_dropWhile, List.drop_drop] at hleft
  rw [hdrop]
  split
  · rename_i hnil
    exact ⟨hcur, le_rfl, le_rfl, le_rfl, fun h => absurd rfl h, fun _ => List.dropWhile_eq_nil_iff.1 hnil, by rintro ⟨⟩, by rintro ⟨⟩⟩
  · rename_i c s hs
    have hspace : isSpace c = false := by
      have hhead := List.head?_dropWhile_not isSpace (doc.drop cur)
      rw [hs] at hhead
      simpa using hhead
    obtain ⟨h1, h2, h3, h4, h5, h6, h7, h8⟩ := @lexemeAt_fine skip _ _ _ _ (hdrop.trans hs) hspace
    exact ⟨le_trans (Nat.le_add_right _ _) h1, h2, h3, h4,
      fun h => lt_of_le_of_lt (Nat.le_add_right _ _) (h5 h), fun h => absurd h (lexemeAt_ne_eof skip doc _ c s), h7, h8⟩

end Fine

end MnoGoSearch.Xml
