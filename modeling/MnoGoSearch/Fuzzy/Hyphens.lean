import MnoGoSearch.Fuzzy.WideWord
import MnoGoSearch.Lib.Buffer
import Mathlib.Data.List.SplitBy
import Mathlib.Data.Vector.Defs

/-!
# Forms with and without hyphens

Two forms of a query word in `fuzzy.c`. `UdmAllFormsDehyphenate` copies the word to a buffer of 128 bytes
and drops the hyphens there. It looks for the end of the word in the buffer, one place behind what it has
written, where the copy is, and not in the word. `UdmAllFormsHyphenateNumbers` puts a hyphen between a
letter and a digit; it compares the length of the word with the size of the buffer, not the length of the
form. `hyphenFormsRight_iff` says for which words both do what they are for.

A result `none` means that a byte outside of the word or of the buffer is used.
-/

namespace MnoGoSearch.Fuzzy

open Lib (Buffer)
open Words (CString takeWhile_append_zero)

/-! ### The code -/

/-- `UdmAutoPhraseChar`. -/
def udmAutoPhraseChar (ch : UInt8) : Bool := ch = 0x5F ∨ ch = 0x2D ∨ ch = 0x2E ∨ ch = 0x2F

/-- `UDM_UNI_*`: the kind of a character. -/
inductive UdmCtype where
  | separ
  | letter
  | digit
  deriving DecidableEq

/-- The kind of a character, in `UdmAllFormsHyphenateNumbers`. -/
def nextCtype (c : UInt8) : UdmCtype :=
  if 0x30 ≤ c ∧ c ≤ 0x39 then .digit else if udmAutoPhraseChar c then .separ else .letter

/-- A letter and a digit, in some order. -/
def boundary (prev next : UdmCtype) : Bool := prev = .letter ∧ next = .digit ∨ prev = .digit ∧ next = .letter

/-- `UdmWideWordListAddForDehyphenate`. -/
def udmWideWordListAddForDehyphenate (result : List UdmWideWord) (uword : UdmWideWord) (tmpword : CString) :
    List UdmWideWord :=
  udmWideWordListAdd result
    { udmWideWordInit tmpword .synonym with
      order := uword.order
      phrpos := uword.phrpos
      phrlen := uword.phrlen
      matchMode := uword.matchMode }

/-- The loop in `UdmAllFormsDehyphenate`: the rest of the word with its NUL, the place that is written next
and the buffer. -/
@[grind =]
def dehyphenLoop : List UInt8 → ℕ → Buffer → Option Buffer
  | [], _, _ => none
  | c :: s, d, tmpword =>
    let written := tmpword.write d c
    let next := if udmAutoPhraseChar c then d else d + 1
    (written.bytes[next]?).bind fun x => if x = 0 then some written else dehyphenLoop s next written

/-- `UdmAllFormsDehyphenate`; `tmpword` is what the buffer happens to hold. -/
def udmAllFormsDehyphenate (tmpword : List.Vector UInt8 128) (result : List UdmWideWord) (uword : UdmWideWord) :
    Option (List UdmWideWord) :=
  let s := uword.word.val ++ [0]
  -- `strcpy` comes first
  (dehyphenLoop s 0 ((Buffer.mk tmpword.toList false).writes 0 s)).bind fun b =>
    if b.overflow then none else some (udmWideWordListAddForDehyphenate result uword (CString.take b.bytes))

/-- The loop in `UdmAllFormsHyphenateNumbers`: `prev_ctype`, `have_hyphen`, the place that is written next,
the buffer and the rest of the word. -/
@[grind =]
def hyphenLoop : UdmCtype → Bool → ℕ → Buffer → List UInt8 → Bool × ℕ × Buffer
  | _, haveHyphen, d, tmpword, [] => (haveHyphen, d, tmpword)
  | prev, haveHyphen, d, tmpword, c :: s =>
    if boundary prev (nextCtype c) then
      hyphenLoop (nextCtype c) true (d + 2) ((tmpword.write d 0x2D).write (d + 1) c) s
    else hyphenLoop (nextCtype c) haveHyphen (d + 1) (tmpword.write d c) s

/-- `UdmAllFormsHyphenateNumbers`; `tmpword` is what the buffer happens to hold. -/
def udmAllFormsHyphenateNumbers (tmpword : List.Vector UInt8 128) (result : List UdmWideWord) (uword : UdmWideWord) :
    Option (List UdmWideWord) :=
  if 128 ≤ uword.word.val.length + 1 then some result
  else
    let (haveHyphen, d, b) := hyphenLoop .separ false 0 ⟨tmpword.toList, false⟩ uword.word.val
    if haveHyphen then
      let b := b.write d 0
      if b.overflow then none else some (udmWideWordListAddForDehyphenate result uword (CString.take b.bytes))
    else if b.overflow then none else some result

/-! ### What the forms are for -/

/-- The word with all hyphens removed. -/
def dehyphenated (word : CString) : CString :=
  ⟨word.val.filter (!udmAutoPhraseChar ·), fun h => word.property (List.mem_of_mem_filter h)⟩

theorem dehyphenated_val (word : CString) : (dehyphenated word).val = word.val.filter (!udmAutoPhraseChar ·) := rfl

/-- The pieces of a word between which a hyphen belongs: together they are the word. -/
def pieces (word : List UInt8) : List (List UInt8) := word.splitBy fun a b => !boundary (nextCtype a) (nextCtype b)

theorem pieces_ne_nil {word : List UInt8} (h : word ≠ []) : pieces word ≠ [] := List.splitBy_ne_nil.mpr h

theorem flatten_pieces (word : List UInt8) : (pieces word).flatten = word := List.flatten_splitBy _ _

variable {ps : List (List UInt8)} {word : CString} {s : List UInt8} {b : Buffer} {d n : ℕ} {c : UInt8}

theorem zero_notMem_intercalate (h : (0 : UInt8) ∉ ps.flatten) : (0 : UInt8) ∉ [0x2D].intercalate ps := by
  induction ps with
  | nil => simp
  | cons l ps ih =>
    rw [List.flatten_cons, List.mem_append, not_or] at h
    cases ps with
    | nil => simpa using h.1
    | cons l' ps =>
      rw [List.intercalate_cons_cons, List.mem_append, List.mem_append, not_or, not_or]
      exact ⟨⟨h.1, by decide⟩, ih h.2⟩

/-- The pieces with hyphens between them. -/
def hyphenated (word : CString) : CString :=
  ⟨[0x2D].intercalate (pieces word.val), zero_notMem_intercalate (by rw [flatten_pieces]; exact word.property)⟩

/-- Whatever the buffer holds and the list: the form without hyphens is added, and the form with hyphens if
there is a place for one and the word is not too long. -/
structure HyphenFormsRight (uword : UdmWideWord) : Prop where
  dehyphenate : ∀ tmpword result, udmAllFormsDehyphenate tmpword result uword =
    some (udmWideWordListAddForDehyphenate result uword (dehyphenated uword.word))
  hyphenate : ∀ tmpword result, udmAllFormsHyphenateNumbers tmpword result uword =
    some (if uword.word.val.length + 1 < 128 ∧ 1 < (pieces uword.word.val).length then
      udmWideWordListAddForDehyphenate result uword (hyphenated uword.word) else result)

/-! ### Without hyphens -/

/-- While the loop goes over the word: the bytes of the copy from the place `d` on are not NUL, and its NUL is at
`n`. -/
structure Copying (b : Buffer) (d n : ℕ) : Prop where
  /-- The loop does not stop before. -/
  nonzero : ∀ j, d ≤ j → j < n → ∃ x, b.bytes[j]? = some x ∧ x ≠ 0
  nul : b.NulAt n

theorem Copying.write (h : Copying b d n) (hlt : d < n) (hc : c ≠ 0) :
    Copying (b.write d c) d n where
  nonzero j hdj hjn := by
    have hlen := h.nul.lt
    rw [Buffer.bytes_write]
    by_cases hj : d = j
    · subst hj
      exact ⟨c, List.getElem?_set_self (by omega), hc⟩
    · rw [List.getElem?_set_ne hj]
      exact h.nonzero j hdj hjn
  nul := h.nul.write_of_ne hlt.ne

theorem Copying.mono {d' : ℕ} (h : Copying b d n) (hle : d ≤ d') : Copying b d' n :=
  ⟨fun j hj => h.nonzero j (hle.trans hj), h.nul⟩

theorem take_succ_write (hd : d < b.bytes.length) (c : UInt8) :
    (b.write d c).bytes.take (d + 1) = b.bytes.take d ++ [c] := by
  rw [Buffer.bytes_write, List.take_add_one, List.take_set_of_le le_rfl, List.getElem?_set_self hd]
  rfl

theorem dehyphenLoop_cons (h : Copying b d n) (hc : c ≠ 0) (rest : List UInt8)
    (hlt : d + ([c].filter (!udmAutoPhraseChar ·)).length < n) :
    ∃ b', dehyphenLoop (c :: rest) d b = dehyphenLoop rest (d + ([c].filter (!udmAutoPhraseChar ·)).length) b' ∧
      Copying b' (d + ([c].filter (!udmAutoPhraseChar ·)).length) n ∧ b'.overflow = b.overflow ∧
      b'.bytes.take (d + ([c].filter (!udmAutoPhraseChar ·)).length) =
        b.bytes.take d ++ [c].filter (!udmAutoPhraseChar ·) := by
  have hd : d < n := by omega
  have hlen := h.nul.lt
  have hw := h.write hd hc
  have hover : (b.write d c).overflow = b.overflow := by
    rw [Buffer.overflow_write, decide_eq_false (by omega), Bool.or_false]
  refine ⟨b.write d c, ?_, hw.mono (Nat.le_add_right _ _), hover, ?_⟩
  · rw [dehyphenLoop]
    cases hauto : udmAutoPhraseChar c with
    | true =>
      obtain ⟨x, hx, hne⟩ := hw.nonzero d le_rfl hd
      simp [hauto, hx, hne]
    | false =>
      rw [List.filter_cons_of_pos (by simp [hauto]), List.filter_nil, List.length_singleton] at hlt ⊢
      obtain ⟨x, hx, hne⟩ := hw.nonzero (d + 1) (Nat.le_succ d) hlt
      simp [hx, hne]
  · cases hauto : udmAutoPhraseChar c with
    | true =>
      rw [List.filter_cons_of_neg (by simp [hauto]), List.filter_nil, List.length_nil, Nat.add_zero, List.append_nil,
        Buffer.bytes_write, List.take_set_of_le le_rfl]
    | false =>
      rw [List.filter_cons_of_pos (by simp [hauto]), List.filter_nil, List.length_singleton]
      exact take_succ_write (by omega) c

theorem dehyphenLoop_append (hs : (0 : UInt8) ∉ s) (rest : List UInt8)
    (h : Copying b d n) (hlt : d + (s.filter (!udmAutoPhraseChar ·)).length < n) :
    ∃ b', dehyphenLoop (s ++ rest) d b = dehyphenLoop rest (d + (s.filter (!udmAutoPhraseChar ·)).length) b' ∧
      Copying b' (d + (s.filter (!udmAutoPhraseChar ·)).length) n ∧ b'.overflow = b.overflow ∧
      b'.bytes.take (d + (s.filter (!udmAutoPhraseChar ·)).length) =
        b.bytes.take d ++ s.filter (!udmAutoPhraseChar ·) := by
  induction s generalizing b d with
  | nil => exact ⟨b, rfl, h, rfl, by simp⟩
  | cons c s ih =>
    rw [List.mem_cons, not_or] at hs
    have happ : (c :: s).filter (!udmAutoPhraseChar ·) =
        [c].filter (!udmAutoPhraseChar ·) ++ s.filter (!udmAutoPhraseChar ·) := by
      rw [← List.filter_append, List.singleton_append]
    rw [happ, List.length_append, ← Nat.add_assoc] at hlt ⊢
    obtain ⟨b', hloop, hcopy, hover, htake⟩ := dehyphenLoop_cons h (Ne.symm hs.1) (s ++ rest) (by omega)
    obtain ⟨b'', hloop', hcopy', hover', htake'⟩ := ih hs.2 hcopy hlt
    refine ⟨b'', ?_, hcopy', hover'.trans hover, ?_⟩
    · rw [List.cons_append, hloop, hloop']
    · rw [htake', htake, List.append_assoc]

/-- At the NUL of the word the loop stops if the NUL of the copy is next, and goes on behind the word if not. -/
theorem dehyphenLoop_nul (h : Copying b d n) (hlt : d < n) :
    dehyphenLoop [0] d b = if d + 1 = n then some (b.write d 0) else none := by
  have hauto : udmAutoPhraseChar 0 = false := by decide
  have hread : (b.write d 0).bytes[d + 1]? = b.bytes[d + 1]? := by
    rw [Buffer.bytes_write, List.getElem?_set_ne (Nat.lt_succ_self d).ne]
  rw [dehyphenLoop]
  simp only [hauto, hread, Bool.false_eq_true, if_false, dehyphenLoop]
  split_ifs with hn
  · rw [hn, h.nul]
    rfl
  · obtain ⟨x, hx, hne⟩ := h.nonzero (d + 1) (Nat.le_succ d) (by omega)
    rw [hx, Option.bind_some, if_neg hne]

theorem take_bytes {s : CString} (htake : b.bytes.take s.val.length = s.val)
    (hnul : b.NulAt s.val.length) : CString.take b.bytes = s :=
  Subtype.ext (Buffer.str_eq_of_take s.property htake hnul)

theorem overflow_dehyphenLoop {b' : Buffer} (h : dehyphenLoop s d b = some b')
    (hover : b.overflow = true) : b'.overflow = true := by
  induction s generalizing d b with
  | nil => exact absurd h (by simp [dehyphenLoop])
  | cons c s ih =>
    rw [dehyphenLoop, Option.bind_eq_some_iff] at h
    obtain ⟨x, -, hx⟩ := h
    split_ifs at hx
    · rw [← Option.some.inj hx]
      exact Buffer.overflow_write_of_true hover
    · exact ih hx (Buffer.overflow_write_of_true hover)
    · exact ih hx (Buffer.overflow_write_of_true hover)

theorem length_kept (s : List UInt8) :
    (s.filter (!udmAutoPhraseChar ·)).length + s.countP (udmAutoPhraseChar ·) = s.length := by
  induction s with
  | nil => rfl
  | cons c s ih =>
    rw [List.filter_cons, List.countP_cons, List.length_cons, ← ih]
    cases udmAutoPhraseChar c
    · simp only [Bool.not_false, if_true, List.length_cons, Bool.false_eq_true, if_false]
      omega
    · simp only [Bool.not_true, Bool.false_eq_true, if_false, if_true]
      omega

/-- **A word with one hyphen at most**: the loop stops with the form. -/
theorem dehyphenLoop_some (hne : word.val ≠ []) (h : Copying b 0 word.val.length)
    (hcount : word.val.countP (udmAutoPhraseChar ·) ≤ 1) :
    ∃ b', dehyphenLoop (word.val ++ [0]) 0 b = some b' ∧ b'.overflow = b.overflow ∧
      CString.take b'.bytes = dehyphenated word := by
  have hlen := length_kept word.val
  rcases Nat.lt_or_ge 0 (word.val.countP (udmAutoPhraseChar ·)) with hpos | hzero
  · -- one hyphen: the loop comes to the NUL of the word
    obtain ⟨b', hloop, hcopy, hover, htake⟩ := dehyphenLoop_append word.property [0] h (by omega)
    rw [Nat.zero_add] at hloop hcopy htake
    have hend : (word.val.filter (!udmAutoPhraseChar ·)).length + 1 = word.val.length := by omega
    have hlt := hcopy.nul.lt
    refine ⟨b'.write (word.val.filter (!udmAutoPhraseChar ·)).length 0, ?_, ?_, ?_⟩
    · rw [hloop, dehyphenLoop_nul hcopy (by omega), if_pos hend]
    · rw [Buffer.overflow_write, decide_eq_false (by omega), Bool.or_false, hover]
    · refine take_bytes ?_ (Buffer.nulAt_write (by omega))
      rw [dehyphenated_val, Buffer.bytes_write, List.take_set_of_le le_rfl, htake, List.take_zero, List.nil_append]
  · -- no hyphen: it stops at the last character
    have hnone : ∀ c ∈ word.val, udmAutoPhraseChar c = false := fun c hc => by
      simpa using List.countP_eq_zero.mp (Nat.le_zero.mp hzero) c hc
    have hall : ∀ {s : List UInt8}, s ⊆ word.val → s.filter (!udmAutoPhraseChar ·) = s := fun hs =>
      List.filter_eq_self.mpr fun c hc => by rw [hnone c (hs hc), Bool.not_false]
    obtain ⟨s, c, hsc⟩ : ∃ s c, word.val = s ++ [c] :=
      ⟨_, _, (List.dropLast_append_getLast hne).symm⟩
    have hmem : c ∈ word.val := by simp [hsc]
    have hs : s ⊆ word.val := by simp [hsc]
    have hwlen : word.val.length = s.length + 1 := by rw [hsc, List.length_append, List.length_singleton]
    obtain ⟨b', hloop, hcopy, hover, htake⟩ :=
      dehyphenLoop_append (fun hz => word.property (hs hz)) ([c] ++ [0]) h (by rw [hall hs]; omega)
    rw [hall hs, Nat.zero_add] at hloop hcopy htake
    have hlt := hcopy.nul.lt
    have hnul : (b'.write s.length c).NulAt (s.length + 1) := by
      rw [← hwlen]
      exact hcopy.nul.write_of_ne (by omega)
    refine ⟨b'.write s.length c, ?_, ?_, ?_⟩
    · rw [hsc, List.append_assoc, hloop, List.singleton_append, dehyphenLoop]
      simp only [hnone c hmem, Bool.false_eq_true, if_false]
      rw [hnul, Option.bind_some, if_pos rfl]
    · rw [Buffer.overflow_write, decide_eq_false (by omega), Bool.or_false, hover]
    · refine take_bytes ?_ ?_
      · rw [dehyphenated_val, hall (List.Subset.refl _), hwlen, take_succ_write (by omega), htake, List.take_zero, List.nil_append, hsc]
      · rwa [dehyphenated_val, hall (List.Subset.refl _), hwlen]

/-- **A word with two hyphens**: the loop goes on behind the word. -/
theorem dehyphenLoop_none (h : Copying b 0 word.val.length)
    (hcount : 2 ≤ word.val.countP (udmAutoPhraseChar ·)) : dehyphenLoop (word.val ++ [0]) 0 b = none := by
  have hlen := length_kept word.val
  obtain ⟨b', hloop, hcopy, -, -⟩ := dehyphenLoop_append word.property [0] h (by omega)
  rw [hloop, dehyphenLoop_nul hcopy (by omega), if_neg (by omega)]

theorem copying_strcpy (h : word.val.length < b.bytes.length) :
    Copying (b.writes 0 (word.val ++ [0])) 0 word.val.length := by
  have hbytes := Buffer.bytes_writes_zero (b := b) (s := word.val ++ [0])
    (by rw [List.length_append, List.length_singleton]; exact h)
  refine ⟨fun j _ hj => ⟨word.val[j], ?_, ?_⟩, ?_⟩
  · rw [hbytes, List.append_assoc, List.getElem?_append_left hj, List.getElem?_eq_getElem hj]
  · exact fun hzero => word.property (List.mem_of_getElem hzero)
  · rw [Buffer.NulAt, hbytes, List.append_assoc, List.getElem?_append_right le_rfl, Nat.sub_self]
    rfl

/-- **The form without hyphens** is right for words with one hyphen at most. -/
theorem dehyphenate_iff (uword : UdmWideWord) :
    (∀ tmpword result, udmAllFormsDehyphenate tmpword result uword =
      some (udmWideWordListAddForDehyphenate result uword (dehyphenated uword.word))) ↔
    uword.word.val ≠ [] ∧ uword.word.val.length < 128 ∧ uword.word.val.countP (udmAutoPhraseChar ·) ≤ 1 := by
  constructor
  · intro h
    -- a buffer that holds no NUL
    have hright := h (List.Vector.replicate 128 1) []
    rw [udmAllFormsDehyphenate, Option.bind_eq_some_iff] at hright
    obtain ⟨b, hloop, hb⟩ := hright
    have hlen : uword.word.val.length < 128 := by
      by_contra hlong
      have hover := Buffer.overflow_writes_of_lt (b := ⟨(List.Vector.replicate 128 (1 : UInt8)).toList, false⟩) (i := 0)
        (s := uword.word.val ++ [0]) (Nat.zero_le _) (by simp; omega)
      rw [if_pos (overflow_dehyphenLoop hloop hover)] at hb
      exact absurd hb (by simp)
    refine ⟨fun hnil => ?_, hlen, ?_⟩
    · have hnone : dehyphenLoop [0] 0 (Buffer.writes ⟨(List.Vector.replicate 128 1).toList, false⟩ 0 [0]) = none := by
        decide +kernel
      rw [hnil, List.nil_append, hnone] at hloop
      exact absurd hloop (by simp)
    · by_contra hmany
      rw [dehyphenLoop_none (copying_strcpy (by simpa using hlen)) (by omega)] at hloop
      exact absurd hloop (by simp)
  · rintro ⟨hne, hlen, hcount⟩ tmpword result
    have hfit : uword.word.val.length < (Buffer.mk tmpword.toList false).bytes.length := by simpa using hlen
    obtain ⟨b, hloop, hover, htake⟩ := dehyphenLoop_some hne (copying_strcpy hfit) hcount
    rw [Buffer.overflow_writes_of_le (by simp; omega)] at hover
    rw [udmAllFormsDehyphenate, hloop, Option.bind_some, hover, htake]
    rfl

/-! ### With hyphens -/

/-- What the loop writes. -/
@[grind =]
def hyphenBytes : UdmCtype → List UInt8 → List UInt8
  | _, [] => []
  | prev, c :: s => (if boundary prev (nextCtype c) then [0x2D, c] else [c]) ++ hyphenBytes (nextCtype c) s

theorem length_le_hyphenBytes (prev : UdmCtype) (s : List UInt8) : s.length ≤ (hyphenBytes prev s).length := by
  induction s generalizing prev with
  | nil => exact Nat.zero_le _
  | cons c s ih =>
    have hrest := ih (nextCtype c)
    rw [hyphenBytes, List.length_append, List.length_cons]
    split_ifs
    · rw [List.length_cons, List.length_singleton]
      omega
    · rw [List.length_singleton]
      omega

theorem hyphenLoop_eq (prev : UdmCtype) (haveHyphen : Bool) (d : ℕ) (b : Buffer) (s : List UInt8) :
    hyphenLoop prev haveHyphen d b s = (haveHyphen || decide (s.length < (hyphenBytes prev s).length),
      d + (hyphenBytes prev s).length, b.writes d (hyphenBytes prev s)) := by
  induction s generalizing prev haveHyphen d b with
  | nil => simp [hyphenLoop, hyphenBytes, Buffer.writes]
  | cons c s ih =>
    have hle := length_le_hyphenBytes (nextCtype c) s
    rw [hyphenLoop, hyphenBytes]
    split_ifs
    · rw [ih, Buffer.writes_append, List.length_append, List.length_cons, List.length_cons, List.length_singleton,
        Bool.true_or, decide_eq_true (by omega), Bool.or_true, Nat.add_assoc]
      rfl
    · have hiff : (c :: s).length < ([c] ++ hyphenBytes (nextCtype c) s).length ↔
          s.length < (hyphenBytes (nextCtype c) s).length := by
        rw [List.singleton_append, List.length_cons, List.length_cons]
        omega
      rw [ih, Buffer.writes_append, decide_eq_decide.mpr hiff, List.length_append, List.length_singleton, Nat.add_assoc]
      rfl

theorem pieces_of_boundary {d : UInt8} (h : boundary (nextCtype c) (nextCtype d) = true) (s : List UInt8) :
    pieces (c :: d :: s) = [c] :: pieces (d :: s) :=
  List.splitBy_append_cons (l := [c]) s (by simp [h])

theorem pieces_of_not_boundary {d : UInt8} (h : boundary (nextCtype c) (nextCtype d) = false) (s : List UInt8) :
    ∃ l ps, pieces (d :: s) = l :: ps ∧ pieces (c :: d :: s) = (c :: l) :: ps := by
  obtain ⟨hflat, hnil, hchain, hjoints⟩ := List.splitBy_eq_iff.mp (rfl : pieces (d :: s) = pieces (d :: s))
  cases hp : pieces (d :: s) with
  | nil => exact absurd (List.splitBy_eq_nil.mp hp) (by simp)
  | cons l ps =>
    rw [hp] at hflat hnil hchain hjoints
    cases l with
    | nil => exact absurd List.mem_cons_self hnil
    | cons e l =>
      obtain ⟨rfl, hs⟩ := List.cons.inj hflat
      refine ⟨_, _, rfl, List.splitBy_eq_iff.mpr ⟨?_, ?_, ?_, ?_⟩⟩
      · rw [hs]
        rfl
      · exact fun hmem => hnil (List.mem_cons_of_mem _ ((List.mem_cons.mp hmem).resolve_left (by simp)))
      · intro m hm
        rcases List.mem_cons.mp hm with rfl | hm
        · exact List.isChain_cons_cons.mpr ⟨by simp [h], hchain _ List.mem_cons_self⟩
        · exact hchain m (List.mem_cons_of_mem _ hm)
      · cases ps with
        | nil => exact List.isChain_singleton _
        | cons q ps =>
          obtain ⟨⟨ha, hb, hjoint⟩, hrest⟩ := List.isChain_cons_cons.mp hjoints
          exact List.isChain_cons_cons.mpr ⟨⟨by simp, hb, by rwa [List.getLast_cons ha]⟩, hrest⟩

theorem hyphenBytes_cons (prev : UdmCtype) (c : UInt8) (s : List UInt8) :
    hyphenBytes prev (c :: s) =
      (if boundary prev (nextCtype c) then [0x2D] else []) ++ [0x2D].intercalate (pieces (c :: s)) := by
  induction s generalizing prev c with
  | nil =>
    rw [hyphenBytes, hyphenBytes, show pieces [c] = [[c]] from rfl, List.intercalate_singleton]
    split_ifs <;> rfl
  | cons d s ih =>
    have hstep : hyphenBytes prev (c :: d :: s) = (if boundary prev (nextCtype c) then [0x2D] else []) ++
        c :: hyphenBytes (nextCtype c) (d :: s) := by
      rw [hyphenBytes]
      split_ifs <;> rfl
    rw [hstep, ih]
    cases hb : boundary (nextCtype c) (nextCtype d) with
    | true =>
      obtain ⟨l, ps, hp⟩ := List.exists_cons_of_ne_nil (pieces_ne_nil (List.cons_ne_nil d s))
      rw [pieces_of_boundary hb, hp, List.intercalate_cons_cons]
      simp
    | false =>
      obtain ⟨l, ps, hp, hpc⟩ := pieces_of_not_boundary hb s
      rw [hp, hpc, List.intercalate_cons_cons_left]
      simp

theorem hyphenBytes_separ (word : List UInt8) : hyphenBytes .separ word = [0x2D].intercalate (pieces word) := by
  cases word with
  | nil => rfl
  | cons c s =>
    rw [hyphenBytes_cons, show boundary .separ (nextCtype c) = false by simp [boundary]]
    rfl

theorem length_intercalate (h : ps ≠ []) : ([0x2D].intercalate ps).length + 1 = ps.flatten.length + ps.length := by
  induction ps with
  | nil => exact absurd rfl h
  | cons l ps ih =>
    cases ps with
    | nil => simp
    | cons l' ps =>
      have hrest := ih (List.cons_ne_nil _ _)
      rw [List.intercalate_cons_cons, List.flatten_cons, List.length_append, List.length_append, List.length_append,
        List.length_singleton, List.length_cons]
      omega

theorem length_hyphenated (h : word.val ≠ []) :
    (hyphenated word).val.length + 1 = word.val.length + (pieces word.val).length := by
  have hlen := length_intercalate (pieces_ne_nil h)
  rwa [flatten_pieces] at hlen

theorem length_lt_hyphenated_iff (word : CString) :
    word.val.length < (hyphenated word).val.length ↔ 1 < (pieces word.val).length := by
  by_cases hnil : word.val = []
  · obtain rfl : word = CString.empty := Subtype.ext hnil
    decide
  · have hlen := length_hyphenated hnil
    omega

/-- **The form with hyphens** is right for words that are not too long for their pieces. -/
theorem hyphenate_iff (uword : UdmWideWord) :
    (∀ tmpword result, udmAllFormsHyphenateNumbers tmpword result uword =
      some (if uword.word.val.length + 1 < 128 ∧ 1 < (pieces uword.word.val).length then
        udmWideWordListAddForDehyphenate result uword (hyphenated uword.word) else result)) ↔
    128 ≤ uword.word.val.length + 1 ∨ uword.word.val.length + (pieces uword.word.val).length ≤ 128 := by
  have hloop : ∀ tmpword : List.Vector UInt8 128,
      hyphenLoop .separ false 0 ⟨tmpword.toList, false⟩ uword.word.val =
        (decide (1 < (pieces uword.word.val).length), (hyphenated uword.word).val.length,
          (Buffer.mk tmpword.toList false).writes 0 (hyphenated uword.word).val) := by
    intro tmpword
    rw [hyphenLoop_eq, hyphenBytes_separ, Bool.false_or, Nat.zero_add]
    refine Prod.ext (decide_eq_decide.mpr (length_lt_hyphenated_iff uword.word)) rfl
  by_cases hlong : 128 ≤ uword.word.val.length + 1
  · refine iff_of_true (fun tmpword result => ?_) (Or.inl hlong)
    rw [udmAllFormsHyphenateNumbers, if_pos hlong, if_neg (by omega)]
  by_cases hone : 1 < (pieces uword.word.val).length
  · have hne : uword.word.val ≠ [] := by
      rintro hnil
      rw [hnil] at hone
      exact absurd hone (by decide)
    have hlen := length_hyphenated hne
    have hrun : ∀ (tmpword : List.Vector UInt8 128) (result : List UdmWideWord),
        udmAllFormsHyphenateNumbers tmpword result uword =
          if ((Buffer.mk tmpword.toList false).writes 0 ((hyphenated uword.word).val ++ [0])).overflow then none
          else some (udmWideWordListAddForDehyphenate result uword
            (CString.take ((Buffer.mk tmpword.toList false).writes 0 ((hyphenated uword.word).val ++ [0])).bytes)) := by
      intro tmpword result
      rw [udmAllFormsHyphenateNumbers, if_neg hlong, hloop, decide_eq_true hone, Buffer.writes_append, Nat.zero_add]
      rfl
    rw [or_iff_right hlong]
    constructor
    · intro h
      by_contra hfull
      have hright := h (List.Vector.replicate 128 1) []
      have hover := Buffer.overflow_writes_of_lt (b := ⟨(List.Vector.replicate 128 (1 : UInt8)).toList, false⟩) (i := 0)
        (s := (hyphenated uword.word).val ++ [0]) (Nat.zero_le _) (by simp; omega)
      rw [hrun, if_pos hover] at hright
      exact absurd hright (by simp)
    · intro hfit tmpword result
      have hroom : ((hyphenated uword.word).val ++ [0]).length ≤ (Buffer.mk tmpword.toList false).bytes.length := by
        rw [List.length_append, List.length_singleton, List.Vector.toList_length]
        omega
      have hover := Buffer.overflow_writes_of_le (b := ⟨tmpword.toList, false⟩) (i := 0)
        (s := (hyphenated uword.word).val ++ [0]) (by omega)
      have hform : CString.take ((Buffer.mk tmpword.toList false).writes 0 ((hyphenated uword.word).val ++ [0])).bytes =
          hyphenated uword.word := by
        rw [Buffer.bytes_writes_zero hroom, List.append_assoc]
        exact Subtype.ext (takeWhile_append_zero (hyphenated uword.word).property _)
      rw [hrun, hform, hover, if_pos (show _ ∧ _ from ⟨by omega, hone⟩)]
      rfl
  · have hle : (hyphenated uword.word).val.length ≤ uword.word.val.length :=
      Nat.not_lt.mp fun hlt => hone ((length_lt_hyphenated_iff uword.word).mp hlt)
    refine iff_of_true (fun tmpword result => ?_) (Or.inr (by omega))
    rw [udmAllFormsHyphenateNumbers, if_neg hlong, hloop, decide_eq_false hone, if_neg (fun h => hone h.2)]
    simp only [Bool.false_eq_true, if_false]
    rw [Buffer.overflow_writes_of_le (by simp; omega)]
    rfl

/-! ### Both forms -/

/-- **Both forms are right** exactly for the words that fit, with one hyphen at most. -/
theorem hyphenFormsRight_iff (uword : UdmWideWord) :
    HyphenFormsRight uword ↔
      uword.word.val ≠ [] ∧ uword.word.val.length < 128 ∧ uword.word.val.countP (udmAutoPhraseChar ·) ≤ 1 ∧
        (uword.word.val.length = 127 ∨ uword.word.val.length + (pieces uword.word.val).length ≤ 128) := by
  have h : HyphenFormsRight uword ↔ (∀ tmpword result, udmAllFormsDehyphenate tmpword result uword =
      some (udmWideWordListAddForDehyphenate result uword (dehyphenated uword.word))) ∧
      ∀ tmpword result, udmAllFormsHyphenateNumbers tmpword result uword =
        some (if uword.word.val.length + 1 < 128 ∧ 1 < (pieces uword.word.val).length then
          udmWideWordListAddForDehyphenate result uword (hyphenated uword.word) else result) :=
    ⟨fun h => ⟨h.dehyphenate, h.hyphenate⟩, fun h => ⟨h.1, h.2⟩⟩
  rw [h, dehyphenate_iff, hyphenate_iff]
  constructor
  · rintro ⟨⟨hne, hlen, hcount⟩, hfit⟩
    exact ⟨hne, hlen, hcount, hfit.imp (fun hle => by omega) id⟩
  · rintro ⟨hne, hlen, hcount, hfit⟩
    exact ⟨⟨hne, hlen, hcount⟩, hfit.imp (fun heq => by omega) id⟩

/-- A word with two hyphens. -/
theorem not_forall_hyphenFormsRight : ¬ ∀ uword : UdmWideWord, HyphenFormsRight uword := by
  intro h
  have hright := (h (udmWideWordInit ⟨[0x61, 0x2D, 0x62, 0x2D, 0x63], by decide⟩ .query)).dehyphenate
  have hcount := ((dehyphenate_iff _).mp hright).2.2
  exact absurd hcount (by decide)

end MnoGoSearch.Fuzzy
