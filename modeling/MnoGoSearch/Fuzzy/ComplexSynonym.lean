import MnoGoSearch.Fuzzy.SynonymFind
import MnoGoSearch.Lib.Buffer
import MnoGoSearch.Lib.Loops

/-!
# Synonyms of several words

`UdmComplexSynonyms` (`fuzzy.c`) puts the words of neighbouring query positions together in one string of 256
bytes, one form of each position, and looks for the string in the lists of synonyms. What is found is added at the
first position with the number of positions that it stands for; the number is taken from the spaces in the string.

A word is printed behind the words before it, at the sum of the lengths that `udm_snprintf` has returned, which are
those of the whole texts. So the place may be behind the end of the string, and what is left of its size below zero.
A result `none` means that a byte outside of the string is written; `udmComplexSynonyms_ne_none_iff` says when there
is none. `udmComplexSynonyms_right` is the rule for all that holds of the runs of positions.
-/

namespace MnoGoSearch.Fuzzy

open Lib (Buffer)
open Words (CString)

/-! ### The code -/

/-- `UdmMultiWordPhraseLength`: the number of spaces. -/
def udmMultiWordPhraseLength (s : List UInt8) : ℕ := s.count 0x20

/-- A list of synonyms that was loaded and sorted. -/
structure LoadedSynonyms extends UdmSynonymList where
  /-- `UdmSynonymListSort`. -/
  sorted : items.Pairwise SynonymLe
  /-- `AddSynonym` keeps the greatest number. -/
  length_le : ∀ syn ∈ items, udmMultiWordPhraseLength syn.p.val ≤ maxPhraseLength

/-- `UDM_WIDEWORDLIST`: the words of a query with their forms. -/
structure UdmWideWordList where
  nuniq : ℕ
  word : List UdmWideWord
  /-- Every item is at a position. -/
  order_lt : ∀ W ∈ word, W.order < nuniq

/-- What `UdmComplexSynonymAdd` works on: the string that it puts together and the list. -/
structure ComplexState where
  /-- `strbeg`. -/
  str : Buffer
  /-- The items of `WWL`. -/
  word : List UdmWideWord

/-- `udm_snprintf` at the place `pos` of the string, in what is left of its 256 bytes. -/
def snprintPart (str : Buffer) (pos : ℕ) (text : List UInt8) : Buffer :=
  (str.writes pos (text.take (255 - pos) ++ [0])).write 255 0

/-- What is written for a word: a space in front of it when it is not the first one. -/
def partText (current : ℕ) (W : UdmWideWord) : List UInt8 := (if 0 < current then [0x20] else []) ++ W.word.val

/-- The item `WW` for the synonyms of `strbeg`; `W` is its last word. -/
def complexWord (W : UdmWideWord) (order current : ℕ) (strbeg : CString) : UdmWideWord :=
  let extra := udmMultiWordPhraseLength strbeg.val
  { W with
    word := strbeg
    order := if extra ≠ 0 then W.order - current else order
    orderExtraWidth := if extra ≠ 0 then extra + 1 else 0 }

/-- The synonyms of the string are added. -/
def addComplex (SL : UdmSynonymList) (W : UdmWideWord) (order current : ℕ) (S : ComplexState) : Option ComplexState :=
  let strbeg := CString.take S.str.bytes
  (udmSynonymListFind [] SL { W with word := strbeg }).map fun Tmp =>
    { S with
      word := Tmp.foldl (fun WWL T => udmWideWordListAddLike WWL (complexWord W order current strbeg) T.word) S.word }

/-- One round of the loop of `UdmComplexSynonymAdd`; `more` is the call for the next position, when more words may
follow. -/
def complexRound (SL : UdmSynonymList) (order current pos : ℕ)
    (more : Option (ℕ → ComplexState → Option ComplexState)) (S : ComplexState) (i : ℕ) : Option ComplexState :=
  (S.word[i]?).bind fun W =>
    if W.order = order then
      let len := (partText current W).length
      let S := { S with str := snprintPart S.str pos (partText current W) }
      let written := match more with
        | none => some S
        | some call =>
          -- the NUL behind the word comes after the call
          if 256 ≤ pos + len then none
          else (call (pos + len) S).map fun (S : ComplexState) => { S with str := S.str.write (pos + len) 0 }
      written.bind fun S => if 0 < current then addComplex SL W order current S else some S
    else some S

/-- `UdmComplexSynonymAdd`, with `phrase_length_limit`, `order`, `phrase_length_current` and the place in the string. -/
@[grind =]
def udmComplexSynonymAdd (SL : UdmSynonymList) (nwords : ℕ) :
    ℕ → ℕ → ℕ → ℕ → ComplexState → Option ComplexState
  | 0, order, current, pos, S => (List.range nwords).foldlM (complexRound SL order current pos none) S
  | limit + 1, order, current, pos, S =>
    (List.range nwords).foldlM
      (complexRound SL order current pos (some fun pos S => udmComplexSynonymAdd SL nwords limit (order + 1) (current + 1) pos S)) S

/-- The synonyms of one list, in `UdmComplexSynonyms`. -/
def complexList (nuniq nwords : ℕ) (word : List UdmWideWord) (SL : LoadedSynonyms) : Option (List UdmWideWord) :=
  if 0 < SL.maxPhraseLength then
    ((List.range nuniq).foldlM (fun S order => udmComplexSynonymAdd SL.toUdmSynonymList nwords SL.maxPhraseLength order 0 0 S)
      ⟨⟨List.replicate 256 0, false⟩, word⟩).map ComplexState.word
  else some word

/-- `UdmComplexSynonyms`. -/
def udmComplexSynonyms (SSL : List LoadedSynonyms) (WWL : UdmWideWordList) : Option (List UdmWideWord) :=
  SSL.foldlM (complexList WWL.nuniq WWL.word.length) WWL.word

/-! ### Runs of positions -/

/-- A form of each of some neighbouring positions, from `order` on. -/
@[grind =]
def IsRun (words : List UdmWideWord) : ℕ → List UdmWideWord → Prop
  | _, [] => True
  | order, W :: r => W ∈ words ∧ W.order = order ∧ IsRun words (order + 1) r

/-- The words of a run with single spaces between them. -/
def phrase (r : List UdmWideWord) : List UInt8 := [0x20].intercalate (r.map fun W => W.word.val)

/-! ### Runs and phrases -/

variable {words r : List UdmWideWord} {order : ℕ}

theorem isRun_append {r' : List UdmWideWord} :
    IsRun words order (r ++ r') ↔ IsRun words order r ∧ IsRun words (order + r.length) r' := by
  induction r generalizing order with
  | nil => simp [IsRun]
  | cons W r ih =>
    rw [List.cons_append, IsRun, IsRun, ih, List.length_cons, show order + 1 + r.length = order + (r.length + 1) by omega]
    tauto

theorem IsRun.mem (h : IsRun words order r) {W : UdmWideWord} (hW : W ∈ r) : W ∈ words := by
  induction r generalizing order with
  | nil => exact absurd hW List.not_mem_nil
  | cons V r ih =>
    rw [IsRun] at h
    rcases List.mem_cons.mp hW with rfl | hW
    · exact h.1
    · exact ih h.2.2 hW

theorem IsRun.add_le {WWL : UdmWideWordList} (h : IsRun WWL.word order r)
    (hne : r ≠ []) : order + r.length ≤ WWL.nuniq := by
  rw [← List.dropLast_append_getLast hne] at h
  obtain ⟨-, hlast⟩ := isRun_append.mp h
  rw [IsRun] at hlast
  have hlt := WWL.order_lt _ hlast.1
  rw [hlast.2.1, List.length_dropLast] at hlt
  have hpos := List.length_pos_iff.mpr hne
  omega

theorem phrase_cons_cons (V U : UdmWideWord) (r : List UdmWideWord) :
    phrase (V :: U :: r) = V.word.val ++ 0x20 :: phrase (U :: r) := by
  rw [phrase, List.map_cons, List.map_cons, List.intercalate_cons_cons, List.append_assoc]
  rfl

theorem phrase_append (r : List UdmWideWord) (W : UdmWideWord) : phrase (r ++ [W]) = phrase r ++ partText r.length W := by
  induction r with
  | nil => simp [phrase, partText]
  | cons V r ih =>
    cases r with
    | nil => simp [phrase, partText]
    | cons U r =>
      rw [List.cons_append, List.cons_append, phrase_cons_cons, phrase_cons_cons, ← List.cons_append, ih]
      simp [partText]

theorem zero_notMem_partText (current : ℕ) (W : UdmWideWord) : (0 : UInt8) ∉ partText current W := by
  rw [partText, List.mem_append, not_or]
  refine ⟨?_, W.word.property⟩
  split_ifs
  · decide
  · exact List.not_mem_nil

theorem zero_notMem_phrase (r : List UdmWideWord) : (0 : UInt8) ∉ phrase r := by
  induction r using List.reverseRecOn with
  | nil => exact List.not_mem_nil
  | append_singleton r W ih =>
    rw [phrase_append, List.mem_append, not_or]
    exact ⟨ih, zero_notMem_partText _ _⟩

theorem count_phrase (hne : r ≠ []) (h : ∀ W ∈ r, 0x20 ∉ W.word.val) :
    udmMultiWordPhraseLength (phrase r) + 1 = r.length := by
  induction r using List.reverseRecOn with
  | nil => exact absurd rfl hne
  | append_singleton r W ih =>
    have hW : W.word.val.count 0x20 = 0 := List.count_eq_zero.mpr (h W (by simp))
    rw [udmMultiWordPhraseLength, phrase_append, List.count_append, partText, List.count_append, hW, List.length_append,
      List.length_singleton]
    by_cases hnil : r = []
    · subst hnil
      rfl
    · have hcount := ih hnil fun V hV => h V (by simp [hV])
      rw [udmMultiWordPhraseLength] at hcount
      rw [if_pos (List.length_pos_iff.mpr hnil), List.count_singleton_self]
      omega

/-! ### The string -/

/-- **A part is printed** behind what is there, as far as there is room. -/
theorem snprintPart_spec {b : Buffer} {pos : ℕ} {text s : List UInt8} (hlen : b.bytes.length = 256) (hpos : pos ≤ 255)
    (htake : b.bytes.take pos = s) :
    (snprintPart b pos text).bytes.length = 256 ∧ (snprintPart b pos text).bytes.take pos = s ∧
      (snprintPart b pos text).bytes.take ((s ++ text).take 255).length = (s ++ text).take 255 ∧
      (snprintPart b pos text).NulAt ((s ++ text).take 255).length := by
  have hs : s.length = pos := by
    rw [← htake, List.length_take]
    omega
  have hcut : (s ++ text).take 255 = s ++ text.take (255 - pos) := by
    rw [List.take_append, hs, List.take_of_length_le (by omega)]
  have hle : (text.take (255 - pos)).length ≤ 255 - pos := List.length_take_le _ _
  have hfit : pos + (text.take (255 - pos) ++ [0]).length ≤ b.bytes.length := by
    rw [List.length_append, List.length_singleton]
    omega
  have hwritten := Buffer.take_writes_add hfit
  rw [htake] at hwritten
  have hall : (b.writes pos (text.take (255 - pos) ++ [0])).bytes.take ((s ++ text.take (255 - pos)).length) =
      s ++ text.take (255 - pos) := by
    have hshort := congrArg (List.take (s ++ text.take (255 - pos)).length) hwritten
    rw [List.take_take, List.length_append, List.length_append, List.length_singleton, hs,
      Nat.min_eq_left (by omega)] at hshort
    rw [List.length_append, hs, hshort, ← List.append_assoc]
    exact List.take_left' (by rw [List.length_append, hs])
  have hnul : (b.writes pos (text.take (255 - pos) ++ [0])).NulAt (s ++ text.take (255 - pos)).length := by
    rw [Buffer.writes_append, List.length_append, hs]
    exact Buffer.nulAt_write (by rw [Buffer.length_writes]; omega)
  refine ⟨?_, ?_, ?_, ?_⟩
  · rw [snprintPart, Buffer.length_write, Buffer.length_writes, hlen]
  · rw [snprintPart, Buffer.take_write_of_le hpos, Buffer.take_writes, htake]
  · rw [hcut, snprintPart, Buffer.take_write_of_le (by rw [List.length_append]; omega), hall]
  · rw [hcut, snprintPart]
    exact hnul.write_zero 255

/-! ### The recursion -/

/-- The words that follow a run fit in the string behind it, when there are no more than `limit` of them. -/
def ShortFrom (words : List UdmWideWord) (r0 : List UdmWideWord) (order limit : ℕ) : Prop :=
  ∀ r1, IsRun words order r1 → r1.length ≤ limit → (phrase (r0 ++ r1)).length < 256

/-- The words of a run are in the string, and the items of the query are in the list. -/
structure AtRun (words : List UdmWideWord) (Inv : List UdmWideWord → Prop) (r0 : List UdmWideWord) (S : ComplexState) :
    Prop where
  size : S.str.bytes.length = 256
  take : S.str.bytes.take (phrase r0).length = phrase r0
  kept : Keeps words S.word
  /-- What else holds of the list. -/
  inv : Inv S.word

/-- What is needed of the part of the loop that looks for the string: it does not fail, keeps what holds of the list and
does what is to be done for the run. -/
def AddsRight (words : List UdmWideWord) (SL : UdmSynonymList) (Inv : List UdmWideWord → Prop)
    (Done : ℕ → List UdmWideWord → List UdmWideWord → Prop) : Prop :=
  ∀ (start : ℕ) (r : List UdmWideWord) (V W : UdmWideWord) (S : ComplexState), IsRun words start (r ++ [V]) → r ≠ [] →
    r.length ≤ SL.maxPhraseLength → W.data = V.data → (W.origin = .synonymFinal → V.origin = .synonymFinal) →
    (CString.take S.str.bytes).val = (phrase (r ++ [V])).take 255 → Inv S.word →
    ∃ S', addComplex SL W (start + r.length) r.length S = some S' ∧ S'.str = S.str ∧ Keeps S.word S'.word ∧ Inv S'.word ∧
      Done start (r ++ [V]) S'.word

section Recursion

variable {words r0 : List UdmWideWord} {SL : UdmSynonymList} {Inv : List UdmWideWord → Prop}
variable {Done : ℕ → List UdmWideWord → List UdmWideWord → Prop} {i start limit : ℕ} {S : ComplexState}

/-- All that a call has to do for the runs that begin with `r0` and go on at `order`. -/
def AllDone (words : List UdmWideWord) (Done : ℕ → List UdmWideWord → List UdmWideWord → Prop) (start : ℕ)
    (r0 : List UdmWideWord) (limit : ℕ) (L : List UdmWideWord) : Prop :=
  ∀ r1, r1 ≠ [] → IsRun words (start + r0.length) r1 → r1.length ≤ limit + 1 → 2 ≤ (r0 ++ r1).length →
    Done start (r0 ++ r1) L

theorem length_phrase_append (r : List UdmWideWord) (W : UdmWideWord) :
    (phrase (r ++ [W])).length = (phrase r).length + (partText r.length W).length := by
  rw [phrase_append, List.length_append]

theorem AtRun.print (h : AtRun words Inv r0 S) (hpos : (phrase r0).length ≤ 255) (V : UdmWideWord) :
    AtRun words Inv r0 { S with str := snprintPart S.str (phrase r0).length (partText r0.length V) } ∧
      (CString.take (snprintPart S.str (phrase r0).length (partText r0.length V)).bytes).val =
        (phrase (r0 ++ [V])).take 255 ∧
      ((phrase (r0 ++ [V])).length ≤ 255 →
        AtRun words Inv (r0 ++ [V]) { S with str := snprintPart S.str (phrase r0).length (partText r0.length V) }) := by
  obtain ⟨hsize, htake, hall, hnul⟩ := @snprintPart_spec S.str _ (partText r0.length V) _ h.size hpos h.take
  rw [← phrase_append] at hall hnul
  refine ⟨⟨hsize, htake, h.kept, h.inv⟩, ?_, fun hfit => ⟨hsize, ?_, h.kept, h.inv⟩⟩
  · exact Buffer.str_eq_of_take (fun hz => zero_notMem_phrase _ (List.mem_of_mem_take hz)) hall hnul
  · rwa [List.take_of_length_le hfit] at hall

theorem AtRun.cut (h : AtRun words Inv r S) (hfit : (phrase r).length ≤ 255) :
    AtRun words Inv r { S with str := S.str.write (phrase r).length 0 } ∧
      (CString.take (S.str.write (phrase r).length 0).bytes).val = phrase r := by
  have htake : (S.str.write (phrase r).length 0).bytes.take (phrase r).length = phrase r := by
    rw [Buffer.take_write_of_le le_rfl, h.take]
  have hlt : (phrase r).length < S.str.bytes.length := by
    have hsize := h.size
    omega
  refine ⟨⟨by rw [Buffer.length_write, h.size], htake, h.kept, h.inv⟩, ?_⟩
  exact Buffer.str_eq_of_take (zero_notMem_phrase r) htake (Buffer.nulAt_write hlt)

theorem AtRun.shorten {V : UdmWideWord} (h : AtRun words Inv (r0 ++ [V]) S) : AtRun words Inv r0 S := by
  refine ⟨h.size, ?_, h.kept, h.inv⟩
  have htake := congrArg (List.take (phrase r0).length) h.take
  rw [List.take_take, length_phrase_append, Nat.min_eq_left (Nat.le_add_right _ _), phrase_append,
    List.take_left' rfl] at htake
  exact htake

theorem shortFrom_succ_iff (h : (phrase r0).length < 256) :
    ShortFrom words r0 order (limit + 1) ↔ ∀ V ∈ words, V.order = order →
      (phrase (r0 ++ [V])).length < 256 ∧ ShortFrom words (r0 ++ [V]) (order + 1) limit := by
  constructor
  · intro hshort V hV horder
    refine ⟨hshort [V] ⟨hV, horder, trivial⟩ (by simp), fun r1 hr1 hlen => ?_⟩
    rw [List.append_assoc, List.singleton_append]
    exact hshort (V :: r1) ⟨hV, horder, hr1⟩ (by rw [List.length_cons]; omega)
  · intro hall r1 hr1 hlen
    cases r1 with
    | nil => rwa [List.append_nil]
    | cons V r1 =>
      rw [IsRun] at hr1
      have hrest := (hall V hr1.1 hr1.2.1).2 r1 hr1.2.2 (by rw [List.length_cons] at hlen; omega)
      rwa [List.append_assoc, List.singleton_append] at hrest

/-- What a call for the runs that begin with `r0` comes to: it fails exactly when they do not fit. -/
structure CallRight (words : List UdmWideWord) (Inv : List UdmWideWord → Prop)
    (Done : ℕ → List UdmWideWord → List UdmWideWord → Prop) (start limit : ℕ) (r0 : List UdmWideWord)
    (call : ComplexState → Option ComplexState) : Prop where
  good : ∀ S, AtRun words Inv r0 S → ShortFrom words r0 (start + r0.length) limit →
    ∃ S', call S = some S' ∧ AtRun words Inv r0 S' ∧ Keeps S.word S'.word ∧ AllDone words Done start r0 limit S'.word
  bad : ∀ S, AtRun words Inv r0 S → ¬ ShortFrom words r0 (start + r0.length) limit → call S = none

theorem AddsRight.finish (hadd : AddsRight words SL Inv Done) {V W : UdmWideWord}
    (hrun : IsRun words start (r0 ++ [V])) (hlimit : r0.length ≤ SL.maxPhraseLength) (hdata : W.data = V.data)
    (hfinal : W.origin = .synonymFinal → V.origin = .synonymFinal) (hS : AtRun words Inv r0 S)
    (hstr : (CString.take S.str.bytes).val = (phrase (r0 ++ [V])).take 255) :
    ∃ S', (if 0 < r0.length then addComplex SL W (start + r0.length) r0.length S else some S) = some S' ∧
      AtRun words Inv r0 S' ∧ Keeps S.word S'.word ∧ (r0 ≠ [] → Done start (r0 ++ [V]) S'.word) := by
  by_cases hnil : r0 = []
  · subst hnil
    exact ⟨S, rfl, hS, Keeps.refl _, fun h => absurd rfl h⟩
  · obtain ⟨S', hS', hstr', hkeeps, hinv, hdone⟩ := hadd start r0 V W S hrun hnil hlimit hdata hfinal hstr hS.inv
    refine ⟨S', ?_, ⟨?_, ?_, hS.kept.trans hkeeps, hinv⟩, hkeeps, fun _ => hdone⟩
    · rw [if_pos (List.length_pos_iff.mpr hnil), hS']
    · rw [hstr', hS.size]
    · rw [hstr', hS.take]

theorem AtRun.getElem? (h : AtRun words Inv r0 S) (hi : i < words.length) :
    ∃ W, S.word[i]? = some W ∧ W.data = words[i].data ∧ (W.origin = .synonymFinal → words[i].origin = .synonymFinal) :=
  h.kept i words[i] (List.getElem?_eq_getElem hi)

/-- What a round does for the runs that go on with `V`. -/
def HeadDone (words : List UdmWideWord) (Done : ℕ → List UdmWideWord → List UdmWideWord → Prop) (start : ℕ)
    (r0 : List UdmWideWord) (limit : ℕ) (V : UdmWideWord) (L : List UdmWideWord) : Prop :=
  ∀ r1, IsRun words (start + r0.length) (V :: r1) → r1.length ≤ limit → 2 ≤ (r0 ++ V :: r1).length →
    Done start (r0 ++ V :: r1) L

/-- **A round**, when no more words may follow. -/
theorem complexRound_last (hadd : AddsRight words SL Inv Done)
    (hrun : IsRun words start r0) (hlimit : r0.length ≤ SL.maxPhraseLength) (hfit : (phrase r0).length ≤ 255)
    (hS : AtRun words Inv r0 S) (hi : i < words.length) :
    ∃ S', complexRound SL (start + r0.length) r0.length (phrase r0).length none S i = some S' ∧ AtRun words Inv r0 S' ∧
      Keeps S.word S'.word ∧ HeadDone words Done start r0 0 words[i] S'.word := by
  obtain ⟨W, hW, hdata, hfinal⟩ := hS.getElem? hi
  have horder : W.order = words[i].order := congrArg (fun d => d.2.1) hdata
  have htext : partText r0.length W = partText r0.length words[i] := by
    rw [partText, partText, show W.word = words[i].word from congrArg Prod.fst hdata]
  rw [complexRound, hW, Option.bind_some]
  by_cases hpos : W.order = start + r0.length
  · obtain ⟨hprint, hstr, -⟩ := hS.print hfit words[i]
    have hrunV : IsRun words start (r0 ++ [words[i]]) :=
      isRun_append.mpr ⟨hrun, List.getElem_mem hi, horder ▸ hpos, trivial⟩
    obtain ⟨S', hS', hat, hkeeps, hdone⟩ := hadd.finish hrunV hlimit hdata hfinal hprint hstr
    refine ⟨S', ?_, hat, hkeeps, fun r1 _ hlen htwo => ?_⟩
    · rw [if_pos hpos, htext]
      exact hS'
    · obtain rfl := List.length_eq_zero_iff.mp (Nat.le_zero.mp hlen)
      refine hdone fun hnil => ?_
      rw [hnil] at htwo
      exact absurd htwo (by simp)
  · refine ⟨S, by rw [if_neg hpos], hS, Keeps.refl _, fun r1 hr1 _ _ => ?_⟩
    rw [IsRun] at hr1
    exact absurd (horder.trans hr1.2.1) hpos

/-- The runs that go on with `V` fit. -/
def HeadShort (words : List UdmWideWord) (start : ℕ) (r0 : List UdmWideWord) (limit : ℕ) (V : UdmWideWord) : Prop :=
  V.order = start + r0.length →
    (phrase (r0 ++ [V])).length < 256 ∧ ShortFrom words (r0 ++ [V]) (start + r0.length + 1) limit

/-- **A round**, when more words may follow: it fails exactly when the runs that go on with its word do not fit. -/
theorem complexRound_more (hadd : AddsRight words SL Inv Done)
    (hmono : ∀ start r L L', Keeps L L' → Done start r L → Done start r L')
    (hrun : IsRun words start r0) (hlimit : r0.length ≤ SL.maxPhraseLength) (hfit : (phrase r0).length ≤ 255)
    (call : ℕ → ComplexState → Option ComplexState) (hi : i < words.length)
    (hcall : words[i].order = start + r0.length → (phrase (r0 ++ [words[i]])).length < 256 →
      CallRight words Inv Done start limit (r0 ++ [words[i]]) (call (phrase (r0 ++ [words[i]])).length))
    (hS : AtRun words Inv r0 S) :
    (HeadShort words start r0 limit words[i] →
      ∃ S', complexRound SL (start + r0.length) r0.length (phrase r0).length (some call) S i = some S' ∧
        AtRun words Inv r0 S' ∧ Keeps S.word S'.word ∧ HeadDone words Done start r0 (limit + 1) words[i] S'.word) ∧
    (¬ HeadShort words start r0 limit words[i] →
      complexRound SL (start + r0.length) r0.length (phrase r0).length (some call) S i = none) := by
  obtain ⟨W, hW, hdata, hfinal⟩ := hS.getElem? hi
  have horder : W.order = words[i].order := congrArg (fun d => d.2.1) hdata
  have htext : partText r0.length W = partText r0.length words[i] := by
    rw [partText, partText, show W.word = words[i].word from congrArg Prod.fst hdata]
  have hnext : start + (r0 ++ [words[i]]).length = start + r0.length + 1 := by
    rw [List.length_append, List.length_singleton, Nat.add_assoc]
  have hround : complexRound SL (start + r0.length) r0.length (phrase r0).length (some call) S i =
      if W.order = start + r0.length then
        (if 256 ≤ (phrase (r0 ++ [words[i]])).length then none
          else (call (phrase (r0 ++ [words[i]])).length
            { S with str := snprintPart S.str (phrase r0).length (partText r0.length words[i]) }).map
              fun (S : ComplexState) => { S with str := S.str.write (phrase (r0 ++ [words[i]])).length 0 }).bind
          fun S => if 0 < r0.length then addComplex SL W (start + r0.length) r0.length S else some S
      else some S := by
    rw [complexRound, hW, Option.bind_some, htext, length_phrase_append]
  rw [hround]
  by_cases hpos : W.order = start + r0.length
  · have hV : words[i].order = start + r0.length := horder ▸ hpos
    rw [if_pos hpos]
    by_cases hlen : (phrase (r0 ++ [words[i]])).length < 256
    · obtain ⟨-, -, hprint⟩ := hS.print hfit words[i]
      have hat := hprint (by omega)
      obtain ⟨hgood, hbad⟩ := hcall hV hlen
      have hrunV : IsRun words start (r0 ++ [words[i]]) := isRun_append.mpr ⟨hrun, List.getElem_mem hi, hV, trivial⟩
      rw [if_neg (by omega)]
      constructor
      · intro hshort
        obtain ⟨S', hS', hat', hkeeps, hdone⟩ := hgood _ hat (hnext ▸ (hshort hV).2)
        obtain ⟨hcut, hstr⟩ := hat'.cut (by omega)
        obtain ⟨S'', hS'', hat'', hkeeps', hdone'⟩ := hadd.finish hrunV hlimit hdata hfinal hcut.shorten
          (by rw [hstr, List.take_of_length_le (by omega)])
        refine ⟨S'', ?_, hat'', hkeeps.trans hkeeps', fun r1 hr1 hlen1 htwo => ?_⟩
        · rw [hS', Option.map_some, Option.bind_some]
          exact hS''
        · rw [IsRun] at hr1
          by_cases hnil : r1 = []
          · -- the run ends here
            subst hnil
            refine hdone' fun hr0 => ?_
            rw [hr0] at htwo
            exact absurd htwo (by simp)
          · have hrest := hdone r1 hnil (hnext ▸ hr1.2.2) hlen1 (by
              have hpos1 := List.length_pos_iff.mpr hnil
              rw [List.length_append, List.length_append, List.length_singleton]
              omega)
            rw [List.append_assoc, List.singleton_append] at hrest
            exact hmono _ _ _ _ hkeeps' hrest
      · intro hshort
        have hnot : ¬ ShortFrom words (r0 ++ [words[i]]) (start + (r0 ++ [words[i]]).length) limit := fun h =>
          hshort fun _ => ⟨hlen, hnext ▸ h⟩
        rw [hbad _ hat hnot]
        rfl
    · rw [if_pos (by omega)]
      exact ⟨fun hshort => absurd (hshort hV).1 hlen, fun _ => rfl⟩
  · rw [if_neg hpos]
    refine ⟨fun _ => ⟨S, rfl, hS, Keeps.refl _, fun r1 hr1 _ _ => ?_⟩, fun hshort => ?_⟩
    · rw [IsRun] at hr1
      exact absurd (horder.trans hr1.2.1) hpos
    · exact absurd (fun hV => absurd (horder.trans hV) hpos) hshort

theorem allDone_of_headDone {L : List UdmWideWord}
    (h : ∀ i ∈ List.range words.length, ∀ hi : i < words.length, HeadDone words Done start r0 limit words[i] L) :
    AllDone words Done start r0 limit L := by
  intro r1 hne hr1 hlen htwo
  obtain ⟨V, r1, rfl⟩ := List.exists_cons_of_ne_nil hne
  obtain ⟨i, hi, rfl⟩ := List.getElem_of_mem ((show _ ∧ _ from hr1).1)
  exact h i (List.mem_range.mpr hi) hi r1 hr1 (by rw [List.length_cons] at hlen; omega) htwo

theorem foldlM_rounds (hmono : ∀ start r L L', Keeps L L' → Done start r L → Done start r L')
    {round : ComplexState → ℕ → Option ComplexState}
    (hround : ∀ i (hi : i < words.length) S, AtRun words Inv r0 S → ∃ S', round S i = some S' ∧ AtRun words Inv r0 S' ∧
      Keeps S.word S'.word ∧ HeadDone words Done start r0 limit words[i] S'.word)
    (hS : AtRun words Inv r0 S) :
    ∃ S', (List.range words.length).foldlM round S = some S' ∧ AtRun words Inv r0 S' ∧ Keeps S.word S'.word ∧
      AllDone words Done start r0 limit S'.word := by
  obtain ⟨S', hS', hat, hkeeps, hdone⟩ := Lib.Loops.foldlM_visits (P := AtRun words Inv r0)
    (R := fun S T => Keeps S.word T.word)
    (Q := fun i S => ∀ hi : i < words.length, HeadDone words Done start r0 limit words[i] S.word)
    (fun S => Keeps.refl S.word) (fun _ _ _ h h' => h.trans h')
    (fun i S T hkeeps hdone hi r1 hr1 hlen htwo => hmono _ _ _ _ hkeeps (hdone hi r1 hr1 hlen htwo))
    (fun i hi S hS => by
      obtain ⟨S', hS', hat, hkeeps, hdone⟩ := hround i (List.mem_range.mp hi) S hS
      exact ⟨S', hS', hat, hkeeps, fun _ => hdone⟩) hS
  exact ⟨S', hS', hat, hkeeps, allDone_of_headDone hdone⟩

/-- **The recursion** does all runs, or fails when there are runs that do not fit. -/
theorem udmComplexSynonymAdd_right (hadd : AddsRight words SL Inv Done)
    (hmono : ∀ start r L L', Keeps L L' → Done start r L → Done start r L') (start limit : ℕ)
    (hrun : IsRun words start r0) (hlimit : limit + r0.length = SL.maxPhraseLength) (hfit : (phrase r0).length ≤ 255) :
    CallRight words Inv Done start limit r0
      (udmComplexSynonymAdd SL words.length limit (start + r0.length) r0.length (phrase r0).length) := by
  induction limit generalizing r0 with
  | zero =>
    refine ⟨fun S hS _ => ?_, fun S hS hshort => ?_⟩
    · exact foldlM_rounds hmono (fun i hi S hS => complexRound_last hadd hrun (by omega) hfit hS hi) hS
    · refine absurd (fun r1 _ hlen => ?_) hshort
      obtain rfl := List.length_eq_zero_iff.mp (Nat.le_zero.mp hlen)
      rw [List.append_nil]
      omega
  | succ limit ih =>
    have hcall : ∀ i (hi : i < words.length), words[i].order = start + r0.length →
        (phrase (r0 ++ [words[i]])).length < 256 → CallRight words Inv Done start limit (r0 ++ [words[i]])
          (udmComplexSynonymAdd SL words.length limit (start + r0.length + 1) (r0.length + 1)
            (phrase (r0 ++ [words[i]])).length) := by
      intro i hi hV hlen
      have hrunV : IsRun words start (r0 ++ [words[i]]) := isRun_append.mpr ⟨hrun, List.getElem_mem hi, hV, trivial⟩
      have hright := ih hrunV (by rw [List.length_append, List.length_singleton]; omega) (by omega)
      rwa [List.length_append, List.length_singleton, ← Nat.add_assoc] at hright
    have hround := fun i (hi : i < words.length) S hS => complexRound_more hadd hmono hrun (by omega) hfit
      (fun pos S => udmComplexSynonymAdd SL words.length limit (start + r0.length + 1) (r0.length + 1) pos S)
      hi (hcall i hi) (S := S) hS
    have hiff : ShortFrom words r0 (start + r0.length) (limit + 1) ↔
        ∀ i (hi : i < words.length), HeadShort words start r0 limit words[i] := by
      rw [shortFrom_succ_iff (by omega)]
      exact ⟨fun h i hi => h _ (List.getElem_mem hi), fun h V hV => by
        obtain ⟨i, hi, rfl⟩ := List.getElem_of_mem hV
        exact h i hi⟩
    refine ⟨fun S hS hshort => ?_, fun S hS hshort => ?_⟩
    · exact foldlM_rounds hmono (fun i hi S hS => (hround i hi S hS).1 (hiff.mp hshort i hi)) hS
    · obtain ⟨i, hi, hlong⟩ : ∃ i, ∃ hi : i < words.length, ¬ HeadShort words start r0 limit words[i] := by
        rw [hiff] at hshort
        push Not at hshort
        exact hshort
      refine Lib.Loops.foldlM_eq_none (P := AtRun words Inv r0) (fun j hj S hS T hT => ?_) (List.mem_range.mpr hi)
        (fun S hS => (hround i hi S hS).2 hlong) hS
      -- a round that does not fail keeps what holds of the string and the list
      have hjlt : j < words.length := List.mem_range.mp hj
      by_cases hfits : HeadShort words start r0 limit words[j]
      · obtain ⟨S', hS', hat, -⟩ := (hround j hjlt S hS).1 hfits
        exact Option.some.inj (hS'.symm.trans hT) ▸ hat
      · exact absurd (((hround j hjlt S hS).2 hfits).symm.trans hT) (by simp)

end Recursion

/-! ### All positions and all lists -/

/-- What can be continued does not fill the string. -/
def Short (words : List UdmWideWord) (SL : UdmSynonymList) : Prop :=
  ∀ order r, IsRun words order r → r.length ≤ SL.maxPhraseLength → (phrase r).length < 256

/-- The runs of a list are done. -/
def RunsDone (words : List UdmWideWord) (SL : UdmSynonymList) (Done : ℕ → List UdmWideWord → List UdmWideWord → Prop)
    (L : List UdmWideWord) : Prop :=
  ∀ start r, IsRun words start r → r.length ≤ SL.maxPhraseLength + 1 → 2 ≤ r.length → Done start r L

section Lists

variable {WWL : UdmWideWordList} {Inv : List UdmWideWord → Prop}

theorem short_iff {SL : UdmSynonymList} :
    Short WWL.word SL ↔ ∀ start < WWL.nuniq, ShortFrom WWL.word [] start SL.maxPhraseLength := by
  refine ⟨fun h start _ r => h start r, fun h order r hr hlen => ?_⟩
  cases r with
  | nil => decide
  | cons W r =>
    have hlt := WWL.order_lt W ((show _ ∧ _ from hr).1)
    rw [(show _ ∧ _ ∧ _ from hr).2.1] at hlt
    exact h order hlt (W :: r) hr hlen

/-- **One list.** -/
theorem complexList_right {SL : LoadedSynonyms} {Done : ℕ → List UdmWideWord → List UdmWideWord → Prop}
    (hadd : AddsRight WWL.word SL.toUdmSynonymList Inv Done)
    (hmono : ∀ start r L L', Keeps L L' → Done start r L → Done start r L') {L : List UdmWideWord}
    (hL : Keeps WWL.word L) (hinv : Inv L) :
    (Short WWL.word SL.toUdmSynonymList → ∃ L', complexList WWL.nuniq WWL.word.length L SL = some L' ∧ Keeps L L' ∧ Inv L' ∧
      RunsDone WWL.word SL.toUdmSynonymList Done L') ∧
    (¬ Short WWL.word SL.toUdmSynonymList → complexList WWL.nuniq WWL.word.length L SL = none) := by
  rw [complexList]
  by_cases hmax : 0 < SL.maxPhraseLength
  · have hcall : ∀ start, CallRight WWL.word Inv Done start SL.maxPhraseLength []
        fun S => udmComplexSynonymAdd SL.toUdmSynonymList WWL.word.length SL.maxPhraseLength start 0 0 S :=
      fun start => udmComplexSynonymAdd_right hadd hmono start SL.maxPhraseLength trivial rfl (Nat.zero_le _)
    have hstart : AtRun WWL.word Inv [] ⟨⟨List.replicate 256 0, false⟩, L⟩ := ⟨List.length_replicate, rfl, hL, hinv⟩
    rw [if_pos hmax, short_iff]
    constructor
    · intro hshort
      obtain ⟨S', hS', hat, hkeeps, hdone⟩ := Lib.Loops.foldlM_visits (P := AtRun WWL.word Inv [])
        (R := fun S T => Keeps S.word T.word)
        (Q := fun start S => AllDone WWL.word Done start [] SL.maxPhraseLength S.word) (fun S => Keeps.refl S.word)
        (fun _ _ _ h h' => h.trans h') (fun start S T hkeeps hdone r hne hr hlen htwo =>
          hmono _ _ _ _ hkeeps (hdone r hne hr hlen htwo))
        (fun start hmem S hS => (hcall start).good S hS (hshort start (List.mem_range.mp hmem))) hstart
      refine ⟨S'.word, by rw [hS', Option.map_some], hkeeps, hat.inv, fun start r hr hlen htwo => ?_⟩
      have hne : r ≠ [] := List.ne_nil_of_length_pos (by omega)
      have hend := hr.add_le hne
      exact hdone start (List.mem_range.mpr (by omega)) r hne hr hlen htwo
    · intro hshort
      push Not at hshort
      obtain ⟨start, hlt, hlong⟩ := hshort
      rw [Lib.Loops.foldlM_eq_none (P := AtRun WWL.word Inv []) (fun start' _ S hS T hT => ?_) (List.mem_range.mpr hlt)
        (fun S hS => (hcall start).bad S hS hlong) hstart, Option.map_none]
      by_cases hfits : ShortFrom WWL.word [] start' SL.maxPhraseLength
      · obtain ⟨S', hS', hat, -⟩ := (hcall start').good S hS hfits
        exact Option.some.inj (hS'.symm.trans hT) ▸ hat
      · exact absurd (((hcall start').bad S hS hfits).symm.trans hT) (by simp)
  · -- without phrases there is nothing to do
    rw [if_neg hmax]
    refine ⟨fun _ => ⟨L, rfl, Keeps.refl L, hinv, fun start r _ hlen htwo => by omega⟩, fun hshort => ?_⟩
    refine absurd (fun order r _ hlen => ?_) hshort
    obtain rfl := List.length_eq_zero_iff.mp (show r.length = 0 by omega)
    decide

/-- **All lists.** -/
theorem udmComplexSynonyms_right {SSL : List LoadedSynonyms}
    {Done : UdmSynonymList → ℕ → List UdmWideWord → List UdmWideWord → Prop}
    (hadd : ∀ SL ∈ SSL, AddsRight WWL.word SL.toUdmSynonymList Inv (Done SL.toUdmSynonymList))
    (hmono : ∀ SL start r L L', Keeps L L' → Done SL start r L → Done SL start r L') (hinv : Inv WWL.word) :
    ((∀ SL ∈ SSL, Short WWL.word SL.toUdmSynonymList) → ∃ L', udmComplexSynonyms SSL WWL = some L' ∧
      Keeps WWL.word L' ∧ Inv L' ∧ ∀ SL ∈ SSL, RunsDone WWL.word SL.toUdmSynonymList (Done SL.toUdmSynonymList) L') ∧
    ((∃ SL ∈ SSL, ¬ Short WWL.word SL.toUdmSynonymList) → udmComplexSynonyms SSL WWL = none) := by
  have hlist : ∀ SL ∈ SSL, ∀ L, Keeps WWL.word L ∧ Inv L → _ := fun SL hSL L hL =>
    complexList_right (hadd SL hSL) (hmono SL.toUdmSynonymList) hL.1 hL.2
  rw [udmComplexSynonyms]
  constructor
  · intro hshort
    obtain ⟨L', hL', hP, -, hdone⟩ := Lib.Loops.foldlM_visits (P := fun L => Keeps WWL.word L ∧ Inv L) (R := Keeps)
      (Q := fun (SL : LoadedSynonyms) L => RunsDone WWL.word SL.toUdmSynonymList (Done SL.toUdmSynonymList) L) Keeps.refl
      (fun _ _ _ h h' => h.trans h') (fun SL L L' hkeeps hdone start r hr hlen htwo =>
        hmono _ _ _ _ _ hkeeps (hdone start r hr hlen htwo))
      (fun SL hSL L hL => by
        obtain ⟨L', hL', hkeeps, hinv, hdone⟩ := (hlist SL hSL L hL).1 (hshort SL hSL)
        exact ⟨L', hL', ⟨hL.1.trans hkeeps, hinv⟩, hkeeps, hdone⟩) ⟨Keeps.refl _, hinv⟩
    exact ⟨L', hL', hP.1, hP.2, hdone⟩
  · rintro ⟨SL, hSL, hlong⟩
    refine Lib.Loops.foldlM_eq_none (P := fun L => Keeps WWL.word L ∧ Inv L) (fun SL' hSL' L hL L' hL' => ?_) hSL
      (fun L hL => (hlist SL hSL L hL).2 hlong) ⟨Keeps.refl _, hinv⟩
    by_cases hfits : Short WWL.word SL'.toUdmSynonymList
    · obtain ⟨M, hM, hkeeps, hinv, -⟩ := (hlist SL' hSL' L hL).1 hfits
      exact Option.some.inj (hM.symm.trans hL') ▸ ⟨hL.1.trans hkeeps, hinv⟩
    · exact absurd (((hlist SL' hSL' L hL).2 hfits).symm.trans hL') (by simp)

end Lists

/-! ### The string is large enough -/

theorem exists_udmSynonymListFind (l : UdmSynonymList) (wword : UdmWideWord) :
    ∃ T, udmSynonymListFind [] l wword = some T := by
  by_cases hfinal : wword.origin = .synonymFinal
  · exact ⟨[], by rw [udmSynonymListFind, if_pos (Or.inr hfinal)]⟩
  · exact ⟨_, udmSynonymListFind_eq l [] hfinal⟩

theorem keeps_foldl_addLike (orig : UdmWideWord) (T L : List UdmWideWord) :
    Keeps L (T.foldl (fun WWL t => udmWideWordListAddLike WWL orig t.word) L) := by
  induction T generalizing L with
  | nil => exact Keeps.refl L
  | cons t T ih => exact (keeps_add L _).trans (ih _)

end MnoGoSearch.Fuzzy
