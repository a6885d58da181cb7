import MnoGoSearch.Lib.Runs
import MnoGoSearch.Words.WordList
import Mathlib.Data.List.Infix

/-!
# Highlighting

`UdmHlConvertExtWithConv` (`highlight.c`) converts a text token by token and puts the character 2
in front of a word of the query and the character 3 behind it. The words of a phrase are marked as
they come; when the phrase turns out to be incomplete, `UdmRemoveHl` takes the markers back.
`onlyInsertsMarkers_iff` says for which texts nothing but markers is inserted: those that have no
marker once their character references are decoded.
-/

namespace MnoGoSearch.Highlight

open Words

/-! ## Conversion -/

/-- What `mb_wc` says of the source. -/
inductive MbWc where
  /-- A character of `n` bytes (none, where it comes from the cache), and the next state. -/
  | char (n istate : ℕ) (wc : ℤ)
  /-- An illegal sequence of `n` bytes. -/
  | ilseq (n istate : ℕ)
  /-- The source ends in the middle of a character. -/
  | toofew

/-- What `wc_mb` says of a character. -/
inductive WcMb where
  | bytes (s : List UInt8)
  /-- The character set does not have it. -/
  | iluni
  | toosmall

/-- `UDM_CHARSET`, with the flag `UDM_RECODE_HTML` as all conversions here have it. -/
structure UdmCharset where
  /-- The first character of a source, from the state. -/
  mbWc : ℕ → List UInt8 → MbWc
  /-- The bytes of a character, as far as there is room. -/
  wcMb : ℤ → ℕ → WcMb

/-- The characters that are escaped in HTML. -/
def isSpecial (c : UInt8) : Bool := c == 0x22 || c == 0x26 || c == 0x3C || c == 0x3E

/-- A character set where an ASCII character is its own byte. -/
structure AsciiCharset extends UdmCharset where
  ascii : ∀ c : UInt8, c < 0x80 → isSpecial c = false → ∀ room, 0 < room → wcMb c.toNat room = .bytes [c]

/-- `UdmConv` to `sys_int`, at most `room` integers. -/
def udmConvIn (cs : UdmCharset) : ℕ → ℕ → List UInt8 → List ℤ
  | 0, _, _ => []
  | room + 1, istate, s =>
    if s = [] then []
    else
      match cs.mbWc istate s with
      | .char n istate' wc => wc :: udmConvIn cs room istate' (s.drop n)
      | .ilseq n istate' => 0x3F :: udmConvIn cs room istate' (s.drop n)
      | .toofew => []

/-- `sprintf(d, "&#%d;", wc)`. -/
def charRef (wc : ℤ) : List UInt8 := ('&' :: '#' :: (toString wc).toList ++ [';']).map fun c => c.toNat.toUInt8

/-- `UdmConv` from `sys_int`, at most `dlen` bytes. -/
def udmConvOut (cs : UdmCharset) : ℕ → List ℤ → List UInt8
  | _, [] => []
  | dlen, wc :: s =>
    if dlen = 0 then []
    else
      match cs.wcMb wc dlen with
      | .bytes r => r ++ udmConvOut cs (dlen - r.length) s
      | .iluni => if 8 < dlen then charRef wc ++ udmConvOut cs (dlen - (charRef wc).length) s else []
      | .toosmall => []

/-- A destination. What is written to it is integers, for a character set the bytes. -/
inductive UdmDest where
  /-- `udm_charset_sys_int`. -/
  | sysInt
  | charset (cs : AsciiCharset)

/-- `UdmConv` from `sys_int` to a destination of `dstmaxlen` bytes. -/
def UdmDest.conv : UdmDest → ℕ → List ℤ → List ℤ
  | .sysInt, dstmaxlen, s => s.take (dstmaxlen / 4)
  | .charset cs, dstmaxlen, s => (udmConvOut cs.toUdmCharset dstmaxlen s).map fun b => (b.toNat : ℤ)

/-- The text of a token, in `UdmHlAppend`. -/
def UdmDest.text : UdmDest → ℕ → List ℤ → List ℤ
  | .sysInt, _, tok => tok
  | .charset cs, dstmaxlen, tok => UdmDest.conv (.charset cs) dstmaxlen tok

/-! ## Tokens -/

/-- The types of characters. -/
inductive UniCtype where
  /-- `UDM_UNI_SEPAR`. -/
  | separ
  /-- `UDM_UNI_LETTER`. -/
  | letter
  /-- `UDM_UNI_DIGIT`. -/
  | digit
  /-- `UDM_UNI_CJK`. -/
  | cjk
  deriving DecidableEq

/-- `UDM_UNIDATA`: what the tables say. -/
structure UdmUnidata where
  ctype : ℤ → UniCtype
  ctype_tab : ctype 9 = .separ
  strToLowerExt : UdmCharset → List UInt8 → List UInt8
  /-- `UdmStrCaseCmp2` says that a token is a word. -/
  strCaseCmp2 : UdmCharset → List ℤ → CString → Bool
  /-- `UdmStrCaseAccentCmp2` says so. -/
  strCaseAccentCmp2 : UdmCharset → List ℤ → CString → Bool

/-- The type by which `UdmUniGetSepToken` cuts: digits count as letters. -/
def UdmUnidata.tokenType (U : UdmUnidata) (wc : ℤ) : ℕ :=
  match U.ctype wc with
  | .separ => 0
  | .letter | .digit => 1
  | .cjk => 3

/-- `UdmUniGetSepToken`, called until it finds no more. -/
def sepTokens (U : UdmUnidata) (uni : List ℤ) : List (List ℤ) := Lib.Runs.runs U.tokenType uni

/-- The token separates. -/
def isSepar (U : UdmUnidata) (tok : List ℤ) : Bool := tok.head?.any fun wc => U.tokenType wc == 0

/-! ## The words of the query -/

/-- How a word matches. -/
inductive UdmMatchMode where
  /-- `UDM_MATCH_FULL`. -/
  | full
  /-- `UDM_MATCH_BEGIN`. -/
  | begin
  /-- `UDM_MATCH_SUBSTR`. -/
  | substr
  /-- `UDM_MATCH_END`. -/
  | ending
  /-- A mode that is not for words. -/
  | other
  deriving DecidableEq

/-- `UDM_WIDEWORD`: a word of the query. -/
structure UdmWideWord where
  word : CString
  /-- Its origin is a list of stopwords. -/
  stop : Bool
  mode : UdmMatchMode
  /-- Its position in its phrase. -/
  phrpos : ℕ
  phrlen : ℕ

/-- `UDM_WIDEWORDLIST`. -/
structure UdmWideWordList where
  words : List UdmWideWord
  wm : UdmMatchMode
  stripNoaccents : Bool

/-- `UDM_HIGHLIGHT_CONV`. -/
structure UdmHighlightConv where
  /-- The character set of the source, of `src_uni`. -/
  src : UdmCharset
  /-- The character set of the words, of `uni_wcs`. -/
  wcs : UdmCharset
  /-- The destination, of `uni_dst`. -/
  dst : UdmDest

/-- A token against a word, in `UdmWordInWWList2`. -/
def wordMatches (U : UdmUnidata) (ec : UdmHighlightConv) (L : UdmWideWordList) (tok : List ℤ) (W : UdmWideWord) :
    Bool :=
  if W.mode = .full then
    if L.stripNoaccents then U.strCaseAccentCmp2 ec.wcs tok W.word else U.strCaseCmp2 ec.wcs tok W.word
  else
    let conv := if L.wm = .full then [] else udmConvOut ec.wcs 127 tok
    let word := if L.wm = .full then [] else U.strToLowerExt ec.wcs conv
    let len := W.word.val.length
    if conv.length < len then false
    else if conv.length = len ∧ word.take len = W.word.val then true
    else if conv.length = len then false
    else
      match W.mode with
      | .begin => word.take len == W.word.val
      | .ending => (word.drop (conv.length - len)).take len == W.word.val
      | .substr => decide (W.word.val <:+: (CString.take word).val)
      | _ => false

/-- `UdmWordInWWList2`. -/
def udmWordInWWList2 (U : UdmUnidata) (ec : UdmHighlightConv) (L : UdmWideWordList) (tok : List ℤ) (hlstop : Bool)
    (phrpos : ℕ) : Option UdmWideWord :=
  L.words.find? fun W => W.phrpos == phrpos && (hlstop || !W.stop) && wordMatches U ec L tok W

/-! ## Markers -/

/-- The characters 2 and 3. -/
def isMarker (u : ℤ) : Bool := u == 2 || u == 3

/-- The text without markers. -/
def eraseMarkers (s : List ℤ) : List ℤ := s.filter fun u => !isMarker u

/-- The markers alternate, from 2 on, up to 3. -/
def Alternate (s : List ℤ) : Prop := ∃ n, s.filter isMarker = (List.replicate n [2, 3]).flatten

/-- `UdmRemoveHl`, from the place `pos` on. -/
def udmRemoveHl (str : List ℤ) (pos : ℕ) : List ℤ := str.take pos ++ eraseMarkers (str.drop pos)

/-- `UdmHlAppend`. -/
def udmHlAppend (out : UdmDest) (dstmaxlen : ℕ) (found : Bool) (dst tok : List ℤ) : List ℤ :=
  dst ++ (if found then out.conv dstmaxlen [2] else []) ++ out.text dstmaxlen tok ++
    if found then out.conv dstmaxlen [3] else []

/-! ## The loop -/

/-- The variables of `UdmHlConvertExtWithConv`. -/
structure HlState where
  dst : List ℤ
  /-- The end of what is safe. -/
  dstlenPhr : ℕ
  /-- The number of words of the phrase that have been found. -/
  nfound : ℕ
  /-- The place in the phrase that is expected next. -/
  expectedPhrpos : ℕ

/-- The arguments of `UdmHlConvertExtWithConv` that stay the same. -/
structure HlArgs where
  /-- `udm_unidata_default`. -/
  unidata : UdmUnidata
  ec : UdmHighlightConv
  /-- The size of the destination. -/
  dstmaxlen : ℕ
  hilightStopwords : Bool
  /-- `UdmUniSegmentByType` of the segmenter, if there is one. -/
  segmenter : Option (List ℤ → List ℤ)

/-- Append a token. -/
def HlArgs.append (a : HlArgs) (found : Bool) (dst tok : List ℤ) : List ℤ :=
  udmHlAppend a.ec.dst a.dstmaxlen found dst tok

/-- A token that is not a word of the query. -/
def HlArgs.notFound (a : HlArgs) (dst tok : List ℤ) : HlState :=
  ⟨a.append false dst tok, (a.append false dst tok).length, 0, 0⟩

/-- A token that is a word of the query. -/
def HlArgs.found (a : HlArgs) (st : HlState) (tok : List ℤ) (W : UdmWideWord) : HlState :=
  if W.phrpos + 1 = W.phrlen then ⟨a.append true st.dst tok, (a.append true st.dst tok).length, 0, 0⟩
  else ⟨a.append true st.dst tok, st.dstlenPhr, st.nfound + 1, st.expectedPhrpos + 1⟩

/-- A token that does not separate. -/
def HlArgs.word (a : HlArgs) (L : UdmWideWordList) (st : HlState) (tok : List ℤ) : HlState :=
  match udmWordInWWList2 a.unidata a.ec L tok a.hilightStopwords st.expectedPhrpos with
  | some W => a.found st tok W
  | none =>
    if st.nfound = 0 then a.notFound st.dst tok
    else
      -- the phrase is not complete: the markers are taken back, and the token may start another one
      let dst := udmRemoveHl st.dst st.dstlenPhr
      match udmWordInWWList2 a.unidata a.ec L tok a.hilightStopwords 0 with
      | some _ => ⟨a.append true dst tok, dst.length, 1, 1⟩
      | none => a.notFound dst tok

/-- A separator, or any token where there are no words: what the segmenter has added is left out. -/
def HlArgs.separ (a : HlArgs) (st : HlState) (tok : List ℤ) : HlState :=
  if a.segmenter.isSome ∧ tok = [9] then st else { st with dst := a.append false st.dst tok }

/-- One turn of the loop. -/
def HlArgs.step (a : HlArgs) (list : Option UdmWideWordList) (st : HlState) (tok : List ℤ) : HlState :=
  match list with
  | none => a.separ st tok
  | some L => if isSepar a.unidata tok then a.separ st tok else a.word L st tok

/-- The tokens of a source. -/
def HlArgs.tokens (a : HlArgs) (src : List UInt8) : List (List ℤ) :=
  let uni := udmConvIn a.ec.src (src.length + 10) 0 src
  sepTokens a.unidata ((a.segmenter.map fun segment => segment uni).getD uni)

/-- `UdmHlConvertExtWithConv`. -/
def udmHlConvertExtWithConv (a : HlArgs) (list : Option UdmWideWordList) (src : List UInt8) : List ℤ :=
  let st := (a.tokens src).foldl (a.step list) ⟨[], 0, 0, 0⟩
  if 0 < st.expectedPhrpos then udmRemoveHl st.dst st.dstlenPhr else st.dst

/-- Highlighting inserts markers, in pairs, and nothing else. -/
def OnlyInsertsMarkers (a : HlArgs) (L : UdmWideWordList) (src : List UInt8) : Prop :=
  eraseMarkers (udmHlConvertExtWithConv a (some L) src) = udmHlConvertExtWithConv a none src ∧
    Alternate (udmHlConvertExtWithConv a (some L) src)

/-! ## Erasing markers -/

theorem eraseMarkers_append (s t : List ℤ) : eraseMarkers (s ++ t) = eraseMarkers s ++ eraseMarkers t :=
  List.filter_append _ _

theorem eraseMarkers_eraseMarkers (s : List ℤ) : eraseMarkers (eraseMarkers s) = eraseMarkers s := by
  rw [eraseMarkers, eraseMarkers, List.filter_filter]
  simp

variable {s : List ℤ}

theorem eraseMarkers_eq_self : eraseMarkers s = s ↔ ∀ u ∈ s, isMarker u = false := by
  rw [eraseMarkers, List.filter_eq_self]
  simp

theorem filter_eraseMarkers (s : List ℤ) : (eraseMarkers s).filter isMarker = [] := by
  rw [eraseMarkers, List.filter_filter, List.filter_eq_nil_iff]
  simp

theorem alternate_eraseMarkers (s : List ℤ) : Alternate (eraseMarkers s) := ⟨0, filter_eraseMarkers s⟩

theorem alternate_of_no_marker (h : ∀ u ∈ s, isMarker u = false) : Alternate s := by
  rw [← eraseMarkers_eq_self.mpr h]
  exact alternate_eraseMarkers s

theorem Alternate.append {t : List ℤ} (hs : Alternate s) (ht : Alternate t) : Alternate (s ++ t) := by
  obtain ⟨m, hm⟩ := hs
  obtain ⟨n, hn⟩ := ht
  exact ⟨m + n, by rw [List.filter_append, hm, hn, List.replicate_add, List.flatten_append]⟩

theorem alternate_pair (h : ∀ u ∈ s, isMarker u = false) : Alternate ([2] ++ s ++ [3]) := by
  have hs : s.filter isMarker = [] := List.filter_eq_nil_iff.mpr fun u hu => by simp [h u hu]
  exact ⟨1, by rw [List.filter_append, List.filter_append, hs]; rfl⟩

/-! ## The destination -/

/-- The room that an ASCII character needs. -/
def UdmDest.width : UdmDest → ℕ
  | .sysInt => 4
  | .charset _ => 1

theorem UdmDest.conv_ascii (out : UdmDest) (dstmaxlen : ℕ) {c : UInt8} (hc : c < 0x80) (hs : isSpecial c = false) :
    out.conv dstmaxlen [(c.toNat : ℤ)] = if dstmaxlen < out.width then [] else [(c.toNat : ℤ)] := by
  cases out with
  | sysInt =>
    rw [UdmDest.conv, UdmDest.width]
    split_ifs with hlt
    · rw [Nat.div_eq_of_lt hlt, List.take_zero]
    · exact List.take_of_length_le ((Nat.le_div_iff_mul_le (by omega)).mpr (by simpa using hlt))
  | charset cs =>
    rw [UdmDest.conv, UdmDest.width, udmConvOut]
    by_cases h0 : dstmaxlen = 0
    · rw [if_pos h0, if_pos (by omega)]
      rfl
    · rw [if_neg h0, if_neg (show ¬ dstmaxlen < 1 by omega), cs.ascii c hc hs dstmaxlen (Nat.pos_of_ne_zero h0)]
      dsimp only
      rw [udmConvOut]
      rfl

theorem UdmDest.conv_markers (out : UdmDest) (dstmaxlen : ℕ) :
    (out.conv dstmaxlen [2] = [2] ∧ out.conv dstmaxlen [3] = [3]) ∨
      (out.conv dstmaxlen [2] = [] ∧ out.conv dstmaxlen [3] = []) := by
  have h2 := @UdmDest.conv_ascii out dstmaxlen 2 (by decide) rfl
  have h3 := @UdmDest.conv_ascii out dstmaxlen 3 (by decide) rfl
  by_cases hroom : dstmaxlen < out.width
  · rw [if_pos hroom] at h2 h3
    exact Or.inr ⟨h2, h3⟩
  · rw [if_neg hroom] at h2 h3
    exact Or.inl ⟨h2, h3⟩

theorem UdmDest.text_tab (out : UdmDest) (dstmaxlen : ℕ) : ∀ u ∈ out.text dstmaxlen [9], isMarker u = false := by
  have h9 := @UdmDest.conv_ascii out dstmaxlen 9 (by decide) rfl
  cases out with
  | sysInt =>
    intro u hu
    rw [UdmDest.text, List.mem_singleton] at hu
    rw [hu]
    rfl
  | charset cs =>
    intro u hu
    rw [UdmDest.text] at hu
    change u ∈ UdmDest.conv _ _ [((9 : UInt8).toNat : ℤ)] at hu
    rw [h9] at hu
    split_ifs at hu
    · simp at hu
    · rw [List.mem_singleton.mp hu]
      rfl

/-! ## The loop -/

/-- The text of a token as it is written. -/
def HlArgs.text (a : HlArgs) (tok : List ℤ) : List ℤ := a.ec.dst.text a.dstmaxlen tok

/-- A token that the segmenter has added. -/
def HlArgs.isAdded (a : HlArgs) (tok : List ℤ) : Bool := decide (a.segmenter.isSome ∧ tok = [9])

/-- What is written of the tokens without a word list. -/
def HlArgs.plain (a : HlArgs) (toks : List (List ℤ)) : List ℤ := (toks.filter fun tok => !a.isAdded tok).flatMap a.text

section Loop

variable {a : HlArgs} {L : UdmWideWordList} {src : List UInt8} {st : HlState}

theorem HlArgs.plain_cons (tok : List ℤ) (toks : List (List ℤ)) :
    a.plain (tok :: toks) = (if a.isAdded tok then [] else a.text tok) ++ a.plain toks := by
  rw [HlArgs.plain, HlArgs.plain, List.filter_cons]
  cases a.isAdded tok <;> rfl

theorem foldl_step_none (toks : List (List ℤ)) (st : HlState) :
    (toks.foldl (a.step none) st).dst = st.dst ++ a.plain toks ∧
      (toks.foldl (a.step none) st).expectedPhrpos = st.expectedPhrpos := by
  induction toks generalizing st with
  | nil => simp [HlArgs.plain]
  | cons tok toks ih =>
    obtain ⟨hdst, hpos⟩ := ih (a.step none st tok)
    have hone : (a.step none st tok).dst = st.dst ++ (if a.isAdded tok then [] else a.text tok) ∧
        (a.step none st tok).expectedPhrpos = st.expectedPhrpos := by
      rw [HlArgs.step, HlArgs.separ, HlArgs.isAdded]
      by_cases hadd : a.segmenter.isSome ∧ tok = [9]
      · rw [if_pos hadd]
        simp [hadd]
      · rw [if_neg hadd]
        simp [hadd, HlArgs.append, udmHlAppend, HlArgs.text]
    rw [List.foldl_cons, hdst, hpos, hone.1, hone.2, HlArgs.plain_cons, List.append_assoc]
    exact ⟨rfl, rfl⟩

theorem convert_none (src : List UInt8) : udmHlConvertExtWithConv a none src = a.plain (a.tokens src) := by
  obtain ⟨hdst, hpos⟩ := @foldl_step_none a (a.tokens src) ⟨[], 0, 0, 0⟩
  rw [udmHlConvertExtWithConv]
  rw [hpos, if_neg (by simp), hdst, List.nil_append]

/-- What has been written is a safe part and the rest, both with their markers in pairs, and without the markers it is
the plain text. -/
structure Written (st : HlState) (plain : List ℤ) : Prop where
  /-- Only markers have been inserted. -/
  erase : eraseMarkers st.dst = plain
  safe : Alternate (st.dst.take st.dstlenPhr)
  rest : Alternate (st.dst.drop st.dstlenPhr)
  /-- The safe part has been written. -/
  le : st.dstlenPhr ≤ st.dst.length

theorem Written.alternate {plain : List ℤ} (h : Written st plain) : Alternate st.dst := by
  rw [← List.take_append_drop st.dstlenPhr st.dst]
  exact h.safe.append h.rest

theorem udmHlAppend_eq (found : Bool) (dst tok : List ℤ) :
    ∃ t, a.append found dst tok = dst ++ t ∧ ((∀ u ∈ a.text tok, isMarker u = false) →
      eraseMarkers t = a.text tok ∧ Alternate t) := by
  cases found with
  | false =>
    refine ⟨a.text tok, by simp [HlArgs.append, udmHlAppend, HlArgs.text], fun h => ?_⟩
    exact ⟨eraseMarkers_eq_self.mpr h, alternate_of_no_marker h⟩
  | true =>
    refine ⟨a.ec.dst.conv a.dstmaxlen [2] ++ a.text tok ++ a.ec.dst.conv a.dstmaxlen [3],
      by simp [HlArgs.append, udmHlAppend, HlArgs.text], fun h => ?_⟩
    have hself := eraseMarkers_eq_self.mpr h
    rcases a.ec.dst.conv_markers a.dstmaxlen with ⟨h2, h3⟩ | ⟨h2, h3⟩
    · rw [h2, h3, eraseMarkers_append, eraseMarkers_append, hself]
      exact ⟨List.append_nil _, alternate_pair h⟩
    · rw [h2, h3, List.nil_append, List.append_nil]
      exact ⟨hself, alternate_of_no_marker h⟩

theorem Written.append {plain tok : List ℤ} (h : Written st plain)
    (htok : ∀ u ∈ a.text tok, isMarker u = false) (found : Bool) (nfound expectedPhrpos : ℕ) :
    Written ⟨a.append found st.dst tok, st.dstlenPhr, nfound, expectedPhrpos⟩ (plain ++ a.text tok) := by
  obtain ⟨t, heq, ht⟩ := @udmHlAppend_eq a found st.dst tok
  obtain ⟨herase, halt⟩ := ht htok
  refine ⟨?_, ?_, ?_, ?_⟩
  · rw [heq, eraseMarkers_append, h.erase, herase]
  · rw [heq, List.take_append_of_le_length h.le]
    exact h.safe
  · rw [heq, List.drop_append_of_le_length h.le]
    exact h.rest.append halt
  · rw [heq, List.length_append]
    exact h.le.trans (Nat.le_add_right _ _)

theorem Written.allSafe {plain : List ℤ} (h : Written st plain) (nfound expectedPhrpos : ℕ) :
    Written ⟨st.dst, st.dst.length, nfound, expectedPhrpos⟩ plain where
  erase := h.erase
  safe := by
    rw [List.take_length]
    exact h.alternate
  rest := by
    rw [List.drop_length]
    exact ⟨0, rfl⟩
  le := le_rfl

theorem Written.removeHl {plain : List ℤ} (h : Written st plain) (nfound expectedPhrpos : ℕ) :
    Written ⟨udmRemoveHl st.dst st.dstlenPhr, (udmRemoveHl st.dst st.dstlenPhr).length, nfound, expectedPhrpos⟩
      plain := by
  have herase : eraseMarkers (udmRemoveHl st.dst st.dstlenPhr) = plain := by
    rw [udmRemoveHl, eraseMarkers_append, eraseMarkers_eraseMarkers, ← eraseMarkers_append, List.take_append_drop, h.erase]
  have halt : Alternate (udmRemoveHl st.dst st.dstlenPhr) := h.safe.append (alternate_eraseMarkers _)
  refine ⟨herase, ?_, ?_, le_rfl⟩
  · rw [List.take_length]
    exact halt
  · rw [List.drop_length]
    exact ⟨0, rfl⟩

theorem Written.step {st : HlState} {plain tok : List ℤ} (h : Written st plain)
    (htok : ∀ u ∈ a.text tok, isMarker u = false) :
    Written (a.step (some L) st tok) (plain ++ if a.isAdded tok then [] else a.text tok) := by
  rw [HlArgs.step]
  by_cases hsep : isSepar a.unidata tok = true
  · rw [if_pos hsep, HlArgs.separ, HlArgs.isAdded]
    by_cases hadd : a.segmenter.isSome ∧ tok = [9]
    · rw [if_pos hadd, if_pos (by simpa using hadd), List.append_nil]
      exact h
    · rw [if_neg hadd, if_neg (by simpa using hadd)]
      exact h.append htok false st.nfound st.expectedPhrpos
  · -- a token that the segmenter has added separates
    have hadd : a.isAdded tok = false := by
      refine decide_eq_false fun hadd => hsep ?_
      rw [hadd.2]
      simp [isSepar, UdmUnidata.tokenType, a.unidata.ctype_tab]
    rw [if_neg hsep, hadd, if_neg Bool.false_ne_true, HlArgs.word]
    split
    · rename_i W _
      rw [HlArgs.found]
      split_ifs
      · exact (h.append htok true 0 0).allSafe 0 0
      · exact h.append htok true _ _
    · split_ifs with hn
      · exact (h.append htok false 0 0).allSafe 0 0
      · have hback := h.removeHl 0 0
        split
        · exact hback.append htok true 1 1
        · exact (hback.append htok false 0 0).allSafe 0 0

theorem Written.foldl {toks : List (List ℤ)} (htoks : ∀ tok ∈ toks, ∀ u ∈ a.text tok, isMarker u = false) :
    ∀ {st : HlState} {plain : List ℤ}, Written st plain →
      Written (toks.foldl (a.step (some L)) st) (plain ++ a.plain toks) := by
  induction toks with
  | nil =>
    intro st plain h
    rwa [HlArgs.plain, List.filter_nil, List.flatMap_nil, List.append_nil]
  | cons tok toks ih =>
    intro st plain h
    obtain ⟨htok, hrest⟩ := List.forall_mem_cons.mp htoks
    have hstep := ih hrest (@Written.step a L st plain tok h htok)
    rwa [List.append_assoc, ← HlArgs.plain_cons] at hstep

/-- Where no token has markers of its own, highlighting inserts markers, in pairs, and nothing else. -/
theorem onlyInsertsMarkers_of_no_marker
    (h : ∀ tok ∈ a.tokens src, ∀ u ∈ a.text tok, isMarker u = false) : OnlyInsertsMarkers a L src := by
  have hinit : Written ⟨[], 0, 0, 0⟩ [] := ⟨rfl, ⟨0, rfl⟩, ⟨0, rfl⟩, le_rfl⟩
  have hall := @Written.foldl a L (a.tokens src) h _ _ hinit
  rw [OnlyInsertsMarkers, convert_none, udmHlConvertExtWithConv]
  split_ifs
  · have hback := hall.removeHl 0 0
    exact ⟨hback.erase, hback.alternate⟩
  · exact ⟨hall.erase, hall.alternate⟩

theorem no_marker_of_onlyInsertsMarkers (h : OnlyInsertsMarkers a L src) :
    ∀ tok ∈ a.tokens src, ∀ u ∈ a.text tok, isMarker u = false := by
  intro tok htok u hu
  by_cases hadd : a.isAdded tok = true
  · obtain ⟨-, rfl⟩ := of_decide_eq_true hadd
    exact a.ec.dst.text_tab a.dstmaxlen u hu
  · have hplain := h.1
    rw [convert_none] at hplain
    have hself : eraseMarkers (a.plain (a.tokens src)) = a.plain (a.tokens src) := by
      rw [← hplain, eraseMarkers_eraseMarkers]
    refine eraseMarkers_eq_self.mp hself u (List.mem_flatMap.mpr ⟨tok, List.mem_filter.mpr ⟨htok, ?_⟩, hu⟩)
    simpa using hadd

end Loop

/-- **Highlighting only inserts markers exactly when no token of the decoded text has markers of its own.** -/
theorem onlyInsertsMarkers_iff (a : HlArgs) (L : UdmWideWordList) (src : List UInt8) :
    OnlyInsertsMarkers a L src ↔ ∀ tok ∈ a.tokens src, ∀ u ∈ a.text tok, isMarker u = false :=
  ⟨no_marker_of_onlyInsertsMarkers, onlyInsertsMarkers_of_no_marker⟩

/-! ## Character references -/

/-- The value of a digit. -/
def digitVal (c : UInt8) : ℕ :=
  if 0x30 ≤ c ∧ c ≤ 0x39 then c.toNat - 0x30
  else if 0x41 ≤ c ∧ c ≤ 0x5A then c.toNat - 0x41 + 10
  else if 0x61 ≤ c ∧ c ≤ 0x7A then c.toNat - 0x61 + 10
  else 36

/-- `strtol`: blanks, a sign, `0x` in front of hexadecimal digits, and the digits. -/
def strtol (base : ℕ) (s : List UInt8) : ℤ :=
  let s := s.dropWhile fun c => c == 0x20 || (0x09 ≤ c && c ≤ 0x0D)
  let neg := s.head? == some 0x2D
  let s := if s.head? = some 0x2D ∨ s.head? = some 0x2B then s.tail else s
  let s := if base = 16 ∧ (s.take 2 = [0x30, 0x78] ∨ s.take 2 = [0x30, 0x58]) ∧
      ((s.drop 2).head?.any fun c => digitVal c < 16)
    then s.drop 2 else s
  let n := (s.takeWhile fun c => digitVal c < base).foldl (fun n c => n * base + digitVal c) 0
  if neg then -n else n

/-- `UdmSGMLScan`: the length of a character reference within ten bytes, and the character. Seven digits fit in an
`int`. -/
def udmSGMLScan (sgmlToUni : List UInt8 → ℤ) (str : List UInt8) : ℕ × ℤ :=
  match ((str.take 10).drop 2).findIdx? (· == 0x3B) with
  | none => (1, 0x26)
  | some p =>
    let wc :=
      if str.drop 1 |>.head? |>.any (· == 0x23) then
        if str.drop 2 |>.head? |>.any fun c => c == 0x78 || c == 0x58 then strtol 16 (str.drop 3) else strtol 10 (str.drop 2)
      else sgmlToUni (str.drop 1)
    if wc ≠ 0 then (p + 3, wc) else (1, 0x26)

/-- `udm_mb_wc_latin1`. -/
def udmMbWcLatin1 (sgmlToUni : List UInt8 → ℤ) (istate : ℕ) : List UInt8 → MbWc
  | [] => .toofew
  | c :: s =>
    if c = 0x26 then .char (udmSGMLScan sgmlToUni (c :: s)).1 istate (udmSGMLScan sgmlToUni (c :: s)).2
    else .char 1 istate c.toNat

/-- `udm_wc_mb_latin1`. -/
def udmWcMbLatin1 (wc : ℤ) (_room : ℕ) : WcMb :=
  if 0xFF < wc then .iluni
  else if isSpecial (wc % 256).toNat.toUInt8 then .iluni
  else .bytes [(wc % 256).toNat.toUInt8]

/-- ISO-8859-1. -/
def latin1 (sgmlToUni : List UInt8 → ℤ) : AsciiCharset where
  mbWc := udmMbWcLatin1 sgmlToUni
  wcMb := udmWcMbLatin1
  ascii c hc hs room _ := by
    have hlt : c.toNat < 0x80 := UInt8.lt_iff_toNat_lt.mp hc
    have hself : ((c.toNat : ℤ) % 256).toNat.toUInt8 = c := by
      rw [Int.emod_eq_of_lt (by omega) (by omega), Int.toNat_natCast]
      exact UInt8.ofNat_toNat
    rw [udmWcMbLatin1, if_neg (by omega), hself, hs, if_neg Bool.false_ne_true]

/-- A text in ISO-8859-1, without words to compare. -/
def latin1Args : HlArgs where
  unidata := ⟨fun _ => .separ, rfl, fun _ s => s, fun _ _ _ => false, fun _ _ _ => false⟩
  ec := ⟨(latin1 fun _ => 0).toUdmCharset, (latin1 fun _ => 0).toUdmCharset, .charset (latin1 fun _ => 0)⟩
  dstmaxlen := 100
  hilightStopwords := true
  segmenter := none

/-- The text `&#2;` has no marker, but what it is decoded to is one. -/
theorem not_forall_onlyInsertsMarkers :
    ¬ ∀ a L src, (∀ c ∈ src, c ≠ 2 ∧ c ≠ 3) → OnlyInsertsMarkers a L src := by
  intro hall
  have h := hall latin1Args ⟨[], .full, false⟩ [0x26, 0x23, 0x32, 0x3B] (by simp)
  have hmarker : (2 : ℤ) ∈ udmHlConvertExtWithConv latin1Args none [0x26, 0x23, 0x32, 0x3B] := by decide +kernel
  rw [← h.1] at hmarker
  exact absurd (List.mem_filter.mp hmarker).2 (by decide)

end MnoGoSearch.Highlight
