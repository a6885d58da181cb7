import MnoGoSearch.Lib.Runs
import Mathlib

/-!
# The "all words" test

How `score.c` decides in the mode `UDM_MODE_ALL` whether a document holds all words of the
query. The items of a query (`UDM_WIDEWORD`) are its words and their forms and synonyms;
`order` is the position of the word in the query, and a synonym of several words covers
`order_extra_width` positions from its `order` on. `UdmInitWordMask` makes a table of bit
masks, and a document is skipped unless the masks of its sections together have one bit for
every position.

The table is indexed by the order, and every item overwrites the entry of its order, so that
the last item of an order decides for all of them. `udmGroupByURLInternal2_exact_iff` says
for which queries the test is exact: those in which no item covers more than one position.

Only what decides acceptance is modelled, not the score of an accepted document. A shift
by 32 or more is undefined in C: its value is a parameter.
-/

namespace MnoGoSearch.Query

open Lib.Runs

/-! ### Data -/

/-- `UDM_WORD_ORIGIN_*`. -/
inductive UdmWordOrigin where
  | query
  /-- A form from the ispell dictionary. -/
  | spell
  | synonym
  /-- A synonym that is not expanded further. -/
  | synonymFinal
  /-- A stop word; it is not searched. -/
  | stop
  | suggest
  /-- A form equal under the collation. -/
  | collation
  deriving DecidableEq, Repr

/-- `UDM_WIDEWORD`. -/
structure UdmWideWord where
  /-- The position of the word in the query. -/
  order : ℕ
  /-- The number of query words a multi-word synonym covers; 0 means not a multi-word
  replacement. -/
  orderExtraWidth : ℕ
  /-- Where the item comes from. -/
  origin : UdmWordOrigin
  phrpos : ℕ
  phrlen : ℕ
  deriving DecidableEq, Repr

/-- `UDM_WIDEWORDLIST`. -/
structure UdmWideWordList where
  /-- The number of positions of the query. -/
  nuniq : ℕ
  word : List UdmWideWord
  deriving DecidableEq, Repr

/-- `UDM_SECTION`: the occurrences of one item in one section of a document. -/
structure UdmSection where
  urlId : ℤ
  wordnum : ℕ
  order : ℕ
  /-- The number of occurrences. -/
  ncoords : ℕ
  minpos : ℕ
  maxpos : ℕ
  deriving DecidableEq, Repr

/-- `UDM_MAXWORDPERQUERY`. -/
def maxWordPerQuery : ℕ := 64

/-! ### The masks -/

/-- `1 << n` on 32 bits; `ub` is what a shift by 32 or more yields. -/
def shiftOne (ub : ℕ → BitVec 32) (n : ℕ) : BitVec 32 := if n < 32 then 1#32 <<< n else ub n

/-- The mask of one item. -/
def wordBits (ub : ℕ → BitVec 32) (W : UdmWideWord) : BitVec 32 :=
  (List.range' 1 (W.orderExtraWidth - 1)).foldl (fun m bit => m ||| shiftOne ub (W.order + bit))
    (shiftOne ub W.order)

/-- `UdmInitWordMask`. -/
def udmInitWordMask (ub : ℕ → BitVec 32) (WWL : UdmWideWordList) : ℕ → BitVec 32 :=
  WWL.word.foldl (fun mask W => Function.update mask W.order (wordBits ub W)) (fun _ => 0)

/-- `(1UL << nuniq) - 1`, stored in 32 bits. -/
def expectedAndWordMask (nuniq : ℕ) : BitVec 32 := BitVec.ofNat 32 (2 ^ nuniq - 1)

/-- The masks of a document's sections, or-ed. -/
def docWordMask (mask : ℕ → BitVec 32) (doc : List UdmSection) : BitVec 32 :=
  doc.foldl (fun m S => m ||| mask S.order) 0

/-! ### The loop over the documents -/

/-- `UpdateCount` for the items of all sections of a document. -/
def docCount (WWL : UdmWideWordList) (doc : List UdmSection) : ℕ → UInt8 :=
  doc.foldl (fun count S =>
    match WWL.word[S.wordnum]? with
    | some W => if W.phrlen < maxWordPerQuery then Function.update count W.order 1 else count
    | none => count) (fun _ => 0)

/-- The quick skip of documents without the phrase. -/
def skipMinMaxPos2 (WWL : UdmWideWordList) (doc : List UdmSection) : Bool :=
  WWL.nuniq == 2 && (WWL.word[1]?.elim 0 UdmWideWord.phrpos != 0) &&
    match doc with
    | [S1, S2] => S2.maxpos + 1 < S1.minpos || S1.maxpos + 1 < S2.minpos
    | _ => false

/-- What `UdmGroupByURLLoop2` asks of one document in the mode `UDM_MODE_ALL`. -/
def acceptsAll (ub : ℕ → BitVec 32) (WWL : UdmWideWordList) (doc : List UdmSection) : Bool :=
  docWordMask (udmInitWordMask ub WWL) doc == expectedAndWordMask WWL.nuniq &&
    !skipMinMaxPos2 WWL doc &&
    (if WWL.nuniq > 30 then (List.range WWL.nuniq).all fun z => docCount WWL doc z != 0 else true)

/-- `UdmGroupByURLLoop2`: the documents that get a score, in the order of the sections. -/
def udmGroupByURLLoop2 (ub : ℕ → BitVec 32) (WWL : UdmWideWordList) (sections : List UdmSection) : List ℤ :=
  ((runs UdmSection.urlId sections).filter (acceptsAll ub WWL)).filterMap fun doc => doc.head?.map UdmSection.urlId

/-- `UdmGroupByURLLoop_OneWord_All2`: with one word in the query every document that has
sections gets a score. -/
def udmGroupByURLLoopOneWordAll2 (sections : List UdmSection) : List ℤ :=
  (runs UdmSection.urlId sections).filterMap fun doc => doc.head?.map UdmSection.urlId

/-- `UdmGroupByURLInternal2`. -/
def udmGroupByURLInternal2 (ub : ℕ → BitVec 32) (WWL : UdmWideWordList) (sections : List UdmSection) : List ℤ :=
  if (sections.map UdmSection.ncoords).sum = 0 then []
  else if WWL.nuniq = 1 then udmGroupByURLLoopOneWordAll2 sections
  else udmGroupByURLLoop2 ub WWL sections

/-! ### What the query parser and the word search hand over -/

/-- The item covers position `o`. -/
def UdmWideWord.Covers (W : UdmWideWord) (o : ℕ) : Prop :=
  W.order ≤ o ∧ o < W.order + max 1 W.orderExtraWidth

/-- The item list of a parsed query without phrases: every position has the word it was made
for, no searched item reaches behind the last position, and only synonyms are wide. -/
structure UdmWideWordList.Parsed (WWL : UdmWideWordList) : Prop where
  /-- The parser ignores words from the 64th on. -/
  nuniq_lt : WWL.nuniq < maxWordPerQuery
  /-- The word of each position. -/
  query : ∀ o < WWL.nuniq, ∃ W ∈ WWL.word, W.origin = .query ∧ W.order = o ∧ W.orderExtraWidth = 0
  /-- A searched item covers positions of the query only. -/
  within : ∀ W ∈ WWL.word, W.origin ≠ .stop → W.order + max 1 W.orderExtraWidth ≤ WWL.nuniq
  /-- Stop words are no synonyms. -/
  stop : ∀ W ∈ WWL.word, W.origin = .stop → W.orderExtraWidth = 0
  /-- No item belongs to a phrase. -/
  phrpos : ∀ W ∈ WWL.word, W.phrpos = 0
  /-- The phrase length of a word outside phrases is 1. -/
  phrlen : ∀ W ∈ WWL.word, W.phrlen < maxWordPerQuery

/-- The section list of a query: sorted by document, and each section holds occurrences of a
searched item. -/
structure SectionsOf (WWL : UdmWideWordList) (sections : List UdmSection) : Prop where
  /-- Documents come one after another. -/
  sorted : sections.Pairwise fun S T => S.urlId ≤ T.urlId
  item : ∀ S ∈ sections, ∃ W, WWL.word[S.wordnum]? = some W ∧ W.origin ≠ .stop ∧ S.order = W.order
  /-- A section is not empty. -/
  ncoords : ∀ S ∈ sections, 0 < S.ncoords

/-- Some occurrence in document `url` belongs to an item that covers position `o`. -/
def CoveredIn (WWL : UdmWideWordList) (sections : List UdmSection) (url : ℤ) (o : ℕ) : Prop :=
  ∃ S ∈ sections, S.urlId = url ∧ ∃ W, WWL.word[S.wordnum]? = some W ∧ W.Covers o

/-- The test is exact on a section list: the documents with a score are those in which every
position is covered. -/
def ExactOn (ub : ℕ → BitVec 32) (WWL : UdmWideWordList) (sections : List UdmSection) : Prop :=
  ∀ url ∈ sections.map UdmSection.urlId,
    url ∈ udmGroupByURLInternal2 ub WWL sections ↔ ∀ o < WWL.nuniq, CoveredIn WWL sections url o

/-! ### Bits -/

theorem getLsbD_foldl_or {α : Type} (f : α → BitVec 32) (l : List α) (m : BitVec 32) (i : ℕ) :
    (l.foldl (fun m x => m ||| f x) m).getLsbD i = true ↔
      m.getLsbD i = true ∨ ∃ x ∈ l, (f x).getLsbD i = true := by
  induction l generalizing m with
  | nil => simp
  | cons x l ih => simp [ih, or_assoc]

theorem getLsbD_shiftOne {ub : ℕ → BitVec 32} {n : ℕ} (hn : n < 32) (i : ℕ) :
    (shiftOne ub n).getLsbD i = true ↔ i = n := by
  rw [shiftOne, if_pos hn, ← BitVec.twoPow_eq, BitVec.getLsbD_twoPow]
  simp only [Bool.and_eq_true, decide_eq_true_eq]
  omega

theorem getLsbD_expectedAndWordMask (nuniq i : ℕ) :
    (expectedAndWordMask nuniq).getLsbD i = true ↔ i < 32 ∧ i < nuniq := by
  rw [expectedAndWordMask, BitVec.getLsbD_ofNat, Nat.testBit_two_pow_sub_one]
  simp

variable {W : UdmWideWord} {word : ℕ → ℕ × UdmWideWord} {p q : ℕ × UdmWideWord} {items : List (ℕ × UdmWideWord)}
variable {doc sections : List UdmSection} {ub : ℕ → BitVec 32} {WWL : UdmWideWordList}

theorem getLsbD_wordBits {ub : ℕ → BitVec 32} (hW : W.order + max 1 W.orderExtraWidth ≤ 32) (i : ℕ) :
    (wordBits ub W).getLsbD i = true ↔ W.Covers i := by
  rw [wordBits, getLsbD_foldl_or, getLsbD_shiftOne (by omega), UdmWideWord.Covers]
  constructor
  · rintro (rfl | ⟨bit, hbit, hi⟩)
    · omega
    · rw [List.mem_range'_1] at hbit
      rw [getLsbD_shiftOne (by omega)] at hi
      omega
  · intro hi
    by_cases h : i = W.order
    · exact Or.inl h
    · refine Or.inr ⟨i - W.order, ?_, ?_⟩
      · rw [List.mem_range'_1]
        omega
      · rw [getLsbD_shiftOne (by omega)]
        omega

theorem getLsbD_wordBits_order {ub : ℕ → BitVec 32} (hW : W.order < 32) : (wordBits ub W).getLsbD W.order = true := by
  rw [wordBits, getLsbD_foldl_or]
  exact Or.inl ((getLsbD_shiftOne hW _).mpr rfl)

/-! ### The table -/

/-- The last item of an order. -/
def UdmWideWordList.last (WWL : UdmWideWordList) (o : ℕ) : Option UdmWideWord :=
  (WWL.word.filter fun W => W.order = o).getLast?

theorem UdmWideWordList.last_mem {WWL : UdmWideWordList} {o : ℕ}
    (h : WWL.last o = some W) : W ∈ WWL.word ∧ W.order = o := by
  have hmem := List.mem_filter.mp (List.mem_of_getLast? h)
  exact ⟨hmem.1, by simpa using hmem.2⟩

theorem UdmWideWordList.exists_last {WWL : UdmWideWordList} (hW : W ∈ WWL.word) : ∃ L, WWL.last W.order = some L := by
  have hne : WWL.word.filter (fun V => V.order = W.order) ≠ [] :=
    List.ne_nil_of_mem (List.mem_filter.mpr ⟨hW, by simp⟩)
  exact ⟨_, List.getLast?_eq_some_getLast hne⟩

theorem udmInitWordMask_eq (ub : ℕ → BitVec 32) (WWL : UdmWideWordList) (o : ℕ) :
    udmInitWordMask ub WWL o = (WWL.last o).elim 0 (wordBits ub) := by
  obtain ⟨nuniq, word⟩ := WWL
  simp only [udmInitWordMask, UdmWideWordList.last]
  induction word using List.reverseRecOn with
  | nil => rfl
  | append_singleton word W ih =>
    rw [List.foldl_append, List.foldl_cons, List.foldl_nil, List.filter_append]
    by_cases h : W.order = o
    · subst h
      simp
    · rw [Function.update_of_ne (Ne.symm h), ih]
      simp [h]

theorem UdmWideWordList.Parsed.within_of_lt (hp : WWL.Parsed) (hW : W ∈ WWL.word)
    (ho : W.order < WWL.nuniq) : W.order + max 1 W.orderExtraWidth ≤ WWL.nuniq := by
  by_cases hs : W.origin = .stop
  · have := hp.stop W hW hs
    omega
  · exact hp.within W hW hs

theorem SectionsOf.last (hp : WWL.Parsed) (hs : SectionsOf WWL sections)
    {S : UdmSection} (hS : S ∈ sections) :
    S.order < WWL.nuniq ∧ ∃ L, WWL.last S.order = some L ∧ L.order = S.order ∧
      L.order + max 1 L.orderExtraWidth ≤ WWL.nuniq := by
  obtain ⟨W, hget, hstop, horder⟩ := hs.item S hS
  have hW := List.mem_of_getElem? hget
  have hlt : S.order < WWL.nuniq := by
    have := hp.within W hW hstop
    omega
  obtain ⟨L, hL⟩ := WWL.exists_last hW
  rw [← horder] at hL
  obtain ⟨hmem, hLo⟩ := WWL.last_mem hL
  exact ⟨hlt, L, hL, hLo, hp.within_of_lt hmem (hLo ▸ hlt)⟩

/-! ### What the test computes -/

/-- Up to 32 words: the mask test asks that the last items of the sections' orders cover
every position. -/
theorem docWordMask_eq_iff (hp : WWL.Parsed) (hn : WWL.nuniq ≤ 32)
    (hd : SectionsOf WWL doc) :
    docWordMask (udmInitWordMask ub WWL) doc = expectedAndWordMask WWL.nuniq ↔
      ∀ o < WWL.nuniq, ∃ S ∈ doc, ∃ L, WWL.last S.order = some L ∧ L.Covers o := by
  have hbit : ∀ i, (docWordMask (udmInitWordMask ub WWL) doc).getLsbD i = true ↔
      ∃ S ∈ doc, ∃ L, WWL.last S.order = some L ∧ L.Covers i := by
    intro i
    rw [docWordMask, getLsbD_foldl_or]
    simp only [BitVec.ofNat_eq_ofNat, BitVec.getLsbD_zero, Bool.false_eq_true, false_or]
    refine exists_congr fun S => and_congr_right fun hS => ?_
    obtain ⟨-, L, hL, -, hwithin⟩ := hd.last hp hS
    rw [udmInitWordMask_eq, hL, Option.elim_some, getLsbD_wordBits (by omega)]
    simp
  constructor
  · intro h o ho
    rw [← hbit, h, getLsbD_expectedAndWordMask]
    omega
  · intro h
    refine BitVec.eq_of_getLsbD_eq fun i hi => ?_
    rw [Bool.eq_iff_iff, hbit, getLsbD_expectedAndWordMask]
    constructor
    · rintro ⟨S, hS, L, hL, hcov⟩
      obtain ⟨-, L', hL', -, hwithin⟩ := hd.last hp hS
      obtain rfl := Option.some.inj (hL.symm.trans hL')
      have := hcov.2
      omega
    · exact fun hi' => h i hi'.2

theorem docCount_ne_zero_iff (hp : WWL.Parsed) (hd : SectionsOf WWL doc) (z : ℕ) :
    docCount WWL doc z ≠ 0 ↔ ∃ S ∈ doc, S.order = z := by
  suffices h : ∀ count : ℕ → UInt8, (doc.foldl (fun count S =>
      match WWL.word[S.wordnum]? with
      | some W => if W.phrlen < maxWordPerQuery then Function.update count W.order 1 else count
      | none => count) count) z ≠ 0 ↔ count z ≠ 0 ∨ ∃ S ∈ doc, S.order = z by
    rw [docCount, h]
    simp
  have hitem := hd.item
  clear hd
  induction doc with
  | nil => simp
  | cons S doc ih =>
    intro count
    obtain ⟨W, hget, -, horder⟩ := hitem S (by simp)
    have hlen := hp.phrlen W (List.mem_of_getElem? hget)
    rw [List.foldl_cons, ih fun T hT => hitem T (List.mem_cons_of_mem _ hT)]
    simp only [hget, hlen, if_true, List.mem_cons, exists_eq_or_imp, horder]
    by_cases hz : W.order = z
    · subst hz
      simp
    · rw [Function.update_of_ne (Ne.symm hz)]
      simp [hz]

theorem acceptsAll_iff (hp : WWL.Parsed) (doc : List UdmSection) :
    acceptsAll ub WWL doc = true ↔
      docWordMask (udmInitWordMask ub WWL) doc = expectedAndWordMask WWL.nuniq ∧
        (30 < WWL.nuniq → ∀ z < WWL.nuniq, docCount WWL doc z ≠ 0) := by
  have hskip : skipMinMaxPos2 WWL doc = false := by
    have hphr : WWL.word[1]?.elim 0 UdmWideWord.phrpos = 0 := by
      cases hget : WWL.word[1]? with
      | none => rfl
      | some W => exact hp.phrpos W (List.mem_of_getElem? hget)
    simp [skipMinMaxPos2, hphr]
  rw [acceptsAll, hskip]
  by_cases h30 : 30 < WWL.nuniq <;> simp [h30]

theorem acceptsAll_iff_of_gt (hp : WWL.Parsed) (hn : 30 < WWL.nuniq) (hd : SectionsOf WWL doc) :
    acceptsAll ub WWL doc = true ↔ ∀ o < WWL.nuniq, ∃ S ∈ doc, S.order = o := by
  rw [acceptsAll_iff hp]
  simp only [docCount_ne_zero_iff hp hd, hn, true_implies, and_iff_right_iff_imp]
  intro hall
  rcases Nat.lt_or_ge 32 WWL.nuniq with h32 | h32
  · -- all 32 bits are asked for, and each one is some section's own
    refine BitVec.eq_of_getLsbD_eq fun i hi => ?_
    rw [Bool.eq_iff_iff, getLsbD_expectedAndWordMask, docWordMask, getLsbD_foldl_or]
    obtain ⟨S, hS, rfl⟩ := hall i (by omega)
    obtain ⟨-, L, hL, hLo, -⟩ := hd.last hp hS
    have hbit : (udmInitWordMask ub WWL S.order).getLsbD S.order = true := by
      rw [udmInitWordMask_eq, hL, Option.elim_some, ← hLo]
      exact getLsbD_wordBits_order (by omega)
    exact ⟨fun _ => ⟨hi, by omega⟩, fun _ => Or.inr ⟨S, hS, hbit⟩⟩
  · rw [docWordMask_eq_iff hp h32 hd]
    intro o ho
    obtain ⟨S, hS, hSo⟩ := hall o ho
    obtain ⟨-, L, hL, hLo, -⟩ := hd.last hp hS
    exact ⟨S, hS, L, hL, by rw [UdmWideWord.Covers]; omega⟩

theorem acceptsAll_iff_of_le (hp : WWL.Parsed) (hn : WWL.nuniq ≤ 30)
    (hd : SectionsOf WWL doc) :
    acceptsAll ub WWL doc = true ↔
      ∀ o < WWL.nuniq, ∃ S ∈ doc, ∃ L, WWL.last S.order = some L ∧ L.Covers o := by
  rw [acceptsAll_iff hp, docWordMask_eq_iff hp (by omega) hd]
  simp [Nat.not_lt.mpr hn]

theorem SectionsOf.filter (hs : SectionsOf WWL sections) (url : ℤ) :
    SectionsOf WWL (sections.filter fun S => S.urlId = url) where
  sorted := hs.sorted.filter _
  item S hS := hs.item S (List.mem_filter.mp hS).1
  ncoords S hS := hs.ncoords S (List.mem_filter.mp hS).1

theorem mem_udmGroupByURLLoop2 (hs : SectionsOf WWL sections) (url : ℤ) :
    url ∈ udmGroupByURLLoop2 ub WWL sections ↔
      url ∈ sections.map UdmSection.urlId ∧
        acceptsAll ub WWL (sections.filter fun S => S.urlId = url) = true := by
  have hhead : ∀ S ∈ sections,
      ((sections.filter fun T => T.urlId = S.urlId).head?.map UdmSection.urlId) = some S.urlId := by
    intro S hS
    cases hdoc : sections.filter fun T => T.urlId = S.urlId with
    | nil => exact absurd (List.mem_filter.mpr ⟨hS, by simp⟩) (hdoc ▸ List.not_mem_nil)
    | cons T doc =>
      have hT := List.mem_filter.mp (hdoc ▸ List.mem_cons_self : T ∈ sections.filter fun T => T.urlId = S.urlId)
      simpa using hT.2
  rw [udmGroupByURLLoop2, List.mem_filterMap]
  simp only [List.mem_filter, mem_runs_iff UdmSection.urlId hs.sorted]
  constructor
  · rintro ⟨_, ⟨⟨S, hS, rfl⟩, hacc⟩, hurl⟩
    rw [hhead S hS] at hurl
    obtain rfl := Option.some.inj hurl
    exact ⟨List.mem_map_of_mem hS, hacc⟩
  · rintro ⟨hmem, hacc⟩
    obtain ⟨S, hS, rfl⟩ := List.mem_map.mp hmem
    exact ⟨_, ⟨⟨S, hS, rfl⟩, hacc⟩, hhead S hS⟩

theorem mem_udmGroupByURLInternal2 (hs : SectionsOf WWL sections) {url : ℤ}
    (hurl : url ∈ sections.map UdmSection.urlId) :
    url ∈ udmGroupByURLInternal2 ub WWL sections ↔
      WWL.nuniq = 1 ∨ acceptsAll ub WWL (sections.filter fun S => S.urlId = url) = true := by
  obtain ⟨S, hS, rfl⟩ := List.mem_map.mp hurl
  have hsum : (sections.map UdmSection.ncoords).sum ≠ 0 := by
    have hpos : 0 < (sections.map UdmSection.ncoords).sum :=
      List.sum_pos_iff_exists_pos_nat.mpr ⟨S.ncoords, List.mem_map_of_mem hS, hs.ncoords S hS⟩
    omega
  rw [udmGroupByURLInternal2, if_neg hsum]
  split
  · rename_i h1
    simp only [h1, true_or, iff_true, udmGroupByURLLoopOneWordAll2, List.mem_filterMap]
    have hself : S ∈ sections.filter fun T => T.urlId = S.urlId := List.mem_filter.mpr ⟨hS, by simp⟩
    refine ⟨_, (mem_runs_iff UdmSection.urlId hs.sorted _).mpr ⟨S, hS, rfl⟩, ?_⟩
    obtain ⟨T, doc, hdoc⟩ := List.exists_cons_of_ne_nil (List.ne_nil_of_mem hself)
    have hT := List.mem_filter.mp (hdoc ▸ List.mem_cons_self : T ∈ sections.filter fun T => T.urlId = S.urlId)
    rw [hdoc]
    simpa using hT.2
  · rename_i h1
    rw [mem_udmGroupByURLLoop2 hs]
    simp [h1, List.mem_map_of_mem hS]

/-! ### Queries without wide items -/

theorem acceptsAll_iff_of_narrow (hp : WWL.Parsed) (hnarrow : ∀ W ∈ WWL.word, W.orderExtraWidth ≤ 1)
    (hd : SectionsOf WWL doc) : acceptsAll ub WWL doc = true ↔ ∀ o < WWL.nuniq, ∃ S ∈ doc, S.order = o := by
  rcases Nat.lt_or_ge 30 WWL.nuniq with hn | hn
  · exact acceptsAll_iff_of_gt hp hn hd
  · rw [acceptsAll_iff_of_le hp hn hd]
    refine forall₂_congr fun o _ => exists_congr fun S => and_congr_right fun hS => ?_
    obtain ⟨-, L, hL, hLo, -⟩ := hd.last hp hS
    have hw := hnarrow L (WWL.last_mem hL).1
    simp only [hL, Option.some.injEq, exists_eq_left', UdmWideWord.Covers]
    omega

theorem exactOn_of_narrow (hp : WWL.Parsed) (hnarrow : ∀ W ∈ WWL.word, W.orderExtraWidth ≤ 1)
    (hs : SectionsOf WWL sections) : ExactOn ub WWL sections := by
  intro url hurl
  have hcov : ∀ o, CoveredIn WWL sections url o ↔ ∃ S ∈ sections.filter fun S => S.urlId = url, S.order = o := by
    intro o
    simp only [CoveredIn, List.mem_filter, decide_eq_true_eq, and_assoc]
    refine exists_congr fun S => and_congr_right fun hS => and_congr_right fun _ => ?_
    obtain ⟨W, hget, -, horder⟩ := hs.item S hS
    have hw := hnarrow W (List.mem_of_getElem? hget)
    simp only [hget, Option.some.injEq, exists_eq_left', UdmWideWord.Covers]
    omega
  rw [mem_udmGroupByURLInternal2 hs hurl, acceptsAll_iff_of_narrow hp hnarrow (hs.filter url)]
  simp only [hcov, or_iff_right_iff_imp]
  -- with one word in the query all sections have order 0
  intro h1 o ho
  obtain ⟨S, hS, hSurl⟩ := List.mem_map.mp hurl
  have hlt := (hs.last hp hS).1
  exact ⟨S, List.mem_filter.mpr ⟨hS, by simpa using hSurl⟩, by omega⟩

/-! ### A wide item -/

instance (W : UdmWideWord) : DecidablePred W.Covers := fun o =>
  inferInstanceAs (Decidable (W.order ≤ o ∧ o < W.order + max 1 W.orderExtraWidth))

/-- A document with one occurrence of each of some items, given with their indices. -/
def docOf (items : List (ℕ × UdmWideWord)) : List UdmSection :=
  items.map fun p => ⟨1, p.1, p.2.order, 1, 1, 1⟩

/-- An index into the item list, with the searched item it finds. -/
def IsItem (WWL : UdmWideWordList) (p : ℕ × UdmWideWord) : Prop :=
  WWL.word[p.1]? = some p.2 ∧ p.2.origin ≠ .stop

theorem sectionsOf_docOf (h : ∀ p ∈ items, IsItem WWL p) :
    SectionsOf WWL (docOf items) where
  sorted := by
    rw [docOf, List.pairwise_map]
    exact List.pairwise_of_forall fun _ _ => le_rfl
  item S hS := by
    obtain ⟨p, hp, rfl⟩ := List.mem_map.mp hS
    exact ⟨p.2, (h p hp).1, (h p hp).2, rfl⟩
  ncoords S hS := by
    obtain ⟨p, -, rfl⟩ := List.mem_map.mp hS
    exact Nat.one_pos

theorem ExactOn.docOf (h1 : WWL.nuniq ≠ 1) (hne : items ≠ [])
    (hitems : ∀ p ∈ items, IsItem WWL p) (h : ExactOn ub WWL (docOf items)) :
    acceptsAll ub WWL (docOf items) = true ↔ ∀ o < WWL.nuniq, ∃ p ∈ items, p.2.Covers o := by
  have hs := sectionsOf_docOf hitems
  have hurl : (1 : ℤ) ∈ (Query.docOf items).map UdmSection.urlId := by
    obtain ⟨p, rest, rfl⟩ := List.exists_cons_of_ne_nil hne
    exact List.mem_cons_self
  have hall : (Query.docOf items).filter (fun S => S.urlId = 1) = Query.docOf items := by
    rw [List.filter_eq_self]
    intro S hS
    obtain ⟨p, -, rfl⟩ := List.mem_map.mp hS
    rfl
  have hiff := h 1 hurl
  rw [mem_udmGroupByURLInternal2 hs hurl, hall] at hiff
  simp only [h1, false_or] at hiff
  rw [hiff]
  refine forall₂_congr fun o _ => ?_
  constructor
  · rintro ⟨S, hS, -, W, hget, hcov⟩
    obtain ⟨p, hp, rfl⟩ := List.mem_map.mp hS
    obtain rfl := Option.some.inj ((hitems p hp).1.symm.trans hget)
    exact ⟨p, hp, hcov⟩
  · rintro ⟨p, hp, hcov⟩
    exact ⟨_, List.mem_map_of_mem hp, rfl, p.2, (hitems p hp).1, hcov⟩

/-- An item, and the words of all positions that `W` does not cover. -/
def patch (WWL : UdmWideWordList) (word : ℕ → ℕ × UdmWideWord) (p : ℕ × UdmWideWord) (W : UdmWideWord) :
    List (ℕ × UdmWideWord) :=
  p :: ((List.range WWL.nuniq).filter fun o => ¬ W.Covers o).map word

theorem mem_patch : q ∈ patch WWL word p W ↔ q = p ∨ ∃ o < WWL.nuniq, ¬ W.Covers o ∧ word o = q := by
  simp [patch, and_assoc]

/-- `word o` is the word the query has at position `o`. -/
def IsWordAt (WWL : UdmWideWordList) (word : ℕ → ℕ × UdmWideWord) : Prop :=
  ∀ o < WWL.nuniq, IsItem WWL (word o) ∧ (word o).2.order = o ∧ (word o).2.orderExtraWidth = 0

theorem UdmWideWordList.Parsed.exists_word (hp : WWL.Parsed) : ∃ word, IsWordAt WWL word := by
  have h : ∀ o, ∃ p : ℕ × UdmWideWord,
      o < WWL.nuniq → IsItem WWL p ∧ p.2.order = o ∧ p.2.orderExtraWidth = 0 := by
    intro o
    by_cases ho : o < WWL.nuniq
    · obtain ⟨W, hW, horigin, horder, hwidth⟩ := hp.query o ho
      obtain ⟨j, hj⟩ := List.mem_iff_getElem?.mp hW
      exact ⟨(j, W), fun _ => ⟨⟨hj, by simp [horigin]⟩, horder, hwidth⟩⟩
    · exact ⟨(0, ⟨0, 0, .query, 0, 0⟩), fun h => absurd h ho⟩
  choose word hword using h
  exact ⟨word, hword⟩

theorem isItem_patch (hword : IsWordAt WWL word)
    (hp : IsItem WWL p) (W : UdmWideWord) : ∀ q ∈ patch WWL word p W, IsItem WWL q := by
  intro q hq
  rcases mem_patch.mp hq with rfl | ⟨o, ho, -, rfl⟩
  · exact hp
  · exact (hword o ho).1

theorem patch_covers (hword : IsWordAt WWL word) (p : ℕ × UdmWideWord) :
    ∀ o < WWL.nuniq, ∃ q ∈ patch WWL word p p.2, q.2.Covers o := by
  intro o ho
  by_cases hcov : p.2.Covers o
  · exact ⟨p, mem_patch.mpr (Or.inl rfl), hcov⟩
  · refine ⟨word o, mem_patch.mpr (Or.inr ⟨o, ho, hcov, rfl⟩), ?_⟩
    have := (hword o ho).2
    rw [UdmWideWord.Covers]
    omega

theorem patch_order_ne (hword : IsWordAt WWL word) (hpW : p.2.order = W.order) (hwide : 1 < W.orderExtraWidth)
    (hq : q ∈ patch WWL word p W) : q.2.order ≠ W.order + 1 := by
  rcases mem_patch.mp hq with rfl | ⟨o, ho, hcov, rfl⟩
  · omega
  · intro h
    rw [(hword o ho).2.1] at h
    exact hcov (by rw [UdmWideWord.Covers]; omega)

/-- The last item of an order is wide: the word of this order alone is taken for all the
positions of the wide one. -/
theorem exists_not_exactOn_of_last (hp : WWL.Parsed) (hn : WWL.nuniq ≤ 30) {L : UdmWideWord}
    (hL : WWL.last L.order = some L) (hwide : 1 < L.orderExtraWidth) :
    ∃ sections, SectionsOf WWL sections ∧ ¬ ExactOn ub WWL sections := by
  have hLmem := (WWL.last_mem hL).1
  have hstop : L.origin ≠ .stop := fun h => by
    have := hp.stop L hLmem h
    omega
  have hwithin := hp.within L hLmem hstop
  obtain ⟨word, hword⟩ := hp.exists_word
  have hitem := hword L.order (by omega)
  have hitems := isItem_patch hword hitem.1 L
  have hsections := sectionsOf_docOf hitems
  refine ⟨docOf (patch WWL word (word L.order) L), hsections, fun hexact => ?_⟩
  have hiff := hexact.docOf (by omega) (List.cons_ne_nil _ _) hitems
  have hacc : acceptsAll ub WWL (docOf (patch WWL word (word L.order) L)) = true := by
    rw [acceptsAll_iff_of_le hp hn hsections]
    intro o ho
    by_cases hcov : L.Covers o
    · refine ⟨_, List.mem_map_of_mem (mem_patch.mpr (Or.inl rfl)), L, ?_, hcov⟩
      simpa [hitem.2.1] using hL
    · have hmem := List.mem_map_of_mem (f := fun p : ℕ × UdmWideWord => (⟨1, p.1, p.2.order, 1, 1, 1⟩ : UdmSection))
        (mem_patch.mpr (Or.inr ⟨o, ho, hcov, rfl⟩) : word o ∈ patch WWL word (word L.order) L)
      obtain ⟨-, L', hL', hLo, -⟩ := hsections.last hp hmem
      have := (hword o ho).2.1
      exact ⟨_, hmem, L', hL', by rw [UdmWideWord.Covers]; simp only at hLo; omega⟩
  -- yet nothing in this document covers the second position of the wide item
  obtain ⟨q, hq, hcov⟩ := hiff.mp hacc (L.order + 1) (by omega)
  have hne := patch_order_ne hword hitem.2.1 hwide hq
  have hzero : q.2.orderExtraWidth = 0 := by
    rcases mem_patch.mp hq with rfl | ⟨o, ho, -, rfl⟩
    · exact hitem.2.2
    · exact (hword o ho).2.2
  rw [UdmWideWord.Covers] at hcov
  omega

theorem exists_not_exactOn (hp : WWL.Parsed) {W : UdmWideWord} (hW : W ∈ WWL.word)
    (hwide : 1 < W.orderExtraWidth) : ∃ sections, SectionsOf WWL sections ∧ ¬ ExactOn ub WWL sections := by
  by_cases hlast : WWL.nuniq ≤ 30 ∧ ∃ L, WWL.last L.order = some L ∧ 1 < L.orderExtraWidth
  · obtain ⟨hn, L, hL, hLwide⟩ := hlast
    exact exists_not_exactOn_of_last hp hn hL hLwide
  · -- the mask of every order is its own bit, so the wide item counts for its order only
    have hstop : W.origin ≠ .stop := fun h => by
      have := hp.stop W hW h
      omega
    have hwithin := hp.within W hW hstop
    obtain ⟨j, hj⟩ := List.mem_iff_getElem?.mp hW
    obtain ⟨word, hword⟩ := hp.exists_word
    have hitems := isItem_patch hword (p := (j, W)) ⟨hj, hstop⟩ W
    have hsections := sectionsOf_docOf hitems
    refine ⟨docOf (patch WWL word (j, W) W), hsections, fun hexact => ?_⟩
    have hacc := (hexact.docOf (by omega) (List.cons_ne_nil _ _) hitems).mpr (patch_covers hword (j, W))
    have horder : ∃ S ∈ docOf (patch WWL word (j, W) W), S.order = W.order + 1 := by
      rcases Nat.lt_or_ge 30 WWL.nuniq with hn | hn
      · exact (acceptsAll_iff_of_gt hp hn hsections).mp hacc _ (by omega)
      · obtain ⟨S, hS, L, hL, hcov⟩ := (acceptsAll_iff_of_le hp hn hsections).mp hacc (W.order + 1) (by omega)
        have hLo := (WWL.last_mem hL).2
        have hnarrow : L.orderExtraWidth ≤ 1 := by
          by_contra h
          exact hlast ⟨hn, L, hLo ▸ hL, by omega⟩
        rw [UdmWideWord.Covers] at hcov
        exact ⟨S, hS, by omega⟩
    obtain ⟨S, hS, hSo⟩ := horder
    obtain ⟨q, hq, rfl⟩ := List.mem_map.mp hS
    exact patch_order_ne hword (p := (j, W)) rfl hwide hq hSo

/-- **When the "all words" test is exact**: for a parsed query it accepts, on every section
list, just the documents in which each position of the query is covered, if and only if no
item of the query covers more than one position. -/
theorem udmGroupByURLInternal2_exact_iff (ub : ℕ → BitVec 32) (WWL : UdmWideWordList) (hp : WWL.Parsed) :
    (∀ sections, SectionsOf WWL sections → ExactOn ub WWL sections) ↔
      ∀ W ∈ WWL.word, W.orderExtraWidth ≤ 1 := by
  constructor
  · intro h W hW
    by_contra hwide
    obtain ⟨sections, hs, hnot⟩ := @exists_not_exactOn ub WWL hp W hW (by omega)
    exact hnot (h sections hs)
  · exact fun hnarrow sections hs => exactOn_of_narrow hp hnarrow hs

/-- The query `aaaa bbbb` with the synonym `cccc` of both words. -/
def aaaaBbbb : UdmWideWordList :=
  ⟨2, [⟨0, 0, .query, 0, 1⟩, ⟨1, 0, .query, 0, 1⟩, ⟨0, 2, .synonym, 0, 1⟩]⟩

theorem parsed_aaaaBbbb : aaaaBbbb.Parsed where
  nuniq_lt := by decide
  query := by decide
  within := by decide
  stop := by decide
  phrpos := by decide
  phrlen := by decide

theorem udmGroupByURLInternal2_exact_aaaaBbbb :
    (∀ sections, SectionsOf aaaaBbbb sections → ExactOn (fun _ => 0) aaaaBbbb sections) ↔
      ∀ W ∈ aaaaBbbb.word, W.orderExtraWidth ≤ 1 :=
  udmGroupByURLInternal2_exact_iff (fun _ => 0) aaaaBbbb parsed_aaaaBbbb

/-- A document with `aaaa` alone is accepted for `aaaa bbbb`. -/
theorem udmGroupByURLInternal2_aaaa :
    ¬ ∀ (ub : ℕ → BitVec 32) (WWL : UdmWideWordList), WWL.Parsed →
      ∀ sections, SectionsOf WWL sections → ExactOn ub WWL sections := by
  intro h
  have hs : SectionsOf aaaaBbbb [⟨1, 0, 0, 1, 1, 1⟩] := ⟨by simp, by simp [aaaaBbbb], by simp⟩
  have hacc : (1 : ℤ) ∈ udmGroupByURLInternal2 (fun _ => 0) aaaaBbbb [⟨1, 0, 0, 1, 1, 1⟩] := by decide
  obtain ⟨S, hS, -, W, hget, hcov⟩ := (h (fun _ => 0) aaaaBbbb parsed_aaaaBbbb _ hs 1 (by simp)).mp hacc 1 (by decide)
  rw [List.mem_singleton] at hS
  subst hS
  obtain rfl : (⟨0, 0, .query, 0, 1⟩ : UdmWideWord) = W := by simpa [aaaaBbbb] using hget
  exact absurd hcov (by decide)

end MnoGoSearch.Query
