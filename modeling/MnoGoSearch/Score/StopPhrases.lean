import MnoGoSearch.Score.AllWords
import Mathlib.Tactic.IntervalCases

/-!
# Phrases without a word

`CheckPhrase` (`score.c`) assumes that a phrase without a word is in every document, but then it sets no
flag, as there is no word to set it for. `UdmCalcBoolItems` (`boolean.c`) reads a flag for the phrase all
the same: that of the word that follows the phrase in the query, or behind the last word.
`stopPhrasesHold_iff` says for which queries this does not matter.
-/

namespace MnoGoSearch.Score

open Query Lib.Runs Lib.Sorting

/-- `UdmCalcBoolItems` is called for the document. A query of one word is not evaluated at all. -/
structure Evaluated (env : ScoreSetup) (param : ScoreParam) (doc : List ScoreSection) : Prop where
  /-- The search has found it. -/
  document : DocumentOf param.wwList doc
  /-- `UdmGroupByURLInternal2` calls `UdmGroupByURLLoop2`. -/
  nuniq : param.wwList.nuniq ≠ 1
  mode : param.searchMode = .bool
  /-- The document is not skipped. -/
  kept : quickSkip env param doc = false

/-- The evaluation takes the phrase for true. -/
def PhraseTrue (count : ℕ → UInt8) (p : Phrase) : Prop :=
  ∀ items s, calcItems count false (p.toItems ++ items) s = calcItems count false items ⟨s.cstack, 1 :: s.astack⟩

/-- In every document the phrases without a word are true, and the count array is read at the positions of words
only. -/
structure StopPhrasesHold (env : ScoreSetup) (param : ScoreParam) : Prop where
  holds : ∀ doc, Evaluated env param doc → ∀ p ∈ phrases none param.itemList, p.StopOnly →
    PhraseTrue (docCounts env param doc) p
  /-- The positions are below the number of words. -/
  reads : ∀ doc, Evaluated env param doc → ∀ z ∈ boolReads false param.itemList, z < param.wwList.nuniq

/-- The other words of a query. -/
def others (nuniq b : ℕ) : List ℕ := (List.range nuniq).filter fun o => o ≠ b

/-- The word `b` counts in every document that is not skipped: the query is a plain conjunction, no form of the word is
in a phrase, and the other words do not pass the test of all words. -/
structure AlwaysCounts (env : ScoreSetup) (param : ScoreParam) (b : ℕ) : Prop where
  /-- It is a word of the query. -/
  lt : b < param.wwList.nuniq
  /-- The query is a plain conjunction. -/
  conjunction : udmOptimizeUsingAND param.itemList param.searchMode = true
  alone : ∀ W ∈ param.wwList.word, W.origin ≠ .stop → W.order = b → W.phrlen < 2
  /-- The test of all words asks for it. -/
  needed : ¬FullMask env param.wwList (others param.wwList.nuniq b)

theorem mem_others {nuniq b o : ℕ} : o ∈ others nuniq b ↔ o < nuniq ∧ o ≠ b := by
  simp [others]

theorem phraseTrue_iff (count : ℕ → UInt8) {p : Phrase} (hp : ∀ item ∈ p.items, item.cmd ≠ .phrase) :
    PhraseTrue count p ↔ count p.index ≠ 0 := by
  constructor
  · intro h hzero
    have hempty := h [] ⟨[], []⟩
    rw [calcItems_toItems count hp, hzero] at hempty
    exact absurd hempty (show ¬some (⟨[], [0]⟩ : UdmBoolStack) = some ⟨[], [1]⟩ by decide)
  · intro h items s
    rw [calcItems_toItems count hp, bne_iff_ne.mpr h]
    rfl

/-! ### Documents with a word a section -/

/-- A document with the items `ps`, each in a section of its own. -/
def docOfWords (ps : List (ℕ × UdmWideWord)) : List ScoreSection := docOfRuns (ps.map fun p => [p])

theorem mem_singletons {ps r : List (ℕ × UdmWideWord)} (hr : r ∈ ps.map fun p => [p]) : ∃ p ∈ ps, r = [p] := by
  obtain ⟨p, hp, rfl⟩ := List.mem_map.mp hr
  exact ⟨p, hp, rfl⟩

section

variable {env : ScoreSetup} {param : ScoreParam} {ps : List (ℕ × UdmWideWord)}
  (hitem : ∀ p ∈ ps, IsItem param.wwList p)

theorem docOrders_docOfWords (ps : List (ℕ × UdmWideWord)) : docOrders (docOfWords ps) = ps.map fun p => p.2.order := by
  rw [docOfWords, docOrders_docOfRuns, ← List.flatMap_def, List.flatMap_singleton']

include hitem

theorem isItem_singletons : ∀ r ∈ ps.map fun p => [p], ∀ p ∈ r, IsItem param.wwList p := by
  intro r hr p hp
  obtain ⟨q, hq, rfl⟩ := mem_singletons hr
  exact List.mem_singleton.mp hp ▸ hitem q hq

theorem docCounts_docOfWords (hmode : param.searchMode = .bool) (hs : Segmented param.itemList) (z : ℕ) :
    docCounts env param (docOfWords ps) z ≠ 0 ↔ ∃ p ∈ ps, p.2.phrlen < 2 ∧ p.2.order = z := by
  have hne : ∀ r ∈ ps.map fun p => [p], r ≠ [] := by
    intro r hr
    obtain ⟨p, -, rfl⟩ := mem_singletons hr
    exact List.cons_ne_nil _ _
  rw [docOfWords, docCounts_docOfRuns hmode hs hne (isItem_singletons hitem)]
  have hmarks : ¬∃ g ∈ placeRuns 1 (ps.map fun p => [p]), RunMarks env param.itemList g z := by
    rintro ⟨g, hg, hlt, -⟩
    obtain ⟨n, r, hr, -, -, rfl⟩ := mem_placeRuns hg
    obtain ⟨p, -, rfl⟩ := mem_singletons hr
    exact absurd hlt (Nat.not_lt_zero 1)
  simp [hmarks]

theorem evaluated_docOfWords (hne : ps ≠ []) (hlen : ps.length < 255) (h1 : param.wwList.nuniq ≠ 1)
    (hmode : param.searchMode = .bool)
    (hpass : udmOptimizeUsingAND param.itemList param.searchMode = true →
      FullMask env param.wwList (ps.map fun p => p.2.order) ∧ ps.length ≠ 2) :
    Evaluated env param (docOfWords ps) := by
  have hrs : ∀ r ∈ ps.map fun p => [p], r ≠ [] := by
    intro r hr
    obtain ⟨p, -, rfl⟩ := mem_singletons hr
    exact List.cons_ne_nil _ _
  refine ⟨documentOf_docOfRuns (by simpa using hne) (by simpa using hlen) hrs (isItem_singletons hitem), h1, hmode, ?_⟩
  rw [Bool.eq_false_iff, Ne, quickSkip_eq, docOrders_docOfWords]
  rintro ⟨hand, hskip⟩
  obtain ⟨hfull, htwo⟩ := hpass hand
  have hskip := hskip.resolve_left (not_not_intro hfull)
  obtain ⟨-, -, S1, S2, hdoc, -⟩ := (skipMinMaxPos2_iff _ _).mp hskip
  have hlen := congrArg List.length (docOrders_docOfWords ps)
  have hlen2 := congrArg List.length hdoc
  rw [docOrders, List.length_map, List.length_map] at hlen
  rw [List.length_map] at hlen2
  exact htwo (hlen.symm.trans hlen2)

end

/-! ### The answer -/

section

variable {env : ScoreSetup} {mode : UdmSearchMode} {tokens : List QueryToken} {WWL : UdmWideWordList}
variable {query : QueryState} {param : ScoreParam} {p : Phrase}

theorem StopPhrasesHold.counts (h : StopPhrasesHold env param) (hs : Segmented param.itemList)
    (hp : p ∈ phrases none param.itemList) (hstop : p.StopOnly) (h1 : param.wwList.nuniq ≠ 1)
    (hmode : param.searchMode = .bool) {ps : List (ℕ × UdmWideWord)} (hitem : ∀ q ∈ ps, IsItem param.wwList q)
    (hne : ps ≠ []) (hlen : ps.length < 255)
    (hpass : udmOptimizeUsingAND param.itemList param.searchMode = true →
      FullMask env param.wwList (ps.map fun q => q.2.order) ∧ ps.length ≠ 2) :
    p.index < param.wwList.nuniq ∧ ∃ q ∈ ps, q.2.phrlen < 2 ∧ q.2.order = p.index := by
  have heval : Evaluated env param (docOfWords ps) := evaluated_docOfWords hitem hne hlen h1 hmode hpass
  obtain ⟨hquote, hindex⟩ := hs.mem_phrases hp
  refine ⟨h.reads _ heval _ hindex, ?_⟩
  have hcounts : docCounts env param (docOfWords ps) p.index ≠ 0 :=
    (phraseTrue_iff _ fun item hi => (hquote item hi).2).mp (h.holds _ heval p hp hstop)
  exact (docCounts_docOfWords hitem hmode hs p.index).mp hcounts

theorem StopPhrasesHold.counts_patch (hw : WordsOf query param.wwList)
    (hmany : param.wwList.nuniq < maxWordPerQuery) (h : StopPhrasesHold env param) (hs : Segmented param.itemList)
    (h1 : 1 < param.wwList.nuniq) (hmode : param.searchMode = .bool)
    (hp : p ∈ phrases none param.itemList) (hstop : p.StopOnly) {q : ℕ × UdmWideWord} (hq : IsItem param.wwList q)
    {other : ℕ} (hother : other ∈ others param.wwList.nuniq p.index)
    (hfull : FullMask env param.wwList (q.2.order :: others param.wwList.nuniq p.index)) :
    p.index < param.wwList.nuniq ∧ q.2.phrlen < 2 ∧ q.2.order = p.index := by
  obtain ⟨word, hword⟩ := hw.exists_word
  have hword' : ∀ o ∈ others param.wwList.nuniq p.index, IsItem param.wwList (word o) ∧ (word o).2.order = o :=
    fun o ho => hword o (mem_others.mp ho).1
  have horders : ((others param.wwList.nuniq p.index).map word).map (fun r => r.2.order) =
      others param.wwList.nuniq p.index := by
    rw [List.map_map]
    exact (List.map_congr_left fun o ho => (hword' o ho).2).trans (List.map_id _)
  have hle : (others param.wwList.nuniq p.index).length ≤ param.wwList.nuniq :=
    (List.length_filter_le _ _).trans List.length_range.le
  have hpos := List.length_pos_of_mem hother
  have hitem : ∀ r ∈ q :: q :: (others param.wwList.nuniq p.index).map word, IsItem param.wwList r := by
    refine List.forall_mem_cons.mpr ⟨hq, List.forall_mem_cons.mpr ⟨hq, fun r hr => ?_⟩⟩
    obtain ⟨o, ho, rfl⟩ := List.mem_map.mp hr
    exact (hword' o ho).1
  have hlen : (q :: q :: (others param.wwList.nuniq p.index).map word).length < 255 := by
    rw [maxWordPerQuery] at hmany
    simp only [List.length_cons, List.length_map]
    omega
  obtain ⟨hlt, r, hr, hlight, horder⟩ := h.counts hs hp hstop h1.ne' hmode hitem (List.cons_ne_nil _ _) hlen fun _ => by
    rw [List.map_cons, List.map_cons, horders]
    refine ⟨hw.fullMask_mono ?_ (fun o ho => List.mem_cons_of_mem _ ho) hfull, ?_⟩
    · exact List.forall_mem_cons.mpr ⟨hw.order_lt hq, List.forall_mem_cons.mpr ⟨hw.order_lt hq,
        fun o ho => (mem_others.mp ho).1⟩⟩
    · simp only [List.length_cons, List.length_map]
      omega
  refine ⟨hlt, ?_⟩
  rcases List.mem_cons.mp hr with rfl | hr
  · exact ⟨hlight, horder⟩
  · rcases List.mem_cons.mp hr with rfl | hr
    · exact ⟨hlight, horder⟩
    · obtain ⟨o, ho, rfl⟩ := List.mem_map.mp hr
      rw [(hword' o ho).2] at horder
      exact absurd horder (mem_others.mp ho).2

/-- Documents of all words, of all but one, and of one, show what the word behind a phrase must be. -/
theorem StopPhrasesHold.alwaysCounts (hw : WordsOf query param.wwList)
    (hmany : param.wwList.nuniq < maxWordPerQuery) (h : StopPhrasesHold env param) (hs : Segmented param.itemList)
    (h1 : 1 < param.wwList.nuniq) (hmode : param.searchMode = .bool)
    (hp : p ∈ phrases none param.itemList) (hstop : p.StopOnly) : AlwaysCounts env param p.index := by
  obtain ⟨word, hword⟩ := hw.exists_word
  obtain ⟨other, hother⟩ : ∃ o, o ∈ others param.wwList.nuniq p.index := by
    by_cases hb0 : p.index = 0
    · exact ⟨1, mem_others.mpr ⟨h1, by omega⟩⟩
    · exact ⟨0, mem_others.mpr ⟨by omega, Ne.symm hb0⟩⟩
  obtain ⟨hlt, hne⟩ := mem_others.mp hother
  obtain ⟨hitem, horder⟩ := hword other hlt
  have hpatch := fun q hq => h.counts_patch (q := q) hw hmany hs h1 hmode hp hstop hq hother
  -- a document with one other word is skipped, so the query is a plain conjunction
  have hand : udmOptimizeUsingAND param.itemList param.searchMode = true := by
    by_contra hno
    have hone : ∀ q ∈ [word other], IsItem param.wwList q := by simpa using hitem
    obtain ⟨-, q, hq, -, hqb⟩ := h.counts hs hp hstop h1.ne' hmode hone
      (List.cons_ne_nil _ _) (by simp) fun hand => absurd hand hno
    rw [List.mem_singleton.mp hq, horder] at hqb
    exact hne hqb
  have hneeded : ¬FullMask env param.wwList (others param.wwList.nuniq p.index) := by
    intro hfull
    refine hne (horder ▸ (hpatch (word other) hitem ?_).2.2)
    rw [horder]
    exact hw.fullMask_mono (List.forall_mem_cons.mpr ⟨hlt, fun o ho => (mem_others.mp ho).1⟩)
      (fun o ho => List.mem_cons_of_mem _ ho) hfull
  have hindex : p.index < param.wwList.nuniq := by
    by_contra hge
    refine hneeded (hw.fullMask_all (fun o ho => (mem_others.mp ho).1) fun o ho => mem_others.mpr ⟨ho, ?_⟩)
    rintro rfl
    exact hge ho
  refine ⟨hindex, hand, fun W hW hWstop hWb => ?_, hneeded⟩
  obtain ⟨i, hi⟩ := List.mem_iff_getElem?.mp hW
  refine (hpatch (i, W) ⟨hi, hWstop⟩ (hw.fullMask_all ?_ fun o ho => ?_)).2.1
  · exact List.forall_mem_cons.mpr ⟨hWb ▸ hindex, fun o ho => (mem_others.mp ho).1⟩
  · by_cases hob : o = p.index
    · exact List.mem_cons.mpr (.inl (hob.trans hWb.symm))
    · exact List.mem_cons_of_mem _ (mem_others.mpr ⟨ho, hob⟩)

theorem AlwaysCounts.docCounts_ne_zero (hw : WordsOf query param.wwList)
    (hs : Segmented param.itemList) {b : ℕ} (h : AlwaysCounts env param b) {doc : List ScoreSection}
    (hdoc : Evaluated env param doc) : docCounts env param doc b ≠ 0 := by
  have hfull : FullMask env param.wwList (docOrders doc) := by
    have hkept := hdoc.kept
    rw [Bool.eq_false_iff, Ne, quickSkip_eq] at hkept
    by_contra hno
    exact hkept ⟨h.conjunction, .inl hno⟩
  have hmem : b ∈ docOrders doc := by
    by_contra hno
    refine h.needed (hw.fullMask_mono (fun o ho => (mem_others.mp ho).1) (fun o ho => ?_) hfull)
    exact mem_others.mpr ⟨hw.docOrders_lt hdoc.document o ho, fun hob => hno (hob ▸ ho)⟩
  obtain ⟨S, hS, hSb⟩ := List.mem_map.mp hmem
  obtain ⟨W, hget, hstop, horder⟩ := hdoc.document.item S hS
  have hWb : W.order = b := horder.symm.trans hSb
  rw [docCounts_ne_zero_iff hdoc.mode hs]
  exact .inl ⟨S, hS, W, hget, h.alone W (List.mem_of_getElem? hget) hstop hWb, hWb⟩

/-- **When phrases without a word are true in every document**, and the flags are read at words only: no such phrase is
evaluated, or the flag that it reads is that of a word that always counts. -/
theorem stopPhrasesHold_iff (env : ScoreSetup) (mode : UdmSearchMode) (tokens : List QueryToken)
    {WWL : UdmWideWordList} (hw : WordsOf (parseQuery tokens) WWL) :
    StopPhrasesHold env (scoreParam mode tokens WWL) ↔
      (scoreParam mode tokens WWL).searchMode ≠ .bool ∨ WWL.nuniq ≤ 1 ∨
        ∀ p ∈ phrases none (scoreParam mode tokens WWL).itemList, p.StopOnly →
          AlwaysCounts env (scoreParam mode tokens WWL) p.index := by
  have hitems := itemsOf_scoreParam mode tokens WWL
  constructor
  · intro h
    by_cases hmode : (scoreParam mode tokens WWL).searchMode = .bool
    · rcases Nat.lt_or_ge 1 WWL.nuniq with h1 | h1
      · exact .inr (.inr fun p hp hstop =>
          h.alwaysCounts hw (hw.nuniq ▸ nuniq_parseQuery_lt tokens) hitems.segmented h1 hmode hp hstop)
      · exact .inr (.inl h1)
    · exact .inl hmode
  · rintro (hmode | h1 | hphrases)
    · exact ⟨fun doc hdoc => absurd hdoc.mode hmode, fun doc hdoc => absurd hdoc.mode hmode⟩
    · have hnone : ∀ doc, ¬Evaluated env (scoreParam mode tokens WWL) doc := by
        intro doc hdoc
        obtain ⟨S, rest, rfl⟩ := List.exists_cons_of_ne_nil hdoc.document.ne_nil
        have hlt := hw.docOrders_lt hdoc.document S.order List.mem_cons_self
        have hne : WWL.nuniq ≠ 1 := hdoc.nuniq
        omega
      exact ⟨fun doc hdoc => absurd hdoc (hnone doc), fun doc hdoc => absurd hdoc (hnone doc)⟩
    · refine ⟨fun doc hdoc p hp hstop => ?_, fun doc hdoc z hz => ?_⟩
      · rw [phraseTrue_iff _ fun item hi => ((hitems.segmented.mem_phrases hp).1 item hi).2]
        exact (hphrases p hp hstop).docCounts_ne_zero hw hitems.segmented hdoc
      · rcases lt_of_mem_boolReads hitems.segmented hitems.placed hz with hlt | ⟨p, hp, hstop, rfl⟩
        · have hcount := hitems.count
          rw [← hw.nuniq] at hcount
          change z < WWL.nuniq
          omega
        · exact (hphrases p hp hstop).lt

end

/-- `"the" | dog cat`, where "the" is a stop word. -/
def theDogCat : List QueryToken :=
  [.op .quote 0, .word true, .op .quote 0, .op .or 0, .word false, .word false]

/-- Its words. -/
def theDogCatWords : UdmWideWordList :=
  ⟨2, [⟨0, 0, .stop, 0, 1⟩, ⟨0, 0, .query, 0, 1⟩, ⟨1, 0, .query, 0, 1⟩]⟩

/-- What the code may run with. -/
def plainSetup : ScoreSetup := ⟨SortProc.forward, false, fun _ => 0, fun _ => 0⟩

theorem wordsOf_theDogCat : WordsOf (parseQuery theDogCat) theDogCatWords where
  nuniq := by decide
  word o ho := by
    have ho : o < 2 := ho
    interval_cases o
    · exact ⟨⟨0, 0, .query, 0, 1⟩, by decide, rfl, rfl⟩
    · exact ⟨⟨1, 0, .query, 0, 1⟩, by decide, rfl, rfl⟩
  within := by decide
  stop := by decide

theorem stopPhrasesHold_theDogCat :
    StopPhrasesHold plainSetup (scoreParam .bool theDogCat theDogCatWords) ↔
      (scoreParam .bool theDogCat theDogCatWords).searchMode ≠ .bool ∨ theDogCatWords.nuniq ≤ 1 ∨
        ∀ p ∈ phrases none (scoreParam .bool theDogCat theDogCatWords).itemList, p.StopOnly →
          AlwaysCounts plainSetup (scoreParam .bool theDogCat theDogCatWords) p.index :=
  stopPhrasesHold_iff plainSetup .bool theDogCat wordsOf_theDogCat

/-- In a document with "cat" alone the phrase "the" is false. -/
theorem not_stopPhrasesHold : ¬StopPhrasesHold plainSetup (scoreParam .bool theDogCat theDogCatWords) := by
  intro h
  have hitem : ∀ q ∈ [((2 : ℕ), (⟨1, 0, .query, 0, 1⟩ : UdmWideWord))], IsItem theDogCatWords q := by
    intro q hq
    rw [List.mem_singleton.mp hq]
    exact ⟨rfl, UdmWordOrigin.noConfusion⟩
  obtain ⟨-, q, hq, -, horder⟩ := h.counts (p := ⟨0, [⟨.stop, 0⟩], 0⟩)
    (itemsOf_scoreParam .bool theDogCat theDogCatWords).segmented (by decide) (by decide) (by decide) (by decide)
    hitem (List.cons_ne_nil _ _) (by decide) fun hand => absurd hand (by decide)
  rw [List.mem_singleton.mp hq] at horder
  exact absurd horder (by decide)

end MnoGoSearch.Score
