import MnoGoSearch.Score.SectionCheck
import MnoGoSearch.Score.StopPhrases

/-!
# The quick skip of documents

In a boolean query that is a plain conjunction, `UdmGroupByURLLoop2` (`score.c`) skips a document that
has not all words, or has the two words of a phrase too far apart, without a look at the coords.
`quickSkipSound_iff_of_words` says when the evaluation would have rejected every such document: not if a
word of a phrase of several words counts by itself, and so stands for the whole phrase.
-/

namespace MnoGoSearch.Score

open Query Lib.Runs

/-- The evaluation accepts a document. -/
def Accepts (env : ScoreSetup) (param : ScoreParam) (doc : List ScoreSection) : Prop :=
  (evaluateDoc env param doc).map (· != 0) = some true

/-- In a boolean query with phrases, a document that is skipped would have been rejected. -/
def QuickSkipSound (env : ScoreSetup) (param : ScoreParam) : Prop :=
  param.searchMode = .bool → param.wwList.nuniq ≠ 1 → phrases none param.itemList ≠ [] →
    ∀ doc, DocumentOf param.wwList doc → quickSkip env param doc = true → ¬Accepts env param doc

/-- Some searched item of the position counts by itself. -/
def Light (WWL : UdmWideWordList) (z : ℕ) : Prop :=
  ∃ W ∈ WWL.word, W.origin ≠ .stop ∧ W.phrlen < 2 ∧ W.order = z

instance (WWL : UdmWideWordList) (z : ℕ) : Decidable (Light WWL z) :=
  inferInstanceAs (Decidable (∃ W ∈ WWL.word, W.origin ≠ .stop ∧ W.phrlen < 2 ∧ W.order = z))

/-- The words of the phrase that has the word `z`. -/
def phraseOf (items : List UdmStackItem) (z : ℕ) : List ℕ :=
  ((phrases none items).find? fun p => decide (z ∈ p.words)).elim [] Phrase.words

/-- The words that a document must have so that the position `z` counts. -/
def neededBy (param : ScoreParam) (z : ℕ) : List ℕ :=
  if Light param.wwList z then [z] else phraseOf param.itemList z

/-- The words whose positions are read. -/
def readWords (param : ScoreParam) : List ℕ :=
  (List.range param.wwList.nuniq).filter fun z => z ∈ boolReads false param.itemList

/-- The words that a document must have to be accepted. -/
def neededWords (param : ScoreParam) : List ℕ := (readWords param).flatMap (neededBy param)

/-- What the parser makes of phrases: a word that is in no phrase, or alone in one, counts by itself, and if the second
item of a query of two words is not at the beginning of a phrase, then the two words are in one. -/
structure PhrasesOf (items : List UdmStackItem) (WWL : UdmWideWordList) : Prop where
  outside : ∀ z < WWL.nuniq, (∀ p ∈ phrases none items, z ∉ p.words) → Light WWL z
  /-- Words alone in a phrase. -/
  alone : ∀ p ∈ phrases none items, ∀ z, p.items = [⟨.word, z⟩] → Light WWL z
  /-- Two words of one phrase. -/
  pair : (∀ item ∈ items, item.cmd ≠ .stop) → WWL.nuniq = 2 → WWL.word[1]?.elim 0 UdmWideWord.phrpos ≠ 0 →
    ∃ p ∈ phrases none items, 0 ∈ p.words ∧ 1 ∈ p.words

/-- The words that are needed pass the test of all words, and if the test of positions is made, some word that is
read does not count by itself. -/
structure SkipSafe (env : ScoreSetup) (param : ScoreParam) : Prop where
  mask : FullMask env param.wwList (neededWords param)
  pos : param.wwList.nuniq = 2 → param.wwList.word[1]?.elim 0 UdmWideWord.phrpos ≠ 0 →
    ∃ z ∈ readWords param, ¬Light param.wwList z

variable {z n : ℕ} {p : Phrase} {items : List UdmStackItem}

theorem mem_readWords {param : ScoreParam} :
    z ∈ readWords param ↔ z < param.wwList.nuniq ∧ z ∈ boolReads false param.itemList := by
  simp [readWords]

/-! ### Plain conjunctions -/

/-- A plain conjunction: words, `AND` and quotes. -/
def PlainAnd (items : List UdmStackItem) : Prop :=
  ∀ item ∈ items, item.cmd = .phrase ∨ item.cmd = .and ∨ item.cmd = .word

theorem plainAnd_of_optimize (h : udmOptimizeUsingAND items .bool = true) : PlainAnd items := by
  intro item hitem
  exact of_decide_eq_true (List.all_eq_true.mp h item hitem)

theorem PlainAnd.not_stop (h : PlainAnd items) : ∀ item ∈ items, item.cmd ≠ .stop := by
  intro item hitem hstop
  rcases h item hitem with hc | hc | hc <;> rw [hc] at hstop <;> contradiction

theorem PlainAnd.word_of_mem (h : PlainAnd items) (hs : Segmented items)
    (hplaced : Placed false n items) (hp : p ∈ phrases none items) : ∀ item ∈ p.items, item.cmd = .word := by
  intro item hitem
  obtain ⟨m, hinner⟩ := hplaced.exists_phrase hs hp
  have hmem := (hs.mem_phrases hp).1
  have hws := word_or_stop_of_placed (fun i hi => (hmem i hi).2) hinner item hitem
  exact hws.resolve_right (h.not_stop item (hmem item hitem).1)

theorem skipStops_of_word {phrase : List UdmStackItem} (h : ∀ item ∈ phrase, item.cmd = .word) :
    skipStops phrase = phrase := by
  cases phrase with
  | nil => rfl
  | cons item rest =>
    have hword := h item List.mem_cons_self
    rw [skipStops, List.dropWhile_cons_of_neg]
    rw [hword]
    exact Bool.false_ne_true

theorem phraseOf_eq (hs : Segmented items) (hplaced : Placed false n items)
    (hp : p ∈ phrases none items) (hz : z ∈ p.words) : phraseOf items z = p.words := by
  cases hfind : (phrases none items).find? fun p => decide (z ∈ p.words) with
  | none => exact absurd (decide_eq_true hz) (List.find?_eq_none.mp hfind p hp)
  | some q =>
    have hq : z ∈ q.words := by simpa using List.find?_some hfind
    rw [phraseOf, hfind, Option.elim_some, hplaced.phrase_unique hs (List.mem_of_find?_eq_some hfind) hp hq hz]

/-! ### What the evaluation accepts -/

section

variable {env : ScoreSetup} {mode : UdmSearchMode} {tokens : List QueryToken} {WWL : UdmWideWordList}
variable {doc : List ScoreSection}

theorem itemList_of_phrases (h : phrases none (scoreParam mode tokens WWL).itemList ≠ []) :
    (scoreParam mode tokens WWL).itemList = completeItems mode (parseQuery tokens).items := by
  refine (scoreParam_cases mode tokens WWL).resolve_left fun hnil => h ?_
  rw [hnil]
  rfl

/-- **A plain conjunction accepts** a document if all positions that are read count. -/
theorem accepts_iff (hphrases : phrases none (scoreParam mode tokens WWL).itemList ≠ [])
    (hand : PlainAnd (scoreParam mode tokens WWL).itemList) (doc : List ScoreSection) :
    Accepts env (scoreParam mode tokens WWL) doc ↔ ∀ z ∈ boolReads false (scoreParam mode tokens WWL).itemList,
      countArray env WWL.nuniq (docCounts env (scoreParam mode tokens WWL) doc) z ≠ 0 := by
  have hitems := itemsOf_scoreParam mode tokens WWL
  have hconj : Conjunctive (scoreParam mode tokens WWL).itemList := by
    intro item hitem
    rcases hand item hitem with hc | hc | hc <;> simp [hc]
  have hlist := itemList_of_phrases hphrases
  have hspaced : Spaced false false (scoreParam mode tokens WWL).itemList := hlist ▸ spaced_completeItems mode _
  have hquotes : quotesClosed false (scoreParam mode tokens WWL).itemList = true := by
    rw [hlist, quotesClosed_completeItems]
    exact (itemsOk_parseQuery tokens).2
  rw [Accepts, evaluateDoc, udmCalcBoolItems_conj _ hconj hspaced hquotes, Option.some.injEq,
    operandsTrue_iff_boolReads _ hitems.segmented]
  rfl

theorem countArray_of_lt {nuniq : ℕ} (hz : z < nuniq) (count : ℕ → UInt8) : countArray env nuniq count z = count z :=
  if_pos hz

variable {param : ScoreParam}

theorem neededBy_subset (hitems : Segmented param.itemList)
    (hplaced : Placed false n param.itemList) (hmode : param.searchMode = .bool)
    (hd : DocumentOf param.wwList doc) (hz : docCounts env param doc z ≠ 0) :
    ∀ o ∈ neededBy param z, o ∈ docOrders doc := by
  have hwords : ∀ w ∈ if Light param.wwList z then [z] else phraseOf param.itemList z, w ∈ docOrders doc := by
    rcases (docCounts_ne_zero_iff hmode hitems doc z).mp hz with ⟨S, hS, W, hget, hlt, horder⟩ | ⟨g, hg, hmarks⟩
    · obtain ⟨W', hget', hstop, hSW⟩ := hd.item S hS
      obtain rfl := Option.some.inj (hget.symm.trans hget')
      rw [if_pos ⟨W, List.mem_of_getElem? hget, hstop, hlt, horder⟩]
      intro w hw
      exact List.mem_map.mpr ⟨S, hS, hSW.trans (horder.trans (List.mem_singleton.mp hw).symm)⟩
    · have hsub : ∀ T ∈ g, T ∈ doc := by
        intro T hT
        rw [← flatten_runs ScoreSection.secno doc]
        exact List.mem_flatten.mpr ⟨g, hg, hT⟩
      obtain ⟨p, hp, hzp, hall⟩ := hmarks.docOrders fun T hT => hd.coord_sorted T (hsub T hT)
      have hdoc : ∀ w ∈ p.words, w ∈ docOrders doc := by
        intro w hw
        obtain ⟨T, hT, horder⟩ := List.mem_map.mp (hall w hw)
        exact List.mem_map.mpr ⟨T, hsub T hT, horder⟩
      split_ifs
      · intro w hw
        exact List.mem_singleton.mp hw ▸ hdoc z hzp
      · rw [phraseOf_eq hitems hplaced hp hzp]
        exact hdoc
  exact hwords

/-! ### Two sections -/

theorem le_of_head? {l : List ℕ} {a c : ℕ} (hl : l.Pairwise (· < ·)) (ha : l.head? = some a) (hc : c ∈ l) : a ≤ c := by
  cases l with
  | nil => contradiction
  | cons b l =>
    obtain rfl := Option.some.inj ha
    rcases List.mem_cons.mp hc with rfl | hc
    · exact le_rfl
    · exact (List.rel_of_pairwise_cons hl hc).le

theorem not_apart_of_runMarks (hitems : Segmented param.itemList)
    (hplaced : Placed false n param.itemList) (hand : PlainAnd param.itemList)
    (hd : DocumentOf param.wwList doc) {g : List ScoreSection} (hg : g ∈ runs ScoreSection.secno doc)
    (hmarks : RunMarks env param.itemList g z) (hp : p ∈ phrases none param.itemList) (hz : z ∈ p.words)
    (h0 : 0 ∈ p.words) (h1 : 1 ∈ p.words) {S1 S2 : ScoreSection} (hdoc : doc = [S1, S2]) :
    ¬(S2.maxpos + 1 < S1.minpos ∨ S1.maxpos + 1 < S2.minpos) := by
  have hsub : ∀ T ∈ g, T ∈ doc := by
    intro T hT
    rw [← flatten_runs ScoreSection.secno doc]
    exact List.mem_flatten.mpr ⟨g, hg, hT⟩
  obtain ⟨-, q, hq, hqmarks⟩ := hmarks
  have hqz : z ∈ q.words := Phrase.mem_words.mpr (mem_skipStops.mp hqmarks.2)
  obtain rfl := hplaced.phrase_unique hitems hp hq hz hqz
  obtain ⟨pos, hoccurs⟩ := hqmarks.exists_occursAt (sorted_mergedCoords fun T hT => hd.coord_sorted T (hsub T hT))
  have hwords := hand.word_of_mem hitems hplaced hp
  rw [skipStops_of_word hwords] at hoccurs
  -- the two words follow each other in the phrase, and so do their coords
  obtain ⟨m, hinner⟩ := hplaced.exists_phrase hitems hp
  obtain ⟨i, hi⟩ := List.mem_iff_getElem?.mp (Phrase.mem_words.mp h0)
  obtain ⟨j, hj⟩ := List.mem_iff_getElem?.mp (Phrase.mem_words.mp h1)
  have hi0 : 0 = m + i := hinner.arg_eq hwords hi
  have hj1 : 1 = m + j := hinner.arg_eq hwords hj
  obtain ⟨T0, hT0, horder0, hpos0⟩ := mem_mergedCoords (hoccurs i _ hi StackCmd.noConfusion)
  obtain ⟨T1, hT1, horder1, hpos1⟩ := mem_mergedCoords (hoccurs j _ hj StackCmd.noConfusion)
  dsimp only at horder0 horder1 hpos0 hpos1
  have hbound : ∀ T ∈ doc, ∀ c ∈ T.coord, T.minpos ≤ c ∧ c ≤ T.maxpos := fun T hT c hc =>
    ⟨le_of_head? (hd.coord_sorted T hT) (hd.minpos T hT) hc,
      le_of_getLast? (hd.coord_sorted T hT) (hd.maxpos T hT) hc⟩
  have hb0 := hbound T0 (hsub T0 hT0) _ hpos0
  have hb1 := hbound T1 (hsub T1 hT1) _ hpos1
  have hmem0 := hdoc ▸ hsub T0 hT0
  have hmem1 := hdoc ▸ hsub T1 hT1
  simp only [List.mem_cons, List.not_mem_nil, or_false] at hmem0 hmem1
  rcases hmem0 with rfl | rfl <;> rcases hmem1 with rfl | rfl
  · omega
  · omega
  · omega
  · omega

/-- **If the words that are needed pass the test**, no document is skipped that would be accepted. -/
theorem SkipSafe.sound (hw : WordsOf (parseQuery tokens) WWL)
    (hpair : PhrasesOf (scoreParam mode tokens WWL).itemList WWL)
    (hand : PlainAnd (scoreParam mode tokens WWL).itemList) (h : SkipSafe env (scoreParam mode tokens WWL)) :
    QuickSkipSound env (scoreParam mode tokens WWL) := by
  intro hmode _ hphrases doc hd hskip haccepts
  have hitems := itemsOf_scoreParam mode tokens WWL
  rw [accepts_iff hphrases hand] at haccepts
  have hcounts : ∀ z ∈ readWords (scoreParam mode tokens WWL), docCounts env (scoreParam mode tokens WWL) doc z ≠ 0 := by
    intro z hz
    obtain ⟨hlt, hread⟩ := mem_readWords.mp hz
    have hlt : z < WWL.nuniq := hlt
    have hcount := haccepts z hread
    rwa [countArray_of_lt hlt] at hcount
  have hneeded : ∀ o ∈ neededWords (scoreParam mode tokens WWL), o ∈ docOrders doc := by
    intro o ho
    obtain ⟨z, hz, ho⟩ := List.mem_flatMap.mp ho
    exact neededBy_subset hitems.segmented hitems.placed hmode hd (hcounts z hz) o ho
  have hfull : FullMask env WWL (docOrders doc) := hw.fullMask_mono (hw.docOrders_lt hd) hneeded h.mask
  obtain ⟨hn, hpos, S1', S2', hdoc', hapart⟩ :=
    (skipMinMaxPos2_iff _ _).mp (((quickSkip_eq _ _ _).mp hskip).2.resolve_left (not_not_intro hfull))
  obtain ⟨z, hz, hheavy⟩ := h.pos hn hpos
  have hlight : ¬∃ S ∈ doc, Lights WWL 2 S z := by
    rintro ⟨S, hS, W, hget, hlt, horder⟩
    obtain ⟨W', hget', hstop, -⟩ := hd.item S hS
    obtain rfl := Option.some.inj (hget.symm.trans hget')
    exact hheavy ⟨W, List.mem_of_getElem? hget, hstop, hlt, horder⟩
  obtain ⟨g, hg, hmarks⟩ := ((docCounts_ne_zero_iff hmode hitems.segmented doc z).mp (hcounts z hz)).resolve_left hlight
  obtain ⟨p, hp, h0, h1⟩ := hpair.pair hand.not_stop hn hpos
  obtain ⟨S1, S2, rfl, rfl, rfl⟩ : ∃ S1 S2, doc = [S1, S2] ∧ S1.toUdmSection = S1' ∧ S2.toUdmSection = S2' := by
    rcases doc with _ | ⟨S1, _ | ⟨S2, _ | ⟨S3, doc⟩⟩⟩
    · simp at hdoc'
    · simp at hdoc'
    · simp only [List.map_cons, List.map_nil, List.cons.injEq, and_true] at hdoc'
      exact ⟨S1, S2, rfl, hdoc'⟩
    · simp at hdoc'
  have hzp : z ∈ p.words := by
    have hlt : z < 2 := hn ▸ (mem_readWords.mp hz).1
    interval_cases z
    · exact h0
    · exact h1
  exact not_apart_of_runMarks hitems.segmented hitems.placed hand hd hg hmarks hp hzp h0 h1 rfl hapart

/-! ### Documents that are accepted -/

section

variable (hphrases : phrases none (scoreParam mode tokens WWL).itemList ≠ [])
  (hand : PlainAnd (scoreParam mode tokens WWL).itemList)
  (hbeyond : ∀ z ∈ boolReads false (scoreParam mode tokens WWL).itemList, WWL.nuniq ≤ z → env.beyond z ≠ 0)

include hphrases hand hbeyond

theorem accepts_of_counts
    (h : ∀ z ∈ readWords (scoreParam mode tokens WWL), docCounts env (scoreParam mode tokens WWL) doc z ≠ 0) :
    Accepts env (scoreParam mode tokens WWL) doc := by
  rw [accepts_iff hphrases hand]
  intro z hz
  rcases Nat.lt_or_ge z WWL.nuniq with hlt | hge
  · rw [countArray_of_lt hlt]
    exact h z (mem_readWords.mpr ⟨hlt, hz⟩)
  · rw [countArray, if_neg (by omega)]
    exact hbeyond z hz hge

end

/-- The section for a position: an item that counts by itself, or the phrase. -/
def runFor (param : ScoreParam) (word light : ℕ → ℕ × UdmWideWord) (z : ℕ) : List (ℕ × UdmWideWord) :=
  if Light param.wwList z then [light z] else (phraseOf param.itemList z).map word

theorem lt_of_mem_words {query : QueryState} (hw : WordsOf query param.wwList)
    (hitems : ItemsOf query.nuniq param.itemList) (hp : p ∈ phrases none param.itemList) (hz : z ∈ p.words) :
    z < param.wwList.nuniq := by
  have hmem := ((hitems.segmented.mem_phrases hp).1 _ (Phrase.mem_words.mp hz)).1
  have := (hitems.placed.le_of_mem hmem).2
  have := hitems.count
  rw [hw.nuniq]
  omega

section

variable {query : QueryState} {param : ScoreParam} (hw : WordsOf query param.wwList)
  (hitems : ItemsOf query.nuniq param.itemList) (hpair : PhrasesOf param.itemList param.wwList)
  (hand : PlainAnd param.itemList) {word light : ℕ → ℕ × UdmWideWord}
  (hword : ∀ o < param.wwList.nuniq, IsItem param.wwList (word o) ∧ (word o).2.order = o)
  (hlight : ∀ z, Light param.wwList z →
    IsItem param.wwList (light z) ∧ (light z).2.phrlen < 2 ∧ (light z).2.order = z)

include hitems hpair hand

theorem exists_phrase_of_heavy {z : ℕ} (hz : z < param.wwList.nuniq) (hheavy : ¬Light param.wwList z) :
    ∃ p ∈ phrases none param.itemList, z ∈ p.words ∧ 1 < p.words.length ∧ phraseOf param.itemList z = p.words := by
  obtain ⟨p, hp, hzp⟩ : ∃ p ∈ phrases none param.itemList, z ∈ p.words := by
    by_contra hno
    exact hheavy (hpair.outside z hz fun p hp hzp => hno ⟨p, hp, hzp⟩)
  refine ⟨p, hp, hzp, ?_, phraseOf_eq hitems.segmented hitems.placed hp hzp⟩
  have hwords := hand.word_of_mem hitems.segmented hitems.placed hp
  rw [words_eq_of_word hwords, List.length_map]
  by_contra hshort
  have hmem := Phrase.mem_words.mp hzp
  refine hheavy (hpair.alone p hp z ?_)
  rcases hp' : p.items with _ | ⟨item, _ | ⟨item', rest⟩⟩
  · rw [hp'] at hmem
    contradiction
  · rw [hp'] at hmem
    rw [List.mem_singleton.mp hmem]
  · rw [hp', List.length_cons, List.length_cons] at hshort
    omega

include hw hword hlight

theorem isItem_runFor {z : ℕ} (hz : z < param.wwList.nuniq) :
    runFor param word light z ≠ [] ∧ (∀ q ∈ runFor param word light z, IsItem param.wwList q) ∧
      (runFor param word light z).map (fun q => q.2.order) = neededBy param z := by
  rw [runFor, neededBy]
  split_ifs with hl
  · obtain ⟨hitem, -, horder⟩ := hlight z hl
    refine ⟨List.cons_ne_nil _ _, fun q hq => List.mem_singleton.mp hq ▸ hitem, ?_⟩
    rw [List.map_cons, horder]
    rfl
  · obtain ⟨p, hp, hzp, -, hphrase⟩ := exists_phrase_of_heavy hitems hpair hand hz hl
    have hlt : ∀ w ∈ p.words, w < param.wwList.nuniq := fun w hwp => lt_of_mem_words hw hitems hp hwp
    rw [hphrase, List.map_map]
    refine ⟨by simpa using List.ne_nil_of_mem hzp, fun q hq => ?_, ?_⟩
    · obtain ⟨w, hwp, rfl⟩ := List.mem_map.mp hq
      exact (hword w (hlt w hwp)).1
    · exact (List.map_congr_left fun w hwp => (hword w (hlt w hwp)).2).trans (List.map_id _)

theorem docCounts_runFor (hmode : param.searchMode = .bool) {z : ℕ} (hz : z ∈ readWords param) :
    docCounts env param (docOfRuns ((readWords param).map (runFor param word light))) z ≠ 0 := by
  have hlt : ∀ x ∈ readWords param, x < param.wwList.nuniq := fun x hx => (mem_readWords.mp hx).1
  have hrun := fun x hx => isItem_runFor hw hitems hpair hand hword hlight (hlt x hx)
  have hmem : runFor param word light z ∈ (readWords param).map (runFor param word light) := List.mem_map_of_mem hz
  have hne : ∀ r ∈ (readWords param).map (runFor param word light), r ≠ [] := by
    intro r hr
    obtain ⟨x, hx, rfl⟩ := List.mem_map.mp hr
    exact (hrun x hx).1
  have hitem : ∀ r ∈ (readWords param).map (runFor param word light), ∀ q ∈ r, IsItem param.wwList q := by
    intro r hr
    obtain ⟨x, hx, rfl⟩ := List.mem_map.mp hr
    exact (hrun x hx).2.1
  rw [docCounts_docOfRuns hmode hitems.segmented hne hitem]
  by_cases hl : Light param.wwList z
  · refine .inl ⟨_, hmem, light z, ?_, (hlight z hl).2⟩
    rw [runFor, if_pos hl]
    exact List.mem_singleton_self _
  · obtain ⟨p, hp, hzp, hlen, hphrase⟩ := exists_phrase_of_heavy hitems hpair hand (hlt z hz) hl
    have hwords := hand.word_of_mem hitems.segmented hitems.placed hp
    obtain ⟨n, hn⟩ := exists_mem_placeRuns 1 hmem
    have horders := (hrun z hz).2.2
    rw [neededBy, if_neg hl, hphrase, words_eq_of_word hwords] at horders
    have hlen' : 1 < (runFor param word light z).length := by
      rw [runFor, if_neg hl, hphrase, List.length_map]
      exact hlen
    exact .inr ⟨_, hn, runMarks_placeRun env hp hwords horders hlen' n hzp⟩

end

/-! ### The answer -/

theorem zero_mem_readWords (hw : WordsOf (parseQuery tokens) WWL) (h1 : 0 < WWL.nuniq)
    (hphrases : phrases none (scoreParam mode tokens WWL).itemList ≠ []) : 0 ∈ readWords (scoreParam mode tokens WWL) := by
  have hitems := itemsOf_scoreParam mode tokens WWL
  have hmem : ⟨.word, 0⟩ ∈ (scoreParam mode tokens WWL).itemList := by
    rw [itemList_of_phrases hphrases]
    exact mem_completeItems_of_mem (((itemsOk_parseQuery tokens).1.word 0).mpr (hw.nuniq ▸ h1))
  refine mem_readWords.mpr ⟨h1, ?_⟩
  rcases mem_boolReads_or_mem_words hitems.segmented hmem with hread | ⟨p, hp, h0⟩
  · exact hread
  · obtain ⟨m, hinner⟩ := hitems.placed.exists_phrase hitems.segmented hp
    obtain ⟨hquote, hindex⟩ := hitems.segmented.mem_phrases hp
    have hle := hinner.index_le (word_or_stop_of_placed (fun i hi => (hquote i hi).2) hinner) h0
    rwa [Nat.le_zero.mp hle] at hindex

theorem documentOf_apart {p0 p1 : ℕ × UdmWideWord} (h0 : IsItem WWL p0) (h1 : IsItem WWL p1) :
    DocumentOf WWL [placeWord 1 1 5 p0, placeWord 2 1 1 p1] := by
  have htwo : ∀ {P : ScoreSection → Prop}, P (placeWord 1 1 5 p0) → P (placeWord 2 1 1 p1) →
      ∀ S ∈ [placeWord 1 1 5 p0, placeWord 2 1 1 p1], P S :=
    fun h h' => List.forall_mem_cons.mpr ⟨h, List.forall_mem_singleton.mpr h'⟩
  exact
    { ne_nil := List.cons_ne_nil _ _
      urlId := htwo (htwo rfl rfl) (htwo rfl rfl)
      sorted := List.pairwise_pair.mpr (Nat.le_succ 1)
      secno_lt := htwo (show 1 < 256 by omega) (show 2 < 256 by omega)
      item := htwo ⟨p0.2, h0.1, h0.2, rfl⟩ ⟨p1.2, h1.1, h1.2, rfl⟩
      coord_ne_nil := htwo (List.cons_ne_nil _ _) (List.cons_ne_nil _ _)
      coord_sorted := htwo (List.pairwise_singleton _ _) (List.pairwise_singleton _ _)
      ncoords := htwo rfl rfl
      minpos := htwo rfl rfl
      maxpos := htwo rfl rfl }

theorem QuickSkipSound.skipSafe (hw : WordsOf (parseQuery tokens) WWL)
    (hpair : PhrasesOf (scoreParam mode tokens WWL).itemList WWL)
    (hmode : (scoreParam mode tokens WWL).searchMode = .bool) (h1 : 1 < WWL.nuniq)
    (hphrases : phrases none (scoreParam mode tokens WWL).itemList ≠ [])
    (hopt : udmOptimizeUsingAND (scoreParam mode tokens WWL).itemList .bool = true)
    (hbeyond : ∀ z ∈ boolReads false (scoreParam mode tokens WWL).itemList, WWL.nuniq ≤ z → env.beyond z ≠ 0)
    (h : QuickSkipSound env (scoreParam mode tokens WWL)) : SkipSafe env (scoreParam mode tokens WWL) := by
  have hitems := itemsOf_scoreParam mode tokens WWL
  have hand := plainAnd_of_optimize hopt
  have hzero : 0 ∈ readWords (scoreParam mode tokens WWL) := zero_mem_readWords hw (by omega) hphrases
  have hlt : ∀ z ∈ readWords (scoreParam mode tokens WWL), z < WWL.nuniq := fun z hz => (mem_readWords.mp hz).1
  obtain ⟨word, hword⟩ := hw.exists_word
  obtain ⟨light, hlight⟩ : ∃ light : ℕ → ℕ × UdmWideWord, ∀ z, Light WWL z →
      IsItem WWL (light z) ∧ (light z).2.phrlen < 2 ∧ (light z).2.order = z := by
    have hex : ∀ z, ∃ q : ℕ × UdmWideWord, Light WWL z → IsItem WWL q ∧ q.2.phrlen < 2 ∧ q.2.order = z := by
      intro z
      by_cases hl : Light WWL z
      · obtain ⟨W, hW, hstop, hlen, horder⟩ := hl
        obtain ⟨i, hi⟩ := List.mem_iff_getElem?.mp hW
        exact ⟨(i, W), fun _ => ⟨⟨hi, hstop⟩, hlen, horder⟩⟩
      · exact ⟨word z, fun h => absurd h hl⟩
    choose light hlight using hex
    exact ⟨light, hlight⟩
  have hskip : ∀ doc, DocumentOf WWL doc →
      (∀ z ∈ readWords (scoreParam mode tokens WWL), docCounts env (scoreParam mode tokens WWL) doc z ≠ 0) →
        ¬(¬FullMask env WWL (docOrders doc) ∨ skipMinMaxPos2 WWL (doc.map ScoreSection.toUdmSection) = true) := by
    intro doc hd hcounts hskip
    refine h hmode h1.ne' hphrases doc hd ?_ (accepts_of_counts hphrases hand hbeyond hcounts)
    rw [quickSkip_eq, hmode]
    exact ⟨hopt, hskip⟩
  constructor
  · have hrun := fun z hz => isItem_runFor hw hitems hpair hand hword hlight (hlt z hz)
    have hlen : ((readWords (scoreParam mode tokens WWL)).map
        (runFor (scoreParam mode tokens WWL) word light)).length < 255 := by
      have hle : (readWords (scoreParam mode tokens WWL)).length ≤ WWL.nuniq :=
        (List.length_filter_le _ _).trans List.length_range.le
      have hmany := nuniq_parseQuery_lt tokens
      rw [← hw.nuniq, maxWordPerQuery] at hmany
      rw [List.length_map]
      omega
    have hd : DocumentOf WWL (docOfRuns ((readWords (scoreParam mode tokens WWL)).map
        (runFor (scoreParam mode tokens WWL) word light))) := by
      refine documentOf_docOfRuns (by simpa using List.ne_nil_of_mem hzero) hlen ?_ ?_
      · intro r hr
        obtain ⟨z, hz, rfl⟩ := List.mem_map.mp hr
        exact (hrun z hz).1
      · intro r hr
        obtain ⟨z, hz, rfl⟩ := List.mem_map.mp hr
        exact (hrun z hz).2.1
    have hfull := (not_or.mp (hskip _ hd fun z hz =>
      docCounts_runFor hw hitems hpair hand hword hlight hmode hz)).1
    have horders : docOrders (docOfRuns ((readWords (scoreParam mode tokens WWL)).map
        (runFor (scoreParam mode tokens WWL) word light))) = neededWords (scoreParam mode tokens WWL) := by
      rw [docOrders_docOfRuns, ← List.flatMap_def, List.map_flatMap, neededWords]
      exact List.flatMap_congr fun z hz => (hrun z hz).2.2
    rw [horders, not_not] at hfull
    exact hfull
  · intro hn hpos
    by_contra hno
    have hall : ∀ z ∈ readWords (scoreParam mode tokens WWL), Light WWL z := by
      intro z hz
      by_contra hl
      exact hno ⟨z, hz, hl⟩
    have hl0 := hlight 0 (hall 0 hzero)
    obtain ⟨p1, hp1, horder1, hlen1⟩ : ∃ p1, IsItem WWL p1 ∧ p1.2.order = 1 ∧ (Light WWL 1 → p1.2.phrlen < 2) := by
      by_cases hl1 : Light WWL 1
      · exact ⟨light 1, (hlight 1 hl1).1, (hlight 1 hl1).2.2, fun _ => (hlight 1 hl1).2.1⟩
      · exact ⟨word 1, (hword 1 h1).1, (hword 1 h1).2, fun hl => absurd hl hl1⟩
    refine hskip _ (documentOf_apart hl0.1 hp1) (fun z hz => ?_) (.inr ?_)
    · rw [docCounts_ne_zero_iff hmode hitems.segmented]
      have hz2 : z < 2 := hn ▸ hlt z hz
      interval_cases z
      · exact .inl ⟨_, List.mem_cons_self, (light 0).2, hl0.1.1, hl0.2⟩
      · exact .inl ⟨_, List.mem_cons_of_mem _ List.mem_cons_self, p1.2, hp1.1, hlen1 (hall 1 hz), horder1⟩
    · rw [skipMinMaxPos2_iff]
      refine ⟨hn, hpos, _, _, rfl, .inl ?_⟩
      change 1 + 1 < 5
      omega

/-- **When the quick skip is sound**: no document is skipped, or the words that a document must have to be accepted
pass the tests. -/
theorem quickSkipSound_iff_of_words (env : ScoreSetup) (mode : UdmSearchMode) (tokens : List QueryToken)
    {WWL : UdmWideWordList} (hw : WordsOf (parseQuery tokens) WWL)
    (hpair : PhrasesOf (scoreParam mode tokens WWL).itemList WWL) :
    QuickSkipSound env (scoreParam mode tokens WWL) ↔
      (scoreParam mode tokens WWL).searchMode ≠ .bool ∨ WWL.nuniq ≤ 1 ∨
        phrases none (scoreParam mode tokens WWL).itemList = [] ∨
        udmOptimizeUsingAND (scoreParam mode tokens WWL).itemList .bool = false ∨
        (∃ z ∈ boolReads false (scoreParam mode tokens WWL).itemList, WWL.nuniq ≤ z ∧ env.beyond z = 0) ∨
        SkipSafe env (scoreParam mode tokens WWL) := by
  constructor
  · intro h
    by_contra hno
    simp only [not_or, not_not, Bool.not_eq_false, not_exists, not_and] at hno
    obtain ⟨hmode, h1, hphrases, hopt, hbeyond, hsafe⟩ := hno
    exact hsafe (h.skipSafe hw hpair hmode (by omega) hphrases hopt hbeyond)
  · rintro (hmode | h1 | hphrases | hopt | ⟨z, hz, hge, hzero⟩ | hsafe)
    · exact fun hmode' => absurd hmode' hmode
    · intro _ hne _ doc hd
      obtain ⟨S, rest, rfl⟩ := List.exists_cons_of_ne_nil hd.ne_nil
      have hlt := hw.docOrders_lt hd S.order List.mem_cons_self
      have hne : WWL.nuniq ≠ 1 := hne
      omega
    · exact fun _ _ hne => absurd hphrases hne
    · intro hmode _ _ doc _ hskip
      rw [quickSkip_eq, hmode, hopt] at hskip
      exact absurd hskip.1 Bool.false_ne_true
    · intro hmode _ hphrases doc _ hskip haccepts
      rw [quickSkip_eq, hmode] at hskip
      have hcount := (accepts_iff hphrases (plainAnd_of_optimize hskip.1) doc).mp haccepts z hz
      rw [countArray, if_neg (by omega)] at hcount
      exact hcount hzero
    · intro hmode hne hphrases doc hd hskip
      have hopt := ((quickSkip_eq _ _ _).mp hskip).1
      rw [hmode] at hopt
      exact hsafe.sound hw hpair (plainAnd_of_optimize hopt) hmode hne hphrases doc hd hskip

end

end MnoGoSearch.Score
