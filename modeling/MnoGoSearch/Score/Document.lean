import MnoGoSearch.Query.Phrases
import MnoGoSearch.Query.WordMask
import MnoGoSearch.Score.MergeCoords
import MnoGoSearch.Lib.SortProcedure
import MnoGoSearch.Lib.Tapes

/-!
# A document in a boolean query

`UdmGroupByURLLoop2` (`score.c`) looks at one document after the other. If the query is a plain
conjunction, a document without some word, or with its two words too far apart, is skipped at once
(`quickSkip`). For every other one the count array is filled: a word that is in no phrase counts when a
section has it, and the words of a phrase count when `CheckPhrase` finds the phrase in the coords of one
section. Then `UdmCalcBoolItems` decides. `docCount_ne_zero_iff` says what counts.
-/

namespace MnoGoSearch.Score

open Query Lib.Runs Lib.Sorting Lib.Tapes

/-- `UDM_SECTION` with the fields that are used when its document is looked at. -/
structure ScoreSection extends UdmSection where
  secno : ℕ
  /-- The number of words in the section. -/
  seclen : ℕ
  /-- The positions of the word. -/
  coord : List ℕ
  deriving DecidableEq, Repr

/-- `UDM_SCORE_PARAM`. -/
structure ScoreParam where
  /-- The words of the query and their forms. -/
  wwList : UdmWideWordList
  itemList : List UdmStackItem
  searchMode : UdmSearchMode

/-- What the code runs with. -/
structure ScoreSetup where
  sort : SortProc
  newVersion : Bool
  /-- What a shift of 1 by 32 or more yields. -/
  shift : ℕ → BitVec 32
  /-- What stands behind the count array. -/
  beyond : ℕ → UInt8

/-! ### The coords of one section -/

/-- The coords of one word. -/
def ScoreSection.sectionCoords (S : ScoreSection) : SectionCoords := ⟨S.order, S.coord⟩

/-- `UdmMergeCoordsMany`. Up to nine lists are merged, more of them are sorted (`UdmMergeCoordsUsingSort`). -/
def udmMergeCoordsMany (P : SortProc) (S : List SectionCoords) : List UdmCoord2 :=
  if S.length ≥ 10 then P.sort (fun a b => decide (a.pos ≤ b.pos)) (S.flatMap SectionCoords.coords)
  else mergeTapes (fun a b => decide (a.pos < b.pos)) (S.filterMap fun s => ofList s.coords)

/-- The coords that `UdmCalcUniqSection` passes to the check of phrases: none for a single word. -/
def mergedCoords (env : ScoreSetup) (S : List ScoreSection) : List UdmCoord2 :=
  match S with
  | [] | [_] => []
  | [S1, S2] =>
    if env.newVersion then udmMergeCoordsMany env.sort [S1.sectionCoords, S2.sectionCoords]
    else (udmMergeCoordsN2 S1.sectionCoords S2.sectionCoords).1
  | S1 :: S2 :: S3 :: S => udmMergeCoordsMany env.sort ((S1 :: S2 :: S3 :: S).map ScoreSection.sectionCoords)

/-! ### The count array -/

/-- `UpdateCount`, for the item of a section. -/
def updateCount (WWL : UdmWideWordList) (limit : ℕ) (count : ℕ → UInt8) (S : ScoreSection) : ℕ → UInt8 :=
  match WWL.word[S.wordnum]? with
  | some W => if W.phrlen < limit then Function.update count W.order 1 else count
  | none => count

/-- The items of a phrase from its first word on. -/
def skipStops (phrase : List UdmStackItem) : List UdmStackItem := phrase.dropWhile fun item => item.cmd == .stop

/-- Whether a phrase is in the section. If it has no word, we assume that it is. -/
def phraseFound (coords : List UdmCoord2) (cmdArg seclen : ℕ) : List UdmStackItem → UInt8
  | [] => 1
  | cmdBeg :: cmds => if checkOnePhrase cmdBeg cmds cmdArg seclen coords then 1 else 0

/-- Set the flag for the words of a phrase. -/
def markWords (arg : UInt8) (count : ℕ → UInt8) (phrase : List UdmStackItem) : ℕ → UInt8 :=
  phrase.foldl (fun count item =>
    if item.cmd = .word then Function.update count item.arg (count item.arg ||| arg) else count) count

/-- `CheckPhrase`. -/
def checkPhrase (coords : List UdmCoord2) (seclen : ℕ) : List UdmStackItem → (ℕ → UInt8) → ℕ → UInt8
  | [], count => count
  | item :: items, count =>
    if item.cmd = .phrase then
      let phrase := skipStops (items.takeWhile fun i => i.cmd != .phrase)
      checkPhrase coords seclen (items.dropWhile fun i => i.cmd != .phrase).tail
        (markWords (phraseFound coords item.arg seclen phrase) count phrase)
    else checkPhrase coords seclen items count
termination_by items => items.length
decreasing_by
  · have := List.length_dropWhile_le (fun i : UdmStackItem => i.cmd != .phrase) items
    simp only [List.length_tail, List.length_cons]
    omega
  · simp

/-- `update_count_phrlen_limit`. -/
def updateCountPhrlenLimit (mode : UdmSearchMode) : ℕ := if mode = .bool then 2 else maxWordPerQuery

/-- `UdmCalcUniqSection`, for the records of one section. -/
def udmCalcUniqSection (env : ScoreSetup) (param : ScoreParam) (count : ℕ → UInt8) (S : List ScoreSection) :
    ℕ → UInt8 :=
  let count := S.foldl (updateCount param.wwList (updateCountPhrlenLimit param.searchMode)) count
  let coords := mergedCoords env S
  if param.searchMode = .bool ∧ 1 < coords.length then
    checkPhrase coords (S.head?.elim 0 ScoreSection.seclen) param.itemList count
  else count

/-- The count array of a document. -/
def docCounts (env : ScoreSetup) (param : ScoreParam) (doc : List ScoreSection) : ℕ → UInt8 :=
  (runs ScoreSection.secno doc).foldl (udmCalcUniqSection env param) fun _ => 0

/-! ### The decision -/

/-- Quickly skip documents not having all words, or not having the phrase. -/
def quickSkip (env : ScoreSetup) (param : ScoreParam) (doc : List ScoreSection) : Bool :=
  let sections := doc.map ScoreSection.toUdmSection
  udmOptimizeUsingAND param.itemList param.searchMode &&
    (docWordMask (udmInitWordMask env.shift param.wwList) sections != expectedAndWordMask param.wwList.nuniq ||
      skipMinMaxPos2 param.wwList sections)

/-- The count array as it is read: it has an element for each word. -/
def countArray (env : ScoreSetup) (nuniq : ℕ) (count : ℕ → UInt8) (z : ℕ) : UInt8 :=
  if z < nuniq then count z else env.beyond z

/-- `UdmCalcBoolItems` for a document. -/
def evaluateDoc (env : ScoreSetup) (param : ScoreParam) (doc : List ScoreSection) : Option ℕ :=
  udmCalcBoolItems param.itemList (countArray env param.wwList.nuniq (docCounts env param doc))

/-- The sections of one document, as the search finds them. -/
structure DocumentOf (WWL : UdmWideWordList) (doc : List ScoreSection) : Prop where
  /-- The search finds documents with some word. -/
  ne_nil : doc ≠ []
  /-- They belong to one document. -/
  urlId : ∀ S ∈ doc, ∀ T ∈ doc, S.urlId = T.urlId
  /-- In the order of their numbers. -/
  sorted : doc.Pairwise fun S T => S.secno ≤ T.secno
  /-- A section number is one byte. -/
  secno_lt : ∀ S ∈ doc, S.secno < 256
  /-- The item of a section is searched. -/
  item : ∀ S ∈ doc, ∃ W, WWL.word[S.wordnum]? = some W ∧ W.origin ≠ .stop ∧ S.order = W.order
  coord_ne_nil : ∀ S ∈ doc, S.coord ≠ []
  coord_sorted : ∀ S ∈ doc, S.coord.Pairwise (· < ·)
  ncoords : ∀ S ∈ doc, S.ncoords = S.coord.length
  minpos : ∀ S ∈ doc, S.coord.head? = some S.minpos
  maxpos : ∀ S ∈ doc, S.coord.getLast? = some S.maxpos

/-! ### What counts -/

theorem or_ne_zero_iff (a b : UInt8) : a ||| b ≠ 0 ↔ a ≠ 0 ∨ b ≠ 0 := by
  rw [Ne, UInt8.or_eq_zero_iff, not_and_or]

/-- The item of a section counts by itself. -/
def Lights (WWL : UdmWideWordList) (limit : ℕ) (S : ScoreSection) (z : ℕ) : Prop :=
  ∃ W, WWL.word[S.wordnum]? = some W ∧ W.phrlen < limit ∧ W.order = z

theorem updateCount_ne_zero_iff (WWL : UdmWideWordList) (limit : ℕ) (count : ℕ → UInt8) (S : ScoreSection) (z : ℕ) :
    updateCount WWL limit count S z ≠ 0 ↔ count z ≠ 0 ∨ Lights WWL limit S z := by
  rw [updateCount, Lights]
  cases hW : WWL.word[S.wordnum]? with
  | none => simp
  | some W =>
    by_cases hlt : W.phrlen < limit
    · by_cases hz : z = W.order
      · subst hz
        simp [hlt]
      · simp [hlt, Function.update_of_ne hz, Ne.symm hz]
    · simp [hlt]

theorem foldl_updateCount_ne_zero_iff (WWL : UdmWideWordList) (limit : ℕ) (count : ℕ → UInt8)
    (doc : List ScoreSection) (z : ℕ) :
    doc.foldl (updateCount WWL limit) count z ≠ 0 ↔ count z ≠ 0 ∨ ∃ S ∈ doc, Lights WWL limit S z := by
  induction doc generalizing count with
  | nil => simp
  | cons S doc ih =>
    rw [List.foldl_cons, ih, updateCount_ne_zero_iff, or_assoc]
    simp only [List.mem_cons, exists_eq_or_imp]

theorem markWords_ne_zero_iff (arg : UInt8) (count : ℕ → UInt8) (phrase : List UdmStackItem) (z : ℕ) :
    markWords arg count phrase z ≠ 0 ↔ count z ≠ 0 ∨ arg ≠ 0 ∧ ⟨.word, z⟩ ∈ phrase := by
  induction phrase generalizing count with
  | nil => simp [markWords]
  | cons item phrase ih =>
    obtain ⟨cmd, a⟩ := item
    rw [markWords, List.foldl_cons, ← markWords, ih, List.mem_cons, UdmStackItem.mk.injEq]
    split_ifs with hcmd
    · by_cases hz : z = a
      · subst hz
        rw [Function.update_self, or_ne_zero_iff]
        simp only [show StackCmd.word = cmd from hcmd.symm, and_self, true_or, and_true]
        tauto
      · simp only [Function.update_of_ne hz, hz, and_false, false_or]
    · simp only [show StackCmd.word ≠ cmd from Ne.symm hcmd, false_and, false_or]

/-- The check of phrases counts the word `z` of the phrase `p`. -/
def Marks (coords : List UdmCoord2) (seclen : ℕ) (p : Phrase) (z : ℕ) : Prop :=
  phraseFound coords p.arg seclen (skipStops p.items) ≠ 0 ∧ ⟨.word, z⟩ ∈ skipStops p.items

theorem takeWhile_phrase {inner : List UdmStackItem} (h : ∀ item ∈ inner, item.cmd ≠ .phrase) (b : ℕ)
    (items : List UdmStackItem) :
    (inner ++ ⟨.phrase, b⟩ :: items).takeWhile (fun i => i.cmd != .phrase) = inner ∧
      (inner ++ ⟨.phrase, b⟩ :: items).dropWhile (fun i => i.cmd != .phrase) = ⟨.phrase, b⟩ :: items := by
  have hall : ∀ item ∈ inner, (item.cmd != .phrase) = true := fun item hitem => bne_iff_ne.mpr (h item hitem)
  rw [List.takeWhile_append_of_pos hall, List.dropWhile_append_of_pos hall]
  exact ⟨by simp, by simp⟩

theorem checkPhrase_toItems (coords : List UdmCoord2) (seclen : ℕ) {p : Phrase}
    (h : ∀ item ∈ p.items, item.cmd ≠ .phrase) (items : List UdmStackItem) (count : ℕ → UInt8) :
    checkPhrase coords seclen (p.toItems ++ items) count =
      checkPhrase coords seclen items
        (markWords (phraseFound coords p.arg seclen (skipStops p.items)) count (skipStops p.items)) := by
  obtain ⟨htake, hdrop⟩ := takeWhile_phrase h p.closing items
  rw [Phrase.toItems, List.cons_append, List.append_assoc, List.singleton_append, checkPhrase, if_pos rfl]
  simp only [htake, hdrop, List.tail_cons]

theorem checkPhrase_ne_zero_iff (coords : List UdmCoord2) (seclen : ℕ) {items : List UdmStackItem}
    (hs : Segmented items) (count : ℕ → UInt8) (z : ℕ) :
    checkPhrase coords seclen items count z ≠ 0 ↔
      count z ≠ 0 ∨ ∃ p ∈ phrases none items, Marks coords seclen p z := by
  induction hs generalizing count with
  | nil => simp [checkPhrase, phrases]
  | item hc hs ih => rw [checkPhrase, if_neg hc, ih, phrases_item hc]
  | phrase p hp hs ih =>
    rw [checkPhrase_toItems coords seclen hp, ih, markWords_ne_zero_iff, phrases_toItems hp, or_assoc]
    simp only [List.mem_cons, exists_eq_or_imp, Marks]

/-- The records of one section let the check of phrases count the word `z`. -/
def RunMarks (env : ScoreSetup) (items : List UdmStackItem) (S : List ScoreSection) (z : ℕ) : Prop :=
  1 < (mergedCoords env S).length ∧
    ∃ p ∈ phrases none items, Marks (mergedCoords env S) (S.head?.elim 0 ScoreSection.seclen) p z

variable {env : ScoreSetup} {param : ScoreParam}

theorem udmCalcUniqSection_ne_zero_iff (hmode : param.searchMode = .bool) (hs : Segmented param.itemList)
    (count : ℕ → UInt8) (S : List ScoreSection) (z : ℕ) :
    udmCalcUniqSection env param count S z ≠ 0 ↔
      count z ≠ 0 ∨ (∃ T ∈ S, Lights param.wwList 2 T z) ∨ RunMarks env param.itemList S z := by
  rw [udmCalcUniqSection, updateCountPhrlenLimit, if_pos hmode, RunMarks]
  split_ifs with hcheck
  · rw [checkPhrase_ne_zero_iff _ _ hs, foldl_updateCount_ne_zero_iff, or_assoc]
    simp only [hcheck.2, true_and]
  · have hshort : ¬1 < (mergedCoords env S).length := fun h => hcheck ⟨hmode, h⟩
    rw [foldl_updateCount_ne_zero_iff]
    simp only [hshort, false_and, or_false]

/-- **What counts in a document**: a word whose item stands in no phrase, and the words of a phrase that one section
has. -/
theorem docCounts_ne_zero_iff (hmode : param.searchMode = .bool) (hs : Segmented param.itemList)
    (doc : List ScoreSection) (z : ℕ) :
    docCounts env param doc z ≠ 0 ↔
      (∃ S ∈ doc, Lights param.wwList 2 S z) ∨ ∃ S ∈ runs ScoreSection.secno doc, RunMarks env param.itemList S z := by
  suffices h : ∀ (groups : List (List ScoreSection)) (count : ℕ → UInt8),
      groups.foldl (udmCalcUniqSection env param) count z ≠ 0 ↔
        count z ≠ 0 ∨ (∃ S ∈ groups.flatten, Lights param.wwList 2 S z) ∨
          ∃ S ∈ groups, RunMarks env param.itemList S z by
    rw [docCounts, h, flatten_runs]
    simp only [ne_eq, not_true_eq_false, false_or]
  intro groups
  induction groups with
  | nil => simp
  | cons S groups ih =>
    intro count
    rw [List.foldl_cons, ih, udmCalcUniqSection_ne_zero_iff hmode hs, List.flatten_cons]
    simp only [List.mem_append, or_and_right, exists_or, List.mem_cons, exists_eq_left]
    rw [or_assoc, or_or_or_comm]

end MnoGoSearch.Score
