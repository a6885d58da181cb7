import MnoGoSearch.Dict.Multi
import Mathlib

/-!
# One table and many

A document is stored in the mode `single` and in the mode `multi`, and the words of a query are searched in both. With
`SaveSectionSize` the modes lose different coords: `single` the last one of a section (`closeSection` on the runs of
`crdSection`), `multi` the last one of each word in it (on the runs of a finer key). So they agree just where a query
word finds one word in a section at most (`dictAgrees_iff`).
-/

namespace MnoGoSearch.Dict

open Lib.Runs Lib.Sorting Words Score Limits Blob

section Agree

variable {crdSort : QSort CrdLe} {wlSort : QSort WlLe} {wcSort : QSort WcLe} {udmStrHash32 : CString → ℕ}
variable {saveSectionSize : Bool} {wf : ℕ → ℕ} {urls : UdmURLIdList} {urlId : ℤ} {d : DocWords}
variable {Word : SearchWord} {C : UdmUrlCrd} {cache : List UdmWordCacheWord} {l : List UdmWord}

/-! ### The words that are found -/

/-- The stored words that a query word finds. -/
def foundWords (wlSort : QSort WlLe) (saveSectionSize : Bool) (wf : ℕ → ℕ) (d : DocWords) (Word : SearchWord) :
    List UdmWord :=
  (storedWords wlSort saveSectionSize d).filter fun W => Word.cmparg W.word && Word.wants wf W.secno.toNat

/-- The coord of a word. -/
def wordCrd (urlId : ℤ) (Word : SearchWord) (W : UdmWord) : UdmUrlCrd :=
  ⟨urlId, 0, W.pos, Word.order &&& 0xFF, W.secno.toNat⟩

theorem udmFindWordSingleInternal_eq :
    udmFindWordSingleInternal crdSort wf (storeWordsSingle wlSort saveSectionSize urlId d) Word =
      crdSort.sort ((foundWords wlSort saveSectionSize wf d Word).map (wordCrd urlId Word)) := by
  rw [udmFindWordSingleInternal, storeWordsSingle, foundWords]
  congr 1
  induction storedWords wlSort saveSectionSize d with
  | nil => rfl
  | cons W l ih =>
    have hrow : rowCoord wf Word ⟨W.word, urlId, wrdCoord W.pos W.secno⟩ =
        if Word.wants wf W.secno.toNat then some (wordCrd urlId Word W) else none := by
      simp only [rowCoord, wrdSec_wrdCoord W.pos_le, wrdPos_wrdCoord W.pos_le, wordCrd]
    rw [List.map_cons, List.filter_cons, List.filter_cons]
    cases hcmp : Word.cmparg W.word with
    | false => simpa [hcmp] using ih
    | true =>
      cases hwants : Word.wants wf W.secno.toNat with
      | false => simpa [hcmp, hwants, hrow] using ih
      | true => simpa [hcmp, hwants, hrow] using ih

theorem perm_sortedCache_filter :
    ((sortedCache wlSort wcSort udmStrHash32 saveSectionSize urlId d).filter (Word.finds wf)).Perm
      ((foundWords wlSort saveSectionSize wf d Word).map (cacheWord udmStrHash32 urlId)) := by
  refine ((wcSort.perm _).filter _).trans (List.Perm.of_eq ?_)
  rw [List.filter_map, foundWords]
  rfl

theorem cacheCrd_cacheWord (W : UdmWord) : cacheCrd Word (cacheWord udmStrHash32 urlId W) = wordCrd urlId Word W := by
  rw [cacheCrd, pos_cacheWord]
  rfl

/-! ### Two keys -/

/-- The section that a row belongs to. -/
def sectionOfKey (k : ℕ ×ₗ UInt8 ×ₗ ℤ ×ₗ CString) : ℤ ×ₗ ℕ :=
  toLex ((ofLex (ofLex (ofLex k).2).2).1, (ofLex (ofLex k).2).1.toNat)

theorem crdSection_wordCrd (udmStrHash32 : CString → ℕ) (W : UdmWord) :
    crdSection (wordCrd urlId Word W) = sectionOfKey (cacheWord udmStrHash32 urlId W).key := rfl

theorem key_mem_toFinset {udmStrHash32 : CString → ℕ} {urlId : ℤ} {U : UdmWord} (hU : U ∈ l) :
    (cacheWord udmStrHash32 urlId U).key ∈
      ((l.map fun W => (cacheWord udmStrHash32 urlId W).key).toFinset : Set _) :=
  List.mem_toFinset.mpr (List.mem_map.mpr ⟨U, hU, rfl⟩)

/-- A query word finds at most one word in a section. -/
def OneWordPerSection (l : List UdmWord) : Prop := ∀ V ∈ l, ∀ W ∈ l, V.secno = W.secno → V.word = W.word

theorem oneWordPerSection_iff (udmStrHash32 : CString → ℕ) (urlId : ℤ) :
    OneWordPerSection l ↔
      Set.InjOn sectionOfKey ((l.map fun W => (cacheWord udmStrHash32 urlId W).key).toFinset : Set _) := by
  constructor
  · intro h k hk k' hk' heq
    obtain ⟨V, hV, rfl⟩ := List.mem_map.mp (List.mem_toFinset.mp hk)
    obtain ⟨W, hW, rfl⟩ := List.mem_map.mp (List.mem_toFinset.mp hk')
    have hsec : V.secno = W.secno := by
      simp only [sectionOfKey, cacheWord, UdmWordCacheWord.key, EmbeddingLike.apply_eq_iff_eq, Prod.mk.injEq] at heq
      exact UInt8.toNat_inj.mp heq.2
    simp only [cacheWord, UdmWordCacheWord.key, h V hV W hW hsec, hsec]
  · intro h V hV W hW hsec
    have hsection : sectionOfKey (cacheWord udmStrHash32 urlId V).key =
        sectionOfKey (cacheWord udmStrHash32 urlId W).key := by
      simp only [sectionOfKey, cacheWord, UdmWordCacheWord.key, hsec]
      rfl
    have hkey := h (key_mem_toFinset hV) (key_mem_toFinset hW) hsection
    exact ((UdmWordCacheWord.key_eq_iff _ _).mp hkey).2.2.2

theorem sections_eq_image (udmStrHash32 : CString → ℕ) (l : List UdmWord) :
    (l.map fun W => crdSection (wordCrd urlId Word W)).toFinset =
      (l.map fun W => (cacheWord udmStrHash32 urlId W).key).toFinset.image sectionOfKey := by
  ext s
  simp only [List.mem_toFinset, List.mem_map, Finset.mem_image]
  constructor
  · rintro ⟨W, hW, rfl⟩
    exact ⟨_, ⟨W, hW, rfl⟩, (crdSection_wordCrd udmStrHash32 W).symm⟩
  · rintro ⟨k, ⟨W, hW, rfl⟩, rfl⟩
    exact ⟨W, hW, crdSection_wordCrd udmStrHash32 W⟩

/-! ### What the two modes find -/

/-- The sections of the words without their last coords. -/
def singleFound (crdSort : QSort CrdLe) (urlId : ℤ) (Word : SearchWord) (l : List UdmWord) : List UdmUrlCrd :=
  (runs crdSection (crdSort.sort (l.map (wordCrd urlId Word)))).flatMap closeSection

/-- The rows of the words without their last coords. -/
def multiFound (Word : SearchWord) (cache : List UdmWordCacheWord) : List UdmUrlCrd :=
  (runs UdmWordCacheWord.key cache).flatMap fun g => closeSection (g.map (cacheCrd Word))

theorem pairwise_crdSection (l : List UdmUrlCrd) :
    (crdSort.sort l).Pairwise fun c c' => crdSection c ≤ crdSection c' := by
  refine (crdSort.sorted l).imp fun {c c'} hle => ?_
  rw [CrdLe, crdKey, crdKey, Prod.Lex.toLex_le_toLex] at hle
  rw [crdSection, crdSection, Prod.Lex.toLex_le_toLex]
  refine hle.imp_right fun hsame => ⟨hsame.1, ?_⟩
  rcases Prod.Lex.toLex_le_toLex.mp hsame.2 with hlt | ⟨heq, -⟩
  · exact le_of_lt hlt
  · exact le_of_eq heq

theorem length_singleFound (l : List UdmWord) :
    (singleFound crdSort urlId Word l).length +
      (l.map fun W => crdSection (wordCrd urlId Word W)).toFinset.card = l.length := by
  have hsorted := @pairwise_crdSection crdSort (l.map (wordCrd urlId Word))
  have hperm := crdSort.perm (l.map (wordCrd urlId Word))
  have hruns := @length_flatMap_runs _ _ _ _ crdSection (crdSort.sort (l.map (wordCrd urlId Word))) closeSection
    fun g hg => length_closeSection (ne_nil_of_mem_runs _ hg)
  rw [length_runs hsorted, hperm.length_eq, List.length_map, List.toFinset_eq_of_perm _ _ (hperm.map crdSection),
    List.map_map] at hruns
  exact hruns

theorem length_multiFound (hsorted : cache.Pairwise fun v w => v.key ≤ w.key) {l : List UdmWord}
    (hperm : cache.Perm (l.map (cacheWord udmStrHash32 urlId))) :
    (multiFound Word cache).length +
      (l.map fun W => (cacheWord udmStrHash32 urlId W).key).toFinset.card = l.length := by
  have hclose : ∀ g ∈ runs UdmWordCacheWord.key cache,
      (closeSection (g.map (cacheCrd Word))).length + 1 = g.length := by
    intro g hg
    have hne : g.map (cacheCrd Word) ≠ [] := mt List.map_eq_nil_iff.mp (ne_nil_of_mem_runs _ hg)
    rw [length_closeSection hne, List.length_map]
  have hruns := length_flatMap_runs hclose
  rw [length_runs hsorted, hperm.length_eq, List.length_map,
    List.toFinset_eq_of_perm _ _ (hperm.map UdmWordCacheWord.key), List.map_map] at hruns
  exact hruns

theorem filter_section_eq (hsorted : cache.Pairwise WcLe)
    (hperm : cache.Perm (l.map (cacheWord udmStrHash32 urlId))) (hone : OneWordPerSection l) {V : UdmWord}
    (hV : V ∈ l) :
    ((crdSort.sort (l.map (wordCrd urlId Word))).filter fun c =>
        crdSection c = sectionOfKey (cacheWord udmStrHash32 urlId V).key) =
      (cache.filter fun w => w.key = (cacheWord udmStrHash32 urlId V).key).map (cacheCrd Word) := by
  -- both have the coords of the words of `V` in its section
  have hsame : (l.filter fun W => crdSection (wordCrd urlId Word W) =
      sectionOfKey (cacheWord udmStrHash32 urlId V).key) =
      l.filter fun W => (cacheWord udmStrHash32 urlId W).key = (cacheWord udmStrHash32 urlId V).key := by
    refine List.filter_congr fun W hW => ?_
    rw [decide_eq_decide, crdSection_wordCrd udmStrHash32]
    exact ((oneWordPerSection_iff udmStrHash32 urlId).mp hone).eq_iff (key_mem_toFinset hW) (key_mem_toFinset hV)
  have hleft : ((crdSort.sort (l.map (wordCrd urlId Word))).filter fun c =>
      crdSection c = sectionOfKey (cacheWord udmStrHash32 urlId V).key).Perm
      ((l.filter fun W => (cacheWord udmStrHash32 urlId W).key = (cacheWord udmStrHash32 urlId V).key).map
        (wordCrd urlId Word)) := by
    refine ((crdSort.perm _).filter _).trans (List.Perm.of_eq ?_)
    rw [List.filter_map, ← hsame]
    rfl
  have hright : ((cache.filter fun w => w.key = (cacheWord udmStrHash32 urlId V).key).map (cacheCrd Word)).Perm
      ((l.filter fun W => (cacheWord udmStrHash32 urlId W).key = (cacheWord udmStrHash32 urlId V).key).map
        (wordCrd urlId Word)) := by
    refine ((hperm.filter _).map _).trans (List.Perm.of_eq ?_)
    rw [List.filter_map, List.map_map]
    exact List.map_congr_left fun W _ => cacheCrd_cacheWord W
  refine @eq_of_perm _ _ _ crdKey _ _ ?_ (hleft.trans hright.symm) ((crdSort.sorted _).filter _) ?_
  · intro c hc c' hc' heq
    obtain ⟨W, -, rfl⟩ := List.mem_map.mp (hright.mem_iff.mp hc)
    obtain ⟨W', -, rfl⟩ := List.mem_map.mp (hright.mem_iff.mp hc')
    simp only [crdKey, wordCrd, EmbeddingLike.apply_eq_iff_eq, Prod.mk.injEq] at heq
    rw [wordCrd, wordCrd, heq.2.1, heq.2.2]
  · refine List.pairwise_map.mpr ((hsorted.filter _).imp_of_mem fun {v w} hv hw hle => ?_)
    have hkey : v.key = w.key := by
      have hvk := (List.mem_filter.mp hv).2
      have hwk := (List.mem_filter.mp hw).2
      simp only [decide_eq_true_eq] at hvk hwk
      rw [hvk, hwk]
    have hpos : v.pos ≤ w.pos := by
      rcases Prod.Lex.toLex_le_toLex.mp hle with hlt | ⟨-, hpos⟩
      · exact absurd hkey hlt.ne
      · exact hpos
    obtain ⟨-, hsec, hurl, -⟩ := (v.key_eq_iff w).mp hkey
    simp only [crdKey, cacheCrd, hsec, hurl, Prod.Lex.toLex_le_toLex, lt_irrefl, true_and, false_or]
    exact hpos

theorem perm_singleFound_multiFound (hsorted : cache.Pairwise WcLe) (hkeys : cache.Pairwise fun v w => v.key ≤ w.key)
    (hperm : cache.Perm (l.map (cacheWord udmStrHash32 urlId))) (hone : OneWordPerSection l) :
    (singleFound crdSort urlId Word l).Perm (multiFound Word cache) := by
  have hsections : ((crdSort.sort (l.map (wordCrd urlId Word))).map crdSection).toFinset =
      (cache.map UdmWordCacheWord.key).toFinset.image sectionOfKey := by
    rw [List.toFinset_eq_of_perm _ _ ((crdSort.perm _).map crdSection),
      List.toFinset_eq_of_perm _ _ (hperm.map UdmWordCacheWord.key), List.map_map, List.map_map]
    exact sections_eq_image udmStrHash32 l
  have hinj : Set.InjOn sectionOfKey ((cache.map UdmWordCacheWord.key).toFinset : Set _) := by
    rw [List.toFinset_eq_of_perm _ _ (hperm.map UdmWordCacheWord.key), List.map_map]
    exact (oneWordPerSection_iff udmStrHash32 urlId).mp hone
  rw [← Multiset.coe_eq_coe, singleFound, multiFound, coe_flatMap_runs (pairwise_crdSection _),
    coe_flatMap_runs hkeys, hsections, Finset.sum_image hinj]
  refine Finset.sum_congr rfl fun k hk => ?_
  obtain ⟨w, hw, rfl⟩ := List.mem_map.mp (List.mem_toFinset.mp hk)
  obtain ⟨V, hV, rfl⟩ := List.mem_map.mp (hperm.mem_iff.mp hw)
  rw [filter_section_eq hsorted hperm hone hV]

theorem length_multiFound_le (hkeys : cache.Pairwise fun v w => v.key ≤ w.key) {l : List UdmWord}
    (hperm : cache.Perm (l.map (cacheWord udmStrHash32 urlId))) :
    (multiFound Word cache).length ≤ (singleFound crdSort urlId Word l).length ∧
      ((singleFound crdSort urlId Word l).length = (multiFound Word cache).length → OneWordPerSection l) := by
  have hsingle := @length_singleFound crdSort urlId Word l
  have hmulti := @length_multiFound udmStrHash32 urlId Word cache hkeys l hperm
  rw [sections_eq_image udmStrHash32] at hsingle
  have hcard := @Finset.card_image_le _ _ (l.map fun W => (cacheWord udmStrHash32 urlId W).key).toFinset sectionOfKey _
  refine ⟨by omega, fun heq => ?_⟩
  rw [oneWordPerSection_iff udmStrHash32 urlId, ← Finset.card_image_iff]
  omega

/-! ### The words of the document -/

/-- The words of the document that a query word asks for. -/
def askedWords (wf : ℕ → ℕ) (d : DocWords) (Word : SearchWord) : List UdmWord :=
  d.words.filter fun W => W.secno ≠ 0 && (Word.cmparg W.word && Word.wants wf W.secno.toNat)

theorem oneWordPerSection_foundWords :
    OneWordPerSection (foundWords wlSort saveSectionSize wf d Word) ↔ OneWordPerSection (askedWords wf d Word) := by
  have hsub : ∀ W ∈ askedWords wf d Word, W ∈ foundWords wlSort saveSectionSize wf d Word := by
    intro W hW
    obtain ⟨hmem, hasked⟩ := List.mem_filter.mp hW
    obtain ⟨hsec, hfound⟩ := Bool.and_eq_true_iff.mp hasked
    refine List.mem_filter.mpr ⟨List.mem_filter.mpr ⟨?_, hsec⟩, hfound⟩
    split
    · exact subset_udmWordListSaveSectionSize wlSort d hmem
    · exact hmem
  have hkey : ∀ W ∈ foundWords wlSort saveSectionSize wf d Word, ∃ V ∈ askedWords wf d Word, V.key = W.key := by
    intro W hW
    obtain ⟨hstored, hfound⟩ := List.mem_filter.mp hW
    obtain ⟨hmem, hsec⟩ := List.mem_filter.mp hstored
    obtain ⟨V, hV, heq⟩ : ∃ V ∈ d.words, V.key = W.key := by
      split at hmem
      · exact (mem_udmWordListSaveSectionSize hmem).2
      · exact ⟨W, hmem, rfl⟩
    refine ⟨V, List.mem_filter.mpr ⟨hV, ?_⟩, heq⟩
    obtain ⟨hword, hsame⟩ := (V.key_eq_iff W).mp heq
    rw [hword, hsame]
    exact Bool.and_eq_true_iff.mpr ⟨hsec, hfound⟩
  constructor
  · exact fun h V hV W hW => h V (hsub V hV) W (hsub W hW)
  · intro h V hV W hW hsec
    obtain ⟨V', hV', hVkey⟩ := hkey V hV
    obtain ⟨W', hW', hWkey⟩ := hkey W hW
    obtain ⟨hVword, hVsec⟩ := (V'.key_eq_iff V).mp hVkey
    obtain ⟨hWword, hWsec⟩ := (W'.key_eq_iff W).mp hWkey
    rw [← hVword, ← hWword]
    exact h V' hV' W' hW' (hVsec.trans (hsec.trans hWsec.symm))

/-! ### The limit -/

theorem udmApplyFastLimit_eq {l : List UdmUrlCrd} (hl : ∀ C ∈ l, C.urlId = urlId) :
    udmApplyFastLimit urls l = if udmURLIdListAllows urls urlId then l else [] := by
  rw [udmApplyFastLimit]
  split
  · rename_i hallows
    exact List.filter_eq_self.mpr fun C hC => by rw [hl C hC, hallows]
  · rename_i hnot
    exact List.filter_eq_nil_iff.mpr fun C hC => by rw [hl C hC]; exact hnot

theorem urlId_of_mem_closeSection {g : List UdmUrlCrd} (hg : ∀ C ∈ g, C.urlId = urlId)
    (hC : C ∈ closeSection g) : C.urlId = urlId := by
  unfold closeSection at hC
  split at hC
  · exact absurd hC List.not_mem_nil
  · obtain ⟨C', hC', rfl⟩ := List.mem_map.mp hC
    exact hg C' (List.mem_of_mem_dropLast hC')

theorem urlId_of_mem_sort (hC : C ∈ crdSort.sort (l.map (wordCrd urlId Word))) : C.urlId = urlId := by
  obtain ⟨W, -, rfl⟩ := List.mem_map.mp ((crdSort.perm _).mem_iff.mp hC)
  rfl

theorem urlId_of_mem_singleFound {l : List UdmWord} {C : UdmUrlCrd} (hC : C ∈ singleFound crdSort urlId Word l) :
    C.urlId = urlId := by
  obtain ⟨g, hg, hmem⟩ := List.mem_flatMap.mp hC
  refine urlId_of_mem_closeSection (fun c hc => ?_) hmem
  have hflat := (List.mem_flatten.mpr ⟨g, hg, hc⟩ : c ∈ (runs crdSection _).flatten)
  rw [flatten_runs] at hflat
  exact urlId_of_mem_sort hflat

theorem urlId_of_mem_multiFound {l : List UdmWord} (hperm : cache.Perm (l.map (cacheWord udmStrHash32 urlId)))
    {C : UdmUrlCrd} (hC : C ∈ multiFound Word cache) : C.urlId = urlId := by
  obtain ⟨g, hg, hmem⟩ := List.mem_flatMap.mp hC
  refine urlId_of_mem_closeSection (fun c hc => ?_) hmem
  obtain ⟨w, hw, rfl⟩ := List.mem_map.mp hc
  have hflat := (List.mem_flatten.mpr ⟨g, hg, hw⟩ : w ∈ (runs UdmWordCacheWord.key _).flatten)
  rw [flatten_runs] at hflat
  obtain ⟨W, -, rfl⟩ := List.mem_map.mp (hperm.mem_iff.mp hflat)
  rfl

end Agree

/-! ### The two modes -/

section Modes

variable (crdSort : QSort CrdLe) (wlSort : QSort WlLe) (wcSort : QSort WcLe) (udmStrHash32 : CString → ℕ)
  (bind saveSectionSize : Bool) (wf : ℕ → ℕ) (urls : UdmURLIdList) (urlId : ℤ) (d : DocWords)

/-- The document is stored and the word is searched in the mode `single`. -/
def singleMode (Word : SearchWord) : List UdmUrlCrd :=
  udmFindWordSingle crdSort saveSectionSize wf urls (storeWordsSingle wlSort saveSectionSize urlId d) Word

/-- The document is stored and the word is searched in the mode `multi`. -/
def multiMode (Word : SearchWord) : Option (List UdmUrlCrd) :=
  udmFindWordMulti udmStrHash32 saveSectionSize wf urls
    (udmStoreWordsMulti wlSort wcSort udmStrHash32 bind saveSectionSize urlId d) Word

/-- The modes find the same coords for the words of a query, each as often. -/
def DictAgrees (query : List SearchWord) : Prop :=
  ∃ found : SearchWord → List UdmUrlCrd,
    (∀ Word ∈ query,
      multiMode wlSort wcSort udmStrHash32 bind saveSectionSize wf urls urlId d Word = some (found Word)) ∧
      (query.flatMap (singleMode crdSort wlSort saveSectionSize wf urls urlId d)).Perm (query.flatMap found)

variable {saveSectionSize urls urlId}

theorem exists_multiMode_perm (h : saveSectionSize = true → udmURLIdListAllows urls urlId = false)
    (Word : SearchWord) :
    ∃ found, multiMode wlSort wcSort udmStrHash32 bind saveSectionSize wf urls urlId d Word = some found ∧
      (singleMode crdSort wlSort saveSectionSize wf urls urlId d Word).Perm found := by
  obtain ⟨found, hfound, hperm⟩ := @exists_udmFindWordMulti udmStrHash32 saveSectionSize wf urls wlSort wcSort urlId d
    bind Word
  refine ⟨found, hfound, List.Perm.trans ?_ hperm.symm⟩
  rw [singleMode, udmFindWordSingle_eq]
  simp only [udmFindWordSingleInternal_eq]
  have hcache := @perm_sortedCache_filter wlSort wcSort udmStrHash32 saveSectionSize wf urlId d Word
  cases saveSectionSize with
  | false =>
    refine List.Perm.filter _ ((crdSort.perm _).trans ?_)
    have hflat : ((runs UdmWordCacheWord.key ((sortedCache wlSort wcSort udmStrHash32 false urlId d).filter
        (Word.finds wf))).flatMap (rowFound false Word)) =
        ((sortedCache wlSort wcSort udmStrHash32 false urlId d).filter (Word.finds wf)).map (cacheCrd Word) := by
      rw [← flatten_runs UdmWordCacheWord.key (List.filter _ _), List.map_flatten, List.flatMap_def, flatten_runs]
      rfl
    rw [hflat]
    refine List.Perm.trans (List.Perm.of_eq ?_) (hcache.map (cacheCrd Word)).symm
    rw [List.map_map]
    exact List.map_congr_left fun W _ => (cacheCrd_cacheWord W).symm
  | true =>
    have hnot : ¬udmURLIdListAllows urls urlId = true := by
      rw [h rfl]
      exact Bool.false_ne_true
    rw [if_pos rfl]
    have hleft := @udmApplyFastLimit_eq urls urlId _ fun C hC => @urlId_of_mem_singleFound crdSort urlId Word
      (foundWords wlSort true wf d Word) C hC
    have hright := @udmApplyFastLimit_eq urls urlId _ fun C hC => @urlId_of_mem_multiFound udmStrHash32 urlId Word _ _
      hcache C hC
    rw [if_neg hnot] at hleft hright
    exact List.Perm.of_eq (hleft.trans hright.symm)

/-- With section lengths a query word finds as many coords in the mode `multi` as in the mode `single` where it finds
one word in a section at most, and fewer otherwise. -/
theorem exists_multiMode (hallows : udmURLIdListAllows urls urlId = true) (Word : SearchWord) :
    ∃ found, multiMode wlSort wcSort udmStrHash32 bind true wf urls urlId d Word = some found ∧
      found.length ≤ (singleMode crdSort wlSort true wf urls urlId d Word).length ∧
      ((singleMode crdSort wlSort true wf urls urlId d Word).length = found.length →
        OneWordPerSection (askedWords wf d Word)) ∧
      (OneWordPerSection (askedWords wf d Word) →
        (singleMode crdSort wlSort true wf urls urlId d Word).Perm found) := by
  obtain ⟨found, hfound, hperm⟩ := @exists_udmFindWordMulti udmStrHash32 true wf urls wlSort wcSort urlId d bind Word
  have hcache := @perm_sortedCache_filter wlSort wcSort udmStrHash32 true wf urlId d Word
  have hkeys := (@pairwise_sortedCache udmStrHash32 true wlSort wcSort urlId d).filter (Word.finds wf)
  have hsorted : ((sortedCache wlSort wcSort udmStrHash32 true urlId d).filter (Word.finds wf)).Pairwise WcLe :=
    (wcSort.sorted _).filter _
  have hsingle : singleMode crdSort wlSort true wf urls urlId d Word =
      singleFound crdSort urlId Word (foundWords wlSort true wf d Word) := by
    rw [singleMode, udmFindWordSingle_eq]
    simp only [udmFindWordSingleInternal_eq, if_true]
    refine (@udmApplyFastLimit_eq urls urlId _ fun C hC => @urlId_of_mem_singleFound crdSort urlId Word
      (foundWords wlSort true wf d Word) C hC).trans ?_
    rw [if_pos hallows]
  have hmulti : found.Perm (multiFound Word
      ((sortedCache wlSort wcSort udmStrHash32 true urlId d).filter (Word.finds wf))) := by
    refine hperm.trans (List.Perm.of_eq ?_)
    refine (@udmApplyFastLimit_eq urls urlId _ fun C hC => @urlId_of_mem_multiFound udmStrHash32 urlId Word _ _
      hcache C hC).trans ?_
    rw [if_pos hallows]
  have hle := @length_multiFound_le crdSort udmStrHash32 urlId Word _ hkeys _ hcache
  rw [hsingle]
  refine ⟨found, hfound, hmulti.length_eq ▸ hle.1, fun heq => ?_, fun hone => ?_⟩
  · exact oneWordPerSection_foundWords.mp (hle.2 (heq.trans hmulti.length_eq))
  · exact (perm_singleFound_multiFound hsorted hkeys hcache (oneWordPerSection_foundWords.mpr hone)).trans
      hmulti.symm

theorem length_eq_of_flatMap {α β : Type} {f g : α → List β} {l : List α} (hle : ∀ a ∈ l, (g a).length ≤ (f a).length)
    (heq : (l.flatMap f).length = (l.flatMap g).length) : ∀ a ∈ l, (f a).length = (g a).length := by
  have hsum : ∀ l : List α, (∀ a ∈ l, (g a).length ≤ (f a).length) →
      (l.flatMap g).length ≤ (l.flatMap f).length := by
    intro l hl
    rw [List.length_flatMap, List.length_flatMap]
    exact List.sum_le_sum hl
  induction l with
  | nil => simp
  | cons a l ih =>
    obtain ⟨ha, hl⟩ := List.forall_mem_cons.mp hle
    have hrest := hsum l hl
    rw [List.flatMap_cons, List.flatMap_cons, List.length_append, List.length_append] at heq
    exact List.forall_mem_cons.mpr ⟨by omega, ih hl (by omega)⟩

theorem oneWordPerSection_of_dictAgrees {query : List SearchWord} (hallows : udmURLIdListAllows urls urlId = true)
    (h : DictAgrees crdSort wlSort wcSort udmStrHash32 bind true wf urls urlId d query) {Word : SearchWord}
    (hWord : Word ∈ query) : OneWordPerSection (askedWords wf d Word) := by
  obtain ⟨found, hfound, hperm⟩ := h
  have hspec : ∀ Word ∈ query, (found Word).length ≤ (singleMode crdSort wlSort true wf urls urlId d Word).length ∧
      ((singleMode crdSort wlSort true wf urls urlId d Word).length = (found Word).length →
        OneWordPerSection (askedWords wf d Word)) := by
    intro Word hWord
    obtain ⟨found', hfound', hle, heq, -⟩ :=
      exists_multiMode crdSort wlSort wcSort udmStrHash32 bind wf d hallows Word
    rw [hfound Word hWord, Option.some.injEq] at hfound'
    exact hfound' ▸ ⟨hle, heq⟩
  have hlengths := length_eq_of_flatMap (fun Word hWord => (hspec Word hWord).1) hperm.length_eq
  exact (hspec Word hWord).2 (hlengths Word hWord)

/-- **When the modes agree**: with section lengths, for a document in the limit, just where every query word finds one
word in a section at most. -/
theorem dictAgrees_iff (query : List SearchWord) :
    DictAgrees crdSort wlSort wcSort udmStrHash32 bind saveSectionSize wf urls urlId d query ↔
      (saveSectionSize = true → udmURLIdListAllows urls urlId = true →
        ∀ Word ∈ query, OneWordPerSection (askedWords wf d Word)) := by
  constructor
  · rintro h rfl hallows Word hWord
    exact oneWordPerSection_of_dictAgrees crdSort wlSort wcSort udmStrHash32 bind wf d hallows h hWord
  · intro h
    have hword : ∀ Word : SearchWord, ∃ found,
        multiMode wlSort wcSort udmStrHash32 bind saveSectionSize wf urls urlId d Word = some found ∧
          (Word ∈ query → (singleMode crdSort wlSort saveSectionSize wf urls urlId d Word).Perm found) := by
      intro Word
      by_cases hboth : saveSectionSize = true ∧ udmURLIdListAllows urls urlId = true
      · obtain ⟨rfl, hallows⟩ := hboth
        obtain ⟨found, hfound, -, -, hperm⟩ :=
          exists_multiMode crdSort wlSort wcSort udmStrHash32 bind wf d hallows Word
        exact ⟨found, hfound, fun hWord => hperm (h rfl hallows Word hWord)⟩
      · obtain ⟨found, hfound, hperm⟩ := exists_multiMode_perm crdSort wlSort wcSort udmStrHash32 bind wf d
          (fun hsave => Bool.eq_false_iff.mpr fun hallows => hboth ⟨hsave, hallows⟩) Word
        exact ⟨found, hfound, fun _ => hperm⟩
    choose found hfound hperm using hword
    refine ⟨found, fun Word _ => hfound Word, ?_⟩
    clear h
    induction query with
    | nil => exact List.Perm.nil
    | cons Word query ih =>
      rw [List.flatMap_cons, List.flatMap_cons]
      exact (hperm Word List.mem_cons_self).append (ih fun W hW => hperm W (List.mem_cons_of_mem _ hW))

end Modes

/-- The words `ab` and `ac` in section 1. -/
def docAbAc : DocWords :=
  udmWordListAdd (udmWordListAdd .empty ⟨[0x61, 0x62], by decide⟩ 1) ⟨[0x61, 0x63], by decide⟩ 1

/-- The words that begin with `a`. -/
def beginA : SearchWord := ⟨⟨[0x61], zero_notMem_a⟩, .beginning, 0, 1⟩

/-- A sorting function for the words. -/
def wordSort : QSort WlLe := insertionSort WlLe (fun _ _ _ h h' => le_trans h h') fun _ _ => le_total _ _

/-- A sorting function for the cache. -/
def cacheSort : QSort WcLe := insertionSort WcLe (fun _ _ _ h h' => le_trans h h') fun _ _ => le_total _ _

/-- The modes do not always agree: two words of a section begin with `a`. -/
theorem not_forall_dictAgrees :
    ¬∀ (crdSort : QSort CrdLe) (wlSort : QSort WlLe) (wcSort : QSort WcLe) (udmStrHash32 : CString → ℕ)
        (bind saveSectionSize : Bool) (wf : ℕ → ℕ) (urls : UdmURLIdList) (urlId : ℤ) (d : DocWords)
        (query : List SearchWord),
      DictAgrees crdSort wlSort wcSort udmStrHash32 bind saveSectionSize wf urls urlId d query := by
  intro h
  have hagrees := h Score.crdSort wordSort cacheSort (fun _ => 0) false true (fun _ => 1) noUrls 7 docAbAc [beginA]
  have hone := oneWordPerSection_of_dictAgrees _ _ _ _ _ _ docAbAc rfl hagrees (List.mem_singleton_self beginA)
  have hwords : docAbAc.words = [⟨⟨[0x61, 0x62], by decide⟩, 1, 1, by decide⟩,
      ⟨⟨[0x61, 0x63], by decide⟩, 2, 1, by decide⟩] := rfl
  have hab := hone ⟨⟨[0x61, 0x62], by decide⟩, 1, 1, by decide⟩
    (List.mem_filter.mpr ⟨by rw [hwords]; exact List.mem_cons_self, by decide⟩)
    ⟨⟨[0x61, 0x63], by decide⟩, 2, 1, by decide⟩
    (List.mem_filter.mpr ⟨by rw [hwords]; exact List.mem_cons_of_mem _ List.mem_cons_self, by decide⟩) rfl
  exact absurd hab (by decide)

end MnoGoSearch.Dict
