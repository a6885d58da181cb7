import MnoGoSearch.Lib.SortProcedure
import MnoGoSearch.Segment.Chinese
import Mathlib.Data.List.Lex

/-!
# What segmentation remembers

A character that is not in the dictionary is added to it while a text is segmented, at the end of the list of words
(`chinese.c`). The list is not sorted again, although `UdmChineseListFind` is a binary search. So words that are in the
dictionary may not be found in later texts (`not_sameSegmentation`).

`sameSegmentation` says that nothing else of earlier texts is remembered: if in both runs the words of the dictionary
that stand at a place of the text are still found there, then the text is segmented alike. They are found as long as
the list is in order (`placeIntact_of_sorted`).
-/

namespace MnoGoSearch.Segment

open Lib.Sorting

/-! ## The source -/

/-- `UdmChineseListLoad`: the entries of the file are added, and the list is sorted. -/
def udmChineseListLoad (P : SortProc) (entries : List UdmChinaWord) : UdmChinaList :=
  let L := entries.foldl udmChineseListAdd ⟨[], 0, none⟩
  { L with ChiWord := P.sort (fun s1 s2 => udmUniStrCmp s1.word s2.word != .gt) L.ChiWord }

/-- The dictionary after these texts have been segmented. -/
def afterTexts (c : SegmentArgs) (D : UdmChinaList) (texts : List (List ℕ)) : Option UdmChinaList :=
  texts.foldlM (fun L text => (udmSegmentByFreq c L text).map Prod.snd) D

/-! ## What is wanted -/

/-- **A text is segmented alike after these texts and after those.** -/
def SameSegmentation (c : SegmentArgs) (D : UdmChinaList) (texts1 texts2 : List (List ℕ)) (text : List ℕ) : Prop :=
  ∀ L1 L2 r1 r2, afterTexts c D texts1 = some L1 → afterTexts c D texts2 = some L2 →
    udmSegmentByFreq c L1 text = some r1 → udmSegmentByFreq c L2 text = some r2 → r1.1 = r2.1

/-- The words of the dictionary `D`, of two characters or more, with which this text begins are found. -/
def PlaceIntact (D L : UdmChinaList) (text : List ℕ) : Prop :=
  ∀ i, 2 ≤ i → i ≤ text.length → (∃ w ∈ D.ChiWord, w.word = text.take i) →
    (udmChineseListFind L (text.take i)).isSome = true

/-- They are found at every step along a sentence. -/
def StepsIntact (D : UdmChinaList) : ℕ → UdmChinaList → List ℕ → Prop
  | 0, _, _ => True
  | fuel + 1, L, text =>
    text = [] ∨ PlaceIntact D L text ∧
      StepsIntact D fuel (chooseWord L text).List' (text.drop (chooseWord L text).i)

/-- They are found at every step along these sentences. -/
def SentencesIntact (D : UdmChinaList) : List (List ℕ) → UdmChinaList → Prop
  | [], _ => True
  | sentence :: rest, L =>
    if Segmentable L sentence then
      StepsIntact D (sentence.length + 1) L sentence ∧ SentencesIntact D rest (walk (sentence.length + 1) L sentence).2
    else SentencesIntact D rest L

/-! ## Looking up a word -/

theorem udmUniStrCmp_eq_iff (s t : List ℕ) : udmUniStrCmp s t = .eq ↔ s = t := by
  fun_induction udmUniStrCmp s t <;> simp_all

theorem udmUniStrCmp_lt_iff (s t : List ℕ) : udmUniStrCmp s t = .lt ↔ s < t := by
  fun_induction udmUniStrCmp s t with
  | case1 => exact iff_of_false (by decide) (lt_irrefl _)
  | case2 b t => exact iff_of_true rfl (List.nil_lt_cons b t)
  | case3 a s => exact iff_of_false (by decide) (List.not_lt_nil _)
  | case4 s a t ih => rw [ih, List.cons_lt_cons_iff, or_iff_right (lt_irrefl a), and_iff_right rfl]
  | case5 a s b t hne hlt => exact iff_of_true rfl (List.cons_lt_cons_iff.2 (.inl hlt))
  | case6 a s b t hne hge =>
    refine iff_of_false (by decide) fun h => ?_
    rcases List.cons_lt_cons_iff.1 h with h | ⟨h, -⟩
    · exact hge h
    · exact hne h

variable {fuel n : ℕ} {words : List UdmChinaWord} {w : UdmChinaWord} {out text : List ℕ} {rest : List (List ℕ)}
variable {c : SegmentArgs} {r : List ℕ × UdmChinaList} {D L : UdmChinaList}

theorem findLoop_some {word : List ℕ} (h : findLoop word fuel words = some w) : w ∈ words ∧ w.word = word := by
  induction fuel generalizing words with
  | zero => cases h
  | succ fuel ih =>
    rw [findLoop] at h
    split at h
    · cases h
    · rename_i middle right hdrop
      have hsub : ∀ x ∈ middle :: right, x ∈ words := fun x hx => List.drop_subset _ _ (hdrop ▸ hx)
      split at h
      · obtain ⟨hmem, heq⟩ := ih h
        exact ⟨hsub w (List.mem_cons_of_mem _ hmem), heq⟩
      · obtain ⟨hmem, heq⟩ := ih h
        exact ⟨List.take_subset _ _ hmem, heq⟩
      · rename_i hcmp
        obtain rfl := Option.some_inj.1 h
        exact ⟨hsub middle List.mem_cons_self, (udmUniStrCmp_eq_iff _ _).1 hcmp⟩

theorem findLoop_isSome (hfuel : words.length ≤ fuel)
    (hsorted : words.Pairwise fun s1 s2 => s1.word ≤ s2.word) (hw : w ∈ words) :
    (findLoop w.word fuel words).isSome = true := by
  induction fuel generalizing words with
  | zero => exact absurd (List.length_pos_of_mem hw) (by omega)
  | succ fuel ih =>
    have hpos := List.length_pos_of_mem hw
    have hsplit := List.take_append_drop ((words.length - 1) / 2) words
    have hlen := congrArg List.length hsplit
    rw [List.length_append, List.length_drop] at hlen
    rw [findLoop]
    split
    case h_1 hdrop =>
      have := congrArg List.length hdrop
      rw [List.length_drop, List.length_nil] at this
      omega
    case h_2 middle right hdrop =>
      have hright := congrArg List.length hdrop
      rw [List.length_drop, List.length_cons] at hright
      rw [hdrop] at hsplit
      rw [← hsplit, List.pairwise_append, List.pairwise_cons] at hsorted
      obtain ⟨hleft, ⟨hmid, hrest⟩, hcross⟩ := hsorted
      rw [← hsplit, List.mem_append, List.mem_cons] at hw
      split
      case h_1 hlt =>
        -- the middle is below the word
        rw [udmUniStrCmp_lt_iff] at hlt
        refine ih (by omega) hrest ?_
        rcases hw with hw | rfl | hw
        · exact absurd (hcross w hw middle List.mem_cons_self) (not_le_of_gt hlt)
        · exact absurd hlt (lt_irrefl _)
        · exact hw
      case h_2 hgt =>
        refine ih (by rw [List.length_take]; omega) hleft ?_
        rcases hw with hw | rfl | hw
        · exact hw
        · rw [(udmUniStrCmp_eq_iff _ _).2 rfl] at hgt
          cases hgt
        · rcases (hmid w hw).lt_or_eq with hlt | heq
          · rw [(udmUniStrCmp_lt_iff _ _).2 hlt] at hgt
            cases hgt
          · rw [(udmUniStrCmp_eq_iff _ _).2 heq] at hgt
            cases hgt
      case h_3 => rfl

/-- **While the list is in order, all its words are found.** -/
theorem placeIntact_of_sorted (hsub : ∀ w ∈ D.ChiWord, w ∈ L.ChiWord)
    (hsorted : L.ChiWord.Pairwise fun s1 s2 => s1.word ≤ s2.word) (text : List ℕ) : PlaceIntact D L text := by
  rintro i - - ⟨w, hw, hword⟩
  rw [← hword]
  exact findLoop_isSome le_rfl hsorted (hsub w hw)

/-! ## The dictionary of later texts -/

/-- A list that has come from the dictionary `D`: single characters have been added at its end. -/
structure Grown (D L : UdmChinaList) : Prop where
  words : ∃ added, L.ChiWord = D.ChiWord ++ added ∧ ∀ w ∈ added, w.word.length = 1
  hash : ∀ w ∈ D.ChiWord, w.word.length ≤ L.hashOf w.word
  isSome : L.hash.isSome = D.hash.isSome

theorem hashOf_setHash (L : UdmChinaList) (s t : List ℕ) (n : ℕ) :
    (L.setHash s n).hashOf t = if hashKey t = hashKey s then n else L.hashOf t := rfl

theorem Grown.setHash (h : Grown D L) (hsome : L.hash.isSome = true) {s : List ℕ}
    (hn : L.hashOf s ≤ n) : Grown D (L.setHash s n) := by
  refine ⟨h.words, fun w hw => ?_, h.isSome ▸ hsome.symm⟩
  rw [hashOf_setHash]
  split
  case isTrue hkey =>
    have hle := h.hash w hw
    rw [UdmChinaList.hashOf, hkey] at hle
    exact hle.trans hn
  case isFalse => exact h.hash w hw

theorem ChiWord_udmChineseListAdd (L : UdmChinaList) (w : UdmChinaWord) :
    (udmChineseListAdd L w).ChiWord = L.ChiWord ++ [w] := by
  rw [udmChineseListAdd]
  split <;> split <;> rfl

theorem isSome_udmChineseListAdd (L : UdmChinaList) (w : UdmChinaWord) : (udmChineseListAdd L w).hash.isSome = true := by
  rw [udmChineseListAdd]
  cases hhash : L.hash with
  | none =>
    simp only [Option.isNone_none, if_true]
    split <;> rfl
  | some f =>
    simp only [Option.isNone_some, Bool.false_eq_true, if_false]
    split
    · rfl
    · exact congrArg Option.isSome hhash

theorem hashOf_udmChineseListAdd (L : UdmChinaList) (w : UdmChinaWord) (t : List ℕ) :
    (udmChineseListAdd L w).hashOf t =
      if hashKey t = hashKey w.word then max (L.hashOf t) w.word.length else L.hashOf t := by
  have hinit : ∀ L' : UdmChinaList, L'.hash.getD (fun _ => 0) = L.hash.getD (fun _ => 0) →
      (if L'.hashOf w.word < w.word.length then L'.setHash w.word w.word.length else L').hashOf t =
        if hashKey t = hashKey w.word then max (L.hashOf t) w.word.length else L.hashOf t := by
    intro L' hL'
    have hof : ∀ s, L'.hashOf s = L.hashOf s := fun s => congrFun hL' (hashKey s)
    by_cases hkey : hashKey t = hashKey w.word
    · have ht : L.hashOf t = L.hashOf w.word := congrArg (L.hash.getD fun _ => 0) hkey
      rw [if_pos hkey, ht]
      split
      case isTrue hlt => rw [hashOf_setHash, if_pos hkey, max_eq_right (hof w.word ▸ hlt.le)]
      case isFalse hge => rw [hof, ht, max_eq_left (hof w.word ▸ not_lt.1 hge)]
    · rw [if_neg hkey]
      split
      · rw [hashOf_setHash, if_neg hkey, hof]
      · exact hof t
  rw [udmChineseListAdd]
  apply hinit
  cases hhash : L.hash with
  | none => rfl
  | some f => exact congrArg (fun o : Option (ℕ → ℕ) => o.getD fun _ => 0) hhash

theorem hashOf_le_add (L : UdmChinaList) (w : UdmChinaWord) (t : List ℕ) :
    L.hashOf t ≤ (udmChineseListAdd L w).hashOf t := by
  rw [hashOf_udmChineseListAdd]
  split
  · exact le_max_left _ _
  · exact le_rfl

theorem Grown.add (h : Grown D L) (hsome : L.hash.isSome = true)
    (hw : w.word.length = 1) : Grown D (udmChineseListAdd L w) := by
  obtain ⟨added, hadded, hone⟩ := h.words
  refine ⟨⟨added ++ [w], by rw [ChiWord_udmChineseListAdd, hadded, List.append_assoc], fun v hv => ?_⟩,
    fun v hv => (h.hash v hv).trans (hashOf_le_add L w v.word),
    (isSome_udmChineseListAdd L w).trans (h.isSome.symm.trans hsome).symm⟩
  rcases List.mem_append.1 hv with hv | hv
  · exact hone v hv
  · rw [List.mem_singleton.1 hv, hw]

theorem Grown.chooseWord (h : Grown D L) (hsome : L.hash.isSome = true)
    (hne : text ≠ []) : Grown D (chooseWord L text).List' ∧ (chooseWord L text).List'.hash.isSome = true := by
  have hset : ∀ L' : UdmChinaList, L' = (if L.hashOf text = 0 then L.setHash text 1 else L) →
      Grown D L' ∧ L'.hash.isSome = true := by
    rintro L' rfl
    split
    case isTrue hzero => exact ⟨h.setHash hsome (hzero ▸ Nat.zero_le 1), rfl⟩
    case isFalse => exact ⟨h, hsome⟩
  obtain ⟨hgrown, hsome'⟩ := hset _ rfl
  have hone : (text.take 1).length = 1 := by
    have := List.length_pos_iff.2 hne
    rw [List.length_take]
    omega
  rw [Segment.chooseWord]
  split
  · exact ⟨hgrown, hsome'⟩
  · have hadd := hgrown.add hsome' (w := ⟨text.take 1, 1⟩) hone
    exact ⟨hadd, hadd.isSome.trans (hgrown.isSome.symm.trans hsome')⟩

theorem Grown.walk (h : Grown D L) (hsome : L.hash.isSome = true) (fuel : ℕ) (text : List ℕ) :
    Grown D (walk fuel L text).2 ∧ (walk fuel L text).2.hash.isSome = true := by
  induction fuel generalizing L text with
  | zero => exact ⟨h, hsome⟩
  | succ fuel ih =>
    rw [Segment.walk]
    split
    case isTrue => exact ⟨h, hsome⟩
    case isFalse hne =>
      obtain ⟨hgrown, hsome'⟩ := h.chooseWord hsome hne
      exact ih hgrown hsome' _

theorem udmSegmentProcess_walk {sentence : List ℕ} (hseg : Segmentable L sentence)
    (h : udmSegmentProcess c L sentence = some r) : r = walk (sentence.length + 1) L sentence := by
  by_cases hcount : StepsCount (sentence.length + 1) L sentence
  · rw [(udmSegmentProcess_eq L sentence).1 hseg hcount] at h
    exact (Option.some_inj.1 h).symm
  · rw [(udmSegmentProcess_eq L sentence).2 hseg hcount] at h
    cases h

theorem Grown.segmentSentences (h : Grown D L) (hrun : segmentSentences c rest out L = some r) : Grown D r.2 := by
  induction rest generalizing out L with
  | nil =>
    cases hrun
    exact h
  | cons sentence rest ih =>
    rw [Segment.segmentSentences, Option.bind_eq_some_iff] at hrun
    obtain ⟨⟨segmented, L'⟩, hprocess, hrun⟩ := hrun
    refine ih ?_ hrun
    by_cases hseg : Segmentable L sentence
    · have hL' : L' = (Segment.walk (sentence.length + 1) L sentence).2 :=
        congrArg Prod.snd (udmSegmentProcess_walk hseg hprocess)
      rw [hL']
      exact (h.walk hseg.2 _ _).1
    · rw [udmSegmentProcess, if_neg hseg] at hprocess
      cases hprocess
      exact h

theorem Grown.afterTexts {L' : UdmChinaList} (h : Grown D L) {texts : List (List ℕ)}
    (hrun : Segment.afterTexts c L texts = some L') : Grown D L' := by
  induction texts generalizing L with
  | nil =>
    cases hrun
    exact h
  | cons text texts ih =>
    rw [Segment.afterTexts, List.foldlM_cons, Option.bind_eq_bind, Option.bind_eq_some_iff] at hrun
    obtain ⟨L1, htext, hrun⟩ := hrun
    obtain ⟨r, hr, rfl⟩ := Option.map_eq_some_iff.1 htext
    exact ih (h.segmentSentences hr) hrun

theorem grown_udmChineseListLoad (P : SortProc) (entries : List UdmChinaWord) :
    Grown (udmChineseListLoad P entries) (udmChineseListLoad P entries) := by
  have hadded : ∀ (entries : List UdmChinaWord) (L : UdmChinaList),
      (∀ w ∈ L.ChiWord, w.word.length ≤ L.hashOf w.word) →
        ∀ w ∈ (entries.foldl udmChineseListAdd L).ChiWord,
          w.word.length ≤ (entries.foldl udmChineseListAdd L).hashOf w.word := by
    intro entries
    induction entries with
    | nil => exact fun L h => h
    | cons v entries ih =>
      refine fun L h => ih _ fun w hw => ?_
      rw [ChiWord_udmChineseListAdd, List.mem_append, List.mem_singleton] at hw
      rcases hw with hw | rfl
      · exact (h w hw).trans (hashOf_le_add L v w.word)
      · rw [hashOf_udmChineseListAdd, if_pos rfl]
        exact le_max_right _ _
  refine ⟨⟨[], (List.append_nil _).symm, fun w hw => absurd hw List.not_mem_nil⟩, fun w hw => ?_, rfl⟩
  have hmem : w ∈ (entries.foldl udmChineseListAdd ⟨[], 0, none⟩).ChiWord :=
    (P.perm_sort (fun s1 s2 : UdmChinaWord => udmUniStrCmp s1.word s2.word != .gt) _).mem_iff.1 hw
  exact hadded entries ⟨[], 0, none⟩ (fun w hw => absurd hw List.not_mem_nil) w hmem

/-! ## The way through a text -/

/-- The length of the word with which a text begins in the dictionary `D`: the longest one of two characters or more,
or one character. -/
def dictionaryWord (D : UdmChinaList) (text : List ℕ) : ℕ → ℕ
  | 0 => 1
  | 1 => 1
  | i + 2 => if ∃ w ∈ D.ChiWord, w.word = text.take (i + 2) then i + 2 else dictionaryWord D text (i + 1)

/-- The text with spaces between the words of the dictionary `D`. -/
def dictionaryWalk (D : UdmChinaList) : ℕ → List ℕ → List ℕ
  | 0, _ => []
  | fuel + 1, text =>
    if text = [] then []
    else 32 :: text.take (dictionaryWord D text text.length) ++
      dictionaryWalk D fuel (text.drop (dictionaryWord D text text.length))

/-- The sentences with spaces between the words of the dictionary `D`. -/
def dictionarySentences (D : UdmChinaList) : List (List ℕ) → List ℕ → List ℕ
  | [], out => out
  | sentence :: rest, out =>
    dictionarySentences D rest ((if out = [] then [] else out ++ [32]) ++
      if Segmentable D sentence then dictionaryWalk D (sentence.length + 1) sentence else sentence)

/-- The length of what `longestWord` has found. -/
def foundLength : Option (ℕ × UdmChinaWord) → ℕ
  | some (i + 1, _) => i + 1
  | _ => 1

theorem chooseWord_i_eq (L : UdmChinaList) (text : List ℕ) :
    (chooseWord L text).i = foundLength (longestWord L text
      (min ((if L.hashOf text = 0 then L.setHash text 1 else L).hashOf text) text.length)) := by
  have hfind : ∀ n, longestWord (if L.hashOf text = 0 then L.setHash text 1 else L) text n = longestWord L text n := by
    intro n
    split
    · induction n with
      | zero => rfl
      | succ n ih =>
        rw [longestWord, longestWord, ih]
        rfl
    · rfl
  rw [chooseWord, hfind]
  generalize longestWord L text _ = found
  rcases found with _ | ⟨i, w⟩
  · rfl
  · cases i <;> rfl

theorem foundLength_longestWord (h : Grown D L) (hintact : PlaceIntact D L text)
    (hn : n ≤ text.length) : foundLength (longestWord L text n) = dictionaryWord D text n := by
  have hzero : foundLength (longestWord L text 0) = 1 := by
    rw [longestWord]
    cases udmChineseListFind L [] <;> rfl
  induction n using dictionaryWord.induct D text with
  | case1 => exact hzero
  | case2 =>
    rw [longestWord, dictionaryWord]
    split
    · rfl
    · exact hzero
  | case3 i hin =>
    rw [longestWord, dictionaryWord, if_pos hin]
    obtain ⟨w, hw⟩ := Option.isSome_iff_exists.1 (hintact (i + 2) (by omega) hn hin)
    rw [hw]
    rfl
  | case4 i hout ih =>
    rw [longestWord, dictionaryWord, if_neg hout]
    split
    case h_1 w hw =>
      obtain ⟨hmem, hword⟩ := findLoop_some hw
      obtain ⟨added, hadded, hone⟩ := h.words
      rw [hadded, List.mem_append] at hmem
      rcases hmem with hmem | hmem
      · exact absurd ⟨w, hmem, hword⟩ hout
      · have hlen := hone w hmem
        rw [hword, List.length_take] at hlen
        omega
    case h_2 => exact ih (by omega)

theorem dictionaryWord_stop {m : ℕ} (hn : 1 ≤ n) (hle : n ≤ m)
    (hout : ∀ i, n < i → i ≤ m → ¬ ∃ w ∈ D.ChiWord, w.word = text.take i) :
    dictionaryWord D text m = dictionaryWord D text n := by
  induction m, hle using Nat.le_induction with
  | base => rfl
  | succ m hle ih =>
    obtain ⟨k, rfl⟩ : ∃ k, m = k + 1 := ⟨m - 1, by omega⟩
    rw [dictionaryWord, if_neg (hout (k + 2) (by omega) le_rfl)]
    exact ih fun i h1 h2 => hout i h1 (by omega)

/-- **A step where the words of the dictionary are found** is the step with the dictionary. -/
theorem chooseWord_i_dictionary (h : Grown D L) (hne : text ≠ [])
    (hintact : PlaceIntact D L text) : (chooseWord L text).i = dictionaryWord D text text.length := by
  rw [chooseWord_i_eq]
  generalize hn : (if L.hashOf text = 0 then L.setHash text 1 else L).hashOf text = n
  have hhash : L.hashOf text ≤ n ∧ 1 ≤ n := by
    rw [← hn]
    split
    case isTrue hzero =>
      rw [hzero, hashOf_setHash, if_pos rfl]
      exact ⟨Nat.zero_le 1, le_rfl⟩
    case isFalse hpos => exact ⟨le_rfl, Nat.pos_of_ne_zero hpos⟩
  have hlen := List.length_pos_iff.2 hne
  rw [foundLength_longestWord h hintact (Nat.min_le_right _ _)]
  refine (dictionaryWord_stop (by omega) (Nat.min_le_right _ _) fun i h1 h2 => ?_).symm
  rintro ⟨w, hw, hword⟩
  -- `hash` has the length of the longest word with the same first character
  have hkey : L.hashOf w.word = L.hashOf text := by
    rw [UdmChinaList.hashOf, UdmChinaList.hashOf, hashKey, hashKey, hword]
    obtain ⟨k, rfl⟩ : ∃ k, i = k + 1 := ⟨i - 1, by omega⟩
    cases text with
    | nil => exact absurd rfl hne
    | cons a text => rfl
  have hle := h.hash w hw
  rw [hkey, hword, List.length_take] at hle
  omega

theorem walk_dictionary (h : Grown D L) (hsome : L.hash.isSome = true)
    (hintact : StepsIntact D fuel L text) : (walk fuel L text).1 = dictionaryWalk D fuel text := by
  induction fuel generalizing L text with
  | zero => rfl
  | succ fuel ih =>
    rw [walk, dictionaryWalk]
    split
    case isTrue => rfl
    case isFalse hne =>
      obtain ⟨hplace, hrest⟩ := hintact.resolve_left hne
      obtain ⟨hgrown, hsome'⟩ := h.chooseWord hsome hne
      have hi := chooseWord_i_dictionary h hne hplace
      dsimp only
      rw [ih hgrown hsome' hrest, hi]

theorem segmentSentences_dictionary (h : Grown D L) (hintact : SentencesIntact D rest L)
    (hrun : segmentSentences c rest out L = some r) : r.1 = dictionarySentences D rest out := by
  induction rest generalizing out L with
  | nil =>
    cases hrun
    rfl
  | cons sentence rest ih =>
    rw [segmentSentences, Option.bind_eq_some_iff] at hrun
    obtain ⟨⟨segmented, L'⟩, hprocess, hrun⟩ := hrun
    rw [SentencesIntact] at hintact
    have hsegD : Segmentable D sentence ↔ Segmentable L sentence := by rw [Segmentable, Segmentable, h.isSome]
    rw [dictionarySentences]
    by_cases hseg : Segmentable L sentence
    · rw [if_pos hseg] at hintact
      obtain ⟨hsteps, hrest⟩ := hintact
      obtain ⟨rfl, rfl⟩ := Prod.mk.inj (udmSegmentProcess_walk hseg hprocess : (segmented, L') = _)
      rw [if_pos (hsegD.2 hseg), ← walk_dictionary h hseg.2 hsteps]
      exact ih (h.walk hseg.2 _ _).1 hrest hrun
    · rw [if_neg hseg] at hintact
      rw [udmSegmentProcess, if_neg hseg] at hprocess
      cases hprocess
      rw [if_neg (hseg ∘ hsegD.1)]
      exact ih h hintact hrun

/-- **A text is segmented alike after all earlier texts**, as long as the words of the dictionary that stand at a place
of the text are found there. -/
theorem sameSegmentation (c : SegmentArgs) (P : SortProc) (entries : List UdmChinaWord) {texts1 texts2 : List (List ℕ)}
    {text : List ℕ}
    (h1 : ∀ L, afterTexts c (udmChineseListLoad P entries) texts1 = some L →
      SentencesIntact (udmChineseListLoad P entries) (sentences c text) L)
    (h2 : ∀ L, afterTexts c (udmChineseListLoad P entries) texts2 = some L →
      SentencesIntact (udmChineseListLoad P entries) (sentences c text) L) :
    SameSegmentation c (udmChineseListLoad P entries) texts1 texts2 text := by
  intro L1 L2 r1 r2 hafter1 hafter2 hrun1 hrun2
  have hgrown := grown_udmChineseListLoad P entries
  rw [segmentSentences_dictionary (hgrown.afterTexts hafter1) (h1 L1 hafter1) hrun1,
    segmentSentences_dictionary (hgrown.afterTexts hafter2) (h2 L2 hafter2) hrun2]

/-! ## A dictionary with one word -/

/-- One word of two characters. -/
def oneWord : List UdmChinaWord := [⟨[0x4E00, 0x4E01], 5⟩]

theorem sentencesIntact_oneWord (h : Grown (udmChineseListLoad .forward oneWord) L)
    (hsorted : L.ChiWord.Pairwise fun s1 s2 => s1.word ≤ s2.word) :
    SentencesIntact (udmChineseListLoad .forward oneWord) (sentences plainArgs [0x4E00, 0x4E01]) L := by
  have hplace : PlaceIntact (udmChineseListLoad .forward oneWord) L [0x4E00, 0x4E01] := by
    refine placeIntact_of_sorted (fun w hw => ?_) hsorted _
    obtain ⟨added, hadded, -⟩ := h.words
    exact hadded ▸ List.mem_append_left _ hw
  have hi : (chooseWord L [0x4E00, 0x4E01]).i = 2 :=
    (chooseWord_i_dictionary h (List.cons_ne_nil _ _) hplace).trans (by decide +kernel)
  rw [show sentences plainArgs [0x4E00, 0x4E01] = [[0x4E00, 0x4E01]] from rfl, SentencesIntact]
  split
  · exact ⟨.inr ⟨hplace, .inl (by rw [hi]; rfl)⟩, trivial⟩
  · trivial

/-- A greater character has been added. -/
theorem sameSegmentation_oneWord :
    SameSegmentation plainArgs (udmChineseListLoad .forward oneWord) [] [[0x4E02]] [0x4E00, 0x4E01] := by
  have hgrown := grown_udmChineseListLoad .forward oneWord
  refine sameSegmentation plainArgs .forward oneWord (fun L hL => ?_) (fun L hL => ?_)
  · refine sentencesIntact_oneWord (hgrown.afterTexts hL) ?_
    rw [← Option.some_inj.1 hL, show (udmChineseListLoad .forward oneWord).ChiWord = oneWord by decide +kernel]
    exact List.pairwise_singleton _ _
  · refine sentencesIntact_oneWord (hgrown.afterTexts hL) ?_
    have hwords : (afterTexts plainArgs (udmChineseListLoad .forward oneWord) [[0x4E02]]).map UdmChinaList.ChiWord =
        some (oneWord ++ [⟨[0x4E02], 1⟩]) := by decide +kernel
    rw [hL, Option.map_some, Option.some_inj] at hwords
    rw [hwords]
    exact List.pairwise_pair.2 (by decide)

/-- Two lesser characters have been added: the word is not found any more. -/
theorem not_sameSegmentation :
    ¬ SameSegmentation plainArgs (udmChineseListLoad .forward oneWord) [] [[0xC8, 0xC9]] [0x4E00, 0x4E01] := by
  intro h
  have hfirst : (udmSegmentByFreq plainArgs (udmChineseListLoad .forward oneWord) [0x4E00, 0x4E01]).map Prod.fst =
      some [32, 0x4E00, 0x4E01] := by decide +kernel
  have hlater : ((afterTexts plainArgs (udmChineseListLoad .forward oneWord) [[0xC8, 0xC9]]).bind fun L =>
      (udmSegmentByFreq plainArgs L [0x4E00, 0x4E01]).map Prod.fst) = some [32, 0x4E00, 32, 0x4E01] := by
    decide +kernel
  obtain ⟨r1, hr1, hout1⟩ := Option.map_eq_some_iff.1 hfirst
  obtain ⟨L2, hL2, hrun2⟩ := Option.bind_eq_some_iff.1 hlater
  obtain ⟨r2, hr2, hout2⟩ := Option.map_eq_some_iff.1 hrun2
  have heq := h _ L2 r1 r2 rfl hL2 hr1 hr2
  rw [hout1, hout2] at heq
  exact absurd heq (by decide)

end MnoGoSearch.Segment
