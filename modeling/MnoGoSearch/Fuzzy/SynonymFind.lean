import MnoGoSearch.Fuzzy.WideWord
import MnoGoSearch.Lib.Sorting
import Mathlib

/-!
# Synonyms of a word

`UdmSynonymListFind` (`synonym.c`) looks for a word in a sorted list of synonyms by binary search. From
the entry on which the search lands it goes in both directions as long as the entries are of the word, and
adds their right sides. Then it does the same with every word in the list of results, as long as it was when
this began. `udmSynonymListFind_right` says what is added: every right side of the word once for each entry, then
the right sides of the words in the list that are not final.

A result `none` means that an entry outside of the list is read.
-/

namespace MnoGoSearch.Fuzzy

open Query (UdmWordOrigin)
open Words (CString strcmp strcmp_eq_eq strcmp_ne_gt searchable_strcmp)
open Lib.BinarySearch (bsearch bsearch_zipIdx_some bsearch_zipIdx_none)
open Lib.Sorting (QSort exists_split filter_split exists_middle)

/-! ### The code -/

/-- `UDM_SYNONYM`. -/
structure UdmSynonym where
  p : CString
  s : CString
  /-- The origin of what is found. -/
  origin : UdmWordOrigin
  /-- `AddSynonym` stores no other. -/
  synonym : origin = .synonym ∨ origin = .synonymFinal
  /-- `AddSynonym` makes it final when the left side is of several words. -/
  phrase : 0x20 ∈ p.val → origin = .synonymFinal
  deriving DecidableEq

/-- `UDM_SYNONYMLIST`. -/
structure UdmSynonymList where
  items : List UdmSynonym
  /-- The number of spaces in the left side that has most of them. -/
  maxPhraseLength : ℕ

/-- `cmpsyn`. -/
def cmpsyn (s1 s2 : UdmSynonym) : Ordering := strcmp s1.p s2.p

/-- The order of `cmpsyn`. -/
def SynonymLe (s1 s2 : UdmSynonym) : Prop := cmpsyn s1 s2 ≠ .gt

instance : DecidableRel SynonymLe := fun s1 s2 => inferInstanceAs (Decidable (cmpsyn s1 s2 ≠ .gt))

/-- `UdmSynonymListSort`. -/
def udmSynonymListSort (sort : QSort SynonymLe) (l : UdmSynonymList) : UdmSynonymList :=
  { l with items := sort.sort l.items }

/-- `UdmWideWordListAddSynonym`. -/
def udmWideWordListAddSynonym (pattern : UdmWideWord) (Res : List UdmWideWord) (syn : UdmSynonym) : List UdmWideWord :=
  udmWideWordListAddLike Res { pattern with origin := syn.origin } syn.s

/-- `UdmWideWordListAddSynonymIterate`, at most `fuel` rounds. -/
@[grind =]
def udmWideWordListAddSynonymIterate (items : List UdmSynonym) (pattern : UdmWideWord) (word : CString) (direction : ℤ) :
    ℕ → ℤ → List UdmWideWord → Option (List UdmWideWord)
  | 0, _, _ => none
  | fuel + 1, medium, Res =>
    if 0 ≤ medium ∧ medium < items.length then
      (items[medium.toNat]?).bind fun syn =>
        if word ≠ syn.p then some Res
        else udmWideWordListAddSynonymIterate items pattern word direction fuel (medium + direction)
          (udmWideWordListAddSynonym pattern Res syn)
    else some Res

/-- `UdmBSearch` for the left side `word`: the entry and its place. -/
def searchSynonym (items : List UdmSynonym) (word : CString) : Option (UdmSynonym × ℕ) :=
  bsearch (fun w (x : UdmSynonym × ℕ) => strcmp w x.1.p) word items.zipIdx

/-- Both directions from the entry at `res`. -/
def addFrom (items : List UdmSynonym) (pattern : UdmWideWord) (word : CString) (res : ℕ) (Res : List UdmWideWord) :
    Option (List UdmWideWord) :=
  (udmWideWordListAddSynonymIterate items pattern word (-1) (items.length + 1) res Res).bind
    (udmWideWordListAddSynonymIterate items pattern word 1 (items.length + 1) (res + 1))

/-- One round of the second loop of `UdmSynonymListFind`, for the item at the place `i`. -/
def findAgain (items : List UdmSynonym) (wword : UdmWideWord) (Res : List UdmWideWord) (i : ℕ) :
    Option (List UdmWideWord) :=
  (Res[i]?).bind fun ww =>
    if ww.origin = .synonymFinal then some Res
    else
      match searchSynonym items ww.word with
      | none => some Res
      | some (_, res) => addFrom items wword ww.word res Res

/-- `UdmSynonymListFind`. -/
def udmSynonymListFind (Res : List UdmWideWord) (l : UdmSynonymList) (wword : UdmWideWord) :
    Option (List UdmWideWord) :=
  if l.items = [] ∨ wword.origin = .synonymFinal then some Res
  else
    match searchSynonym l.items wword.word with
    | none => some Res
    | some (_, res) =>
      (addFrom l.items wword wword.word res Res).bind fun Res =>
        -- the loop ends at the number of words that there are now
        (List.range Res.length).foldlM (findAgain l.items wword) Res

/-! ### The entries that are found -/

/-- The entries of a word in the order in which they are found. -/
def found (items : List UdmSynonym) (word : CString) : List UdmSynonym :=
  match searchSynonym items word with
  | none => []
  | some (_, res) =>
    ((items.take (res + 1)).reverse.takeWhile fun syn => syn.p = word) ++
      (items.drop (res + 1)).takeWhile fun syn => syn.p = word

theorem iterate_down (items : List UdmSynonym) (pattern : UdmWideWord) (word : CString) (fuel k : ℕ) (hk : k ≤ items.length)
    (hfuel : k < fuel) (Res : List UdmWideWord) :
    udmWideWordListAddSynonymIterate items pattern word (-1) fuel ((k : ℤ) - 1) Res =
      some (((items.take k).reverse.takeWhile fun syn => syn.p = word).foldl (udmWideWordListAddSynonym pattern) Res) := by
  induction k generalizing fuel Res with
  | zero =>
    obtain ⟨fuel, rfl⟩ := Nat.exists_eq_add_of_lt hfuel
    rw [udmWideWordListAddSynonymIterate, if_neg (by omega)]
    rfl
  | succ k ih =>
    obtain ⟨fuel, rfl⟩ : ∃ f, fuel = f + 1 := ⟨fuel - 1, by omega⟩
    have hlt : k < items.length := hk
    have hmedium : ((k + 1 : ℕ) : ℤ) - 1 = k := by omega
    rw [udmWideWordListAddSynonymIterate, hmedium, if_pos ⟨by omega, by omega⟩, Int.toNat_natCast,
      List.getElem?_eq_getElem hlt, Option.bind_some, List.take_succ_eq_append_getElem hlt, List.reverse_append,
      List.reverse_singleton, List.singleton_append]
    by_cases hp : items[k].p = word
    · rw [if_neg (by rw [hp]; exact not_not.mpr rfl), List.takeWhile_cons_of_pos (by simpa using hp), List.foldl_cons]
      exact ih _ (by omega) (by omega) _
    · rw [if_pos (Ne.symm hp), List.takeWhile_cons_of_neg (by simpa using hp)]
      rfl

theorem iterate_up (items : List UdmSynonym) (pattern : UdmWideWord) (word : CString) (fuel k : ℕ) (hpos : 0 < fuel)
    (hfuel : items.length < fuel + k) (Res : List UdmWideWord) :
    udmWideWordListAddSynonymIterate items pattern word 1 fuel k Res =
      some (((items.drop k).takeWhile fun syn => syn.p = word).foldl (udmWideWordListAddSynonym pattern) Res) := by
  induction fuel generalizing k Res with
  | zero => exact absurd hpos (lt_irrefl 0)
  | succ fuel ih =>
    rw [udmWideWordListAddSynonymIterate]
    rcases Nat.lt_or_ge k items.length with hlt | hge
    · have hmedium : (k : ℤ) + 1 = (k + 1 : ℕ) := by omega
      rw [if_pos ⟨by omega, by omega⟩, Int.toNat_natCast, List.getElem?_eq_getElem hlt, Option.bind_some, hmedium,
        List.drop_eq_getElem_cons hlt]
      by_cases hp : items[k].p = word
      · rw [if_neg (by rw [hp]; exact not_not.mpr rfl), List.takeWhile_cons_of_pos (by simpa using hp), List.foldl_cons]
        exact ih _ (by omega) (by omega) _
      · rw [if_pos (Ne.symm hp), List.takeWhile_cons_of_neg (by simpa using hp)]
        rfl
    · rw [if_neg (by omega), List.drop_eq_nil_of_le hge]
      rfl

variable {items : List UdmSynonym} {word : CString} {i res : ℕ} {syn : UdmSynonym}

theorem searchSynonym_lt {x : UdmSynonym × ℕ} (h : searchSynonym items word = some x) : x.2 < items.length :=
  (List.getElem?_eq_some_iff.mp (bsearch_zipIdx_some (fun w (syn : UdmSynonym) => strcmp w syn.p) h).1).1

theorem found_ne_nil (h : searchSynonym items word = some (syn, res)) : found items word ≠ [] := by
  obtain ⟨hat, heq⟩ := bsearch_zipIdx_some (fun w (syn : UdmSynonym) => strcmp w syn.p) h
  obtain ⟨hlt, rfl⟩ := List.getElem?_eq_some_iff.mp hat
  have hp : items[res].p = word := (strcmp_eq_eq.mp heq).symm
  rw [found, h]
  dsimp only
  rw [List.take_succ_eq_append_getElem hlt, List.reverse_append, List.reverse_singleton, List.singleton_append,
    List.takeWhile_cons_of_pos (by simpa using hp)]
  exact List.cons_ne_nil _ _

/-- **Both directions** add the entries of the word, and read in the list. -/
theorem addFrom_eq (h : searchSynonym items word = some (syn, res)) (pattern : UdmWideWord) (Res : List UdmWideWord) :
    addFrom items pattern word res Res = some ((found items word).foldl (udmWideWordListAddSynonym pattern) Res) := by
  have hlt : res < items.length := searchSynonym_lt h
  have hdown := iterate_down items pattern word (items.length + 1) (res + 1) hlt (by omega) Res
  rw [show ((res + 1 : ℕ) : ℤ) - 1 = res by omega] at hdown
  rw [addFrom, hdown, Option.bind_some]
  have hup := iterate_up items pattern word (items.length + 1) (res + 1) (by omega) (by omega)
    (((items.take (res + 1)).reverse.takeWhile fun syn => syn.p = word).foldl (udmWideWordListAddSynonym pattern) Res)
  rw [show ((res + 1 : ℕ) : ℤ) = (res : ℤ) + 1 by omega] at hup
  rw [hup, found, h]
  dsimp only
  rw [List.foldl_append]

theorem takeWhile_all_append {B C : List UdmSynonym} (hB : ∀ syn ∈ B, syn.p = word)
    (hC : ∀ syn ∈ C, syn.p ≠ word) : ((B ++ C).takeWhile fun syn => syn.p = word) = B := by
  rw [List.takeWhile_append_of_pos fun syn hsyn => by simpa using hB syn hsyn]
  cases C with
  | nil => rw [List.takeWhile_nil, List.append_nil]
  | cons syn C => rw [List.takeWhile_cons_of_neg (by simpa using hC syn List.mem_cons_self), List.append_nil]

/-- **Every entry of the word is found once** in a sorted list. -/
theorem found_perm (h : items.Pairwise SynonymLe) (word : CString) :
    (found items word).Perm (items.filter fun syn => syn.p = word) := by
  have hsorted : items.Pairwise fun s1 s2 => s1.p ≤ s2.p := h.imp strcmp_ne_gt.mp
  rw [found]
  cases hsearch : searchSynonym items word with
  | none =>
    have hnone : ∀ syn ∈ items, syn.p ≠ word := fun syn hsyn heq =>
      bsearch_zipIdx_none (fun w (syn : UdmSynonym) => strcmp w syn.p) (searchable_strcmp word hsorted) hsearch hsyn
        (strcmp_eq_eq.mpr heq.symm)
    rw [List.filter_eq_nil_iff.mpr fun syn hsyn => by simpa using hnone syn hsyn]
  | some x =>
    obtain ⟨syn, res⟩ := x
    obtain ⟨hat, heq⟩ := bsearch_zipIdx_some (fun w (syn : UdmSynonym) => strcmp w syn.p) hsearch
    obtain ⟨A, B, C, hitems, hA', hB, hC'⟩ := exists_split hsorted word
    have hA : ∀ syn ∈ A, syn.p ≠ word := fun syn hsyn => (hA' syn hsyn).ne
    have hC : ∀ syn ∈ C, syn.p ≠ word := fun syn hsyn => (hC' syn hsyn).ne'
    rw [hitems] at hat
    obtain ⟨j, hj, rfl⟩ := exists_middle hA hC hat (strcmp_eq_eq.mp heq).symm
    have htake : items.take (A.length + j + 1) = A ++ B.take (j + 1) := by
      rw [hitems, List.append_assoc, Nat.add_assoc, List.take_length_add_append, List.take_append_of_le_length hj]
    have hdrop : items.drop (A.length + j + 1) = B.drop (j + 1) ++ C := by
      rw [hitems, List.append_assoc, Nat.add_assoc, List.drop_length_add_append, List.drop_append_of_le_length hj]
    dsimp only
    rw [htake, hdrop, List.reverse_append,
      takeWhile_all_append (fun syn hsyn => hB syn (List.mem_of_mem_take (List.mem_reverse.mp hsyn)))
        (fun syn hsyn => hA syn (List.mem_reverse.mp hsyn)),
      takeWhile_all_append (fun syn hsyn => hB syn (List.mem_of_mem_drop hsyn)) hC, hitems, filter_split hA hB hC]
    calc ((B.take (j + 1)).reverse ++ B.drop (j + 1)).Perm (B.take (j + 1) ++ B.drop (j + 1)) :=
          (List.reverse_perm _).append_right _
      _ = B := List.take_append_drop _ _

/-! ### The words that are found -/

theorem map_tag_foldl (pattern : UdmWideWord) (E : List UdmSynonym) (L : List UdmWideWord) :
    L.map UdmWideWord.tag <+: (E.foldl (udmWideWordListAddSynonym pattern) L).map UdmWideWord.tag := by
  induction E generalizing L with
  | nil => exact List.prefix_rfl
  | cons syn E ih =>
    refine (map_tag_add ?_ ?_ L).trans (ih _)
    · rcases syn.synonym with h | h <;> simp [h]
    · rcases syn.synonym with h | h <;> simp [h]

theorem mem_words_foldl (pattern : UdmWideWord) (E : List UdmSynonym) (L : List UdmWideWord) (w : CString) :
    w ∈ (E.foldl (udmWideWordListAddSynonym pattern) L).map UdmWideWord.word ↔
      w ∈ L.map UdmWideWord.word ∨ w ∈ E.map UdmSynonym.s := by
  induction E generalizing L with
  | nil => simp
  | cons syn E ih =>
    have hadd : w ∈ (udmWideWordListAddSynonym pattern L syn).map UdmWideWord.word ↔
        w ∈ L.map UdmWideWord.word ∨ syn.s = w := mem_words_add L _ w
    rw [List.foldl_cons, ih, hadd, List.map_cons, List.mem_cons, or_assoc, @eq_comm _ w syn.s]

theorem exists_getElem?_of_map_tag {L L' : List UdmWideWord} (h : L.map UdmWideWord.tag <+: L'.map UdmWideWord.tag)
    (hi : i < L.length) : ∃ W, L'[i]? = some W ∧ W.tag = L[i].tag := by
  have hat := List.prefix_iff_getElem?.mp h i (by simpa using hi)
  rw [List.getElem?_map, Option.map_eq_some_iff] at hat
  obtain ⟨W, hW, htag⟩ := hat
  exact ⟨W, hW, by rw [htag, List.getElem_map]⟩

theorem findAgain_eq (items : List UdmSynonym) (wword : UdmWideWord) {Res : List UdmWideWord} {ww : UdmWideWord}
    (h : Res[i]? = some ww) :
    findAgain items wword Res i = some ((([ww].filter (·.origin ≠ .synonymFinal)).flatMap fun ww =>
      found items ww.word).foldl (udmWideWordListAddSynonym wword) Res) := by
  rw [findAgain, h, Option.bind_some]
  by_cases hfinal : ww.origin = .synonymFinal
  · rw [if_pos hfinal, List.filter_cons_of_neg (by simpa using hfinal)]
    rfl
  · rw [if_neg hfinal, List.filter_cons_of_pos (by simpa using hfinal), List.filter_nil, List.flatMap_singleton]
    cases hsearch : searchSynonym items ww.word with
    | none =>
      rw [found, hsearch]
      rfl
    | some x => exact addFrom_eq hsearch wword Res

theorem foldlM_findAgain (items : List UdmSynonym) (wword : UdmWideWord) (first : List UdmWideWord) (n : ℕ)
    (hn : n ≤ first.length) :
    (List.range n).foldlM (findAgain items wword) first =
      some ((((first.take n).filter (·.origin ≠ .synonymFinal)).flatMap fun ww => found items ww.word).foldl
        (udmWideWordListAddSynonym wword) first) := by
  induction n with
  | zero => rfl
  | succ n ih =>
    have hlt : n < first.length := hn
    have hkept := map_tag_foldl wword
      (((first.take n).filter (·.origin ≠ .synonymFinal)).flatMap fun ww => found items ww.word) first
    rw [List.range_succ, List.foldlM_append, ih (by omega)]
    obtain ⟨ww, hww, htag⟩ := exists_getElem?_of_map_tag hkept hlt
    -- the item at the place has the word and the origin it had
    have hword : ww.word = first[n].word := congrArg Prod.fst htag
    have horigin : ww.origin = first[n].origin := congrArg (fun x => x.2.2) htag
    have hround := findAgain_eq items wword hww
    have hsame : (([ww].filter (·.origin ≠ .synonymFinal)).flatMap fun ww => found items ww.word) =
        ([first[n]].filter (·.origin ≠ .synonymFinal)).flatMap fun ww => found items ww.word := by
      rw [List.filter_cons, List.filter_cons, horigin]
      split_ifs
      · rw [List.filter_nil, List.flatMap_singleton, List.flatMap_singleton, hword]
      · rfl
    rw [hsame] at hround
    rw [List.take_succ_eq_append_getElem hlt, List.filter_append, List.flatMap_append, List.foldl_append, ← hround]
    exact bind_pure (findAgain items wword _ n)

/-! ### The lookup -/

theorem udmSynonymListFind_eq (l : UdmSynonymList) (Res : List UdmWideWord) {wword : UdmWideWord}
    (hfinal : wword.origin ≠ .synonymFinal) :
    udmSynonymListFind Res l wword = some (if found l.items wword.word = [] then Res else
      ((((found l.items wword.word).foldl (udmWideWordListAddSynonym wword) Res).filter (·.origin ≠ .synonymFinal)).flatMap
        fun ww => found l.items ww.word).foldl (udmWideWordListAddSynonym wword)
          ((found l.items wword.word).foldl (udmWideWordListAddSynonym wword) Res)) := by
  rw [udmSynonymListFind]
  by_cases hnil : l.items = []
  · rw [if_pos (Or.inl hnil), hnil]
    rfl
  · rw [if_neg (not_or.mpr ⟨hnil, hfinal⟩)]
    cases hsearch : searchSynonym l.items wword.word with
    | none =>
      rw [found, hsearch]
      rfl
    | some x =>
      obtain ⟨syn, res⟩ := x
      dsimp only
      rw [addFrom_eq hsearch, Option.bind_some, foldlM_findAgain _ _ _ _ le_rfl, List.take_length,
        if_neg (found_ne_nil hsearch)]

/-- What a lookup is for: it adds the entries of the word, each once, and if there is one the entries of the words in
the list that are not final. In between the words of the list are those from before and the right sides of the word. -/
def LookupRight (sort : QSort SynonymLe) (l : UdmSynonymList) (Res : List UdmWideWord) (wword : UdmWideWord) : Prop :=
  ∃ found : CString → List UdmSynonym,
    (∀ word, (found word).Perm (l.items.filter fun syn => syn.p = word)) ∧
    ∃ first, first = (found wword.word).foldl (udmWideWordListAddSynonym wword) Res ∧
      (∀ w, w ∈ first.map UdmWideWord.word ↔
        w ∈ Res.map UdmWideWord.word ∨ ∃ syn ∈ l.items, syn.p = wword.word ∧ syn.s = w) ∧
      udmSynonymListFind Res (udmSynonymListSort sort l) wword =
        some (if found wword.word = [] then Res else
          ((first.filter (·.origin ≠ .synonymFinal)).flatMap fun ww => found ww.word).foldl
            (udmWideWordListAddSynonym wword) first)

/-- **A lookup is right** for every word that is not final. -/
theorem udmSynonymListFind_right (sort : QSort SynonymLe) (l : UdmSynonymList) (Res : List UdmWideWord)
    (wword : UdmWideWord) (hfinal : wword.origin ≠ .synonymFinal) : LookupRight sort l Res wword := by
  have hperm : ∀ word, (found (sort.sort l.items) word).Perm (l.items.filter fun syn => syn.p = word) := fun word =>
    (found_perm (sort.sorted l.items) word).trans ((sort.perm l.items).filter _)
  refine ⟨found (sort.sort l.items), hperm, _, rfl, fun w => ?_, ?_⟩
  · rw [mem_words_foldl]
    refine or_congr_right ?_
    rw [List.mem_map]
    constructor
    · rintro ⟨syn, hsyn, rfl⟩
      have hmem := List.mem_filter.mp ((hperm _).mem_iff.mp hsyn)
      exact ⟨syn, hmem.1, by simpa using hmem.2, rfl⟩
    · rintro ⟨syn, hsyn, hp, rfl⟩
      exact ⟨syn, (hperm _).mem_iff.mpr (List.mem_filter.mpr ⟨hsyn, by simpa using hp⟩), rfl⟩
  · exact udmSynonymListFind_eq (udmSynonymListSort sort l) Res hfinal

theorem synonymLe_iff {s1 s2 : UdmSynonym} : SynonymLe s1 s2 ↔ s1.p ≤ s2.p := strcmp_ne_gt

/-- Merge sort is a `qsort` of synonyms. -/
def synonymSort : QSort SynonymLe :=
  Lib.Sorting.mergeSort SynonymLe (fun _ _ _ h h' => synonymLe_iff.mpr ((synonymLe_iff.mp h).trans (synonymLe_iff.mp h')))
    fun a b => (le_total a.p b.p).imp synonymLe_iff.mpr synonymLe_iff.mpr

/-- A word with two synonyms, one of which has a synonym. -/
theorem udmSynonymListFind_right_two :
    LookupRight synonymSort
      ⟨[⟨⟨[0x61], by decide⟩, ⟨[0x62], by decide⟩, .synonym, Or.inl rfl, by decide⟩,
        ⟨⟨[0x62], by decide⟩, ⟨[0x63], by decide⟩, .synonym, Or.inl rfl, by decide⟩,
        ⟨⟨[0x61], by decide⟩, ⟨[0x64], by decide⟩, .synonymFinal, Or.inr rfl, by decide⟩], 0⟩
      [] (udmWideWordInit ⟨[0x61], by decide⟩ .query) :=
  udmSynonymListFind_right _ _ _ _ (by decide)

end MnoGoSearch.Fuzzy
