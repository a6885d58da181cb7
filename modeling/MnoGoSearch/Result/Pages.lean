import MnoGoSearch.Result.ShortPage
import Mathlib

/-!
# Pages

`UdmFind` runs the whole search for every page and shows the rows of the page. A page that
ends before row 256 is made from the best rows only (`shortPage`), a later one from all
documents, and `UdmSort` may order documents with equal scores in another way each time.
`pagesPartition_iff` says when the pages are the pieces of one list all the same.
-/

namespace MnoGoSearch.Result

open Lib.Sorting

/-! ## Cutting a list into windows -/

section Windows

variable {α : Type} {P : ℕ → List α} {ps N : ℕ}

theorem length_flatMap_range (hP : ∀ k, (P k).length = min ps (N - k * ps)) (K : ℕ) :
    ((List.range K).flatMap P).length = min (K * ps) N := by
  induction K with
  | zero => simp
  | succ K ih =>
    rw [List.range_succ, List.flatMap_append, List.length_append, ih, List.flatMap_singleton, hP, Nat.succ_mul]
    omega

theorem window_flatMap_range (hP : ∀ k, (P k).length = min ps (N - k * ps)) {k K : ℕ} (hk : k < K) :
    (((List.range K).flatMap P).drop (k * ps)).take ps = P k := by
  induction K with
  | zero => exact absurd hk (Nat.not_lt_zero k)
  | succ K ih =>
    have hlen := length_flatMap_range hP K
    rw [List.range_succ, List.flatMap_append, List.flatMap_singleton]
    rcases Nat.eq_or_lt_of_le (Nat.le_of_lt_succ hk) with rfl | hkK
    · rcases le_total (k * ps) N with hle | hle
      · rw [List.drop_left' (by omega), List.take_of_length_le (by rw [hP]; omega)]
      · have hnil : P k = [] := List.eq_nil_of_length_eq_zero (by rw [hP]; omega)
        rw [hnil, List.append_nil, List.drop_eq_nil_of_le (by omega), List.take_nil]
    · have hps : k * ps + ps ≤ K * ps := by
        rw [← Nat.succ_mul]
        exact Nat.mul_le_mul_right ps hkK
      rcases le_total (K * ps) N with hle | hle
      · rw [List.drop_append_of_le_length (by omega),
          List.take_append_of_le_length (by rw [List.length_drop]; omega)]
        exact ih hkK
      · have hnil : P K = [] := List.eq_nil_of_length_eq_zero (by rw [hP]; omega)
        rw [hnil, List.append_nil]
        exact ih hkK

theorem flatMap_window (l : List α) (ps k0 m : ℕ) :
    (List.range m).flatMap (fun j => (l.drop ((k0 + j) * ps)).take ps) = (l.drop (k0 * ps)).take (m * ps) := by
  induction m with
  | zero => simp
  | succ m ih =>
    rw [List.range_succ, List.flatMap_append, ih, List.flatMap_singleton, Nat.succ_mul, List.take_add,
      List.drop_drop, Nat.add_mul]

end Windows

/-! ## The pages of a search -/

/-- What `UdmLoadURLDataFromURL` and `UdmLoadURLDataFromBdict` do to the list when neither a
document is grouped nor a score changed: they may load other data. -/
structure UrlDataLoader where
  load : List UdmUrlData → List UdmUrlData
  /-- The documents and their scores stay. -/
  keeps : ∀ L, (load L).map (fun d => (d.urlId, d.score)) = L.map fun d => (d.urlId, d.score)

/-- The rows of the page `pageNumber` as `UdmFind` computes them, with the pattern `R`, which is
the default. A page that reaches beyond `resultsLimit` is refused; 0 is no limit. -/
def udmFindPage (S : SearchSorts) (load : UrlDataLoader) (resultsLimit pageSize : ℕ) (ScoreList : List UdmUrlScore)
    (pageNumber : ℕ) : List UdmUrlData :=
  let first := pageNumber * pageSize
  if resultsLimit ≠ 0 ∧ first + pageSize > resultsLimit then []
  else
    let URLData := udmSortAndGroupByURL S load.load ['R'] (first + pageSize) ScoreList
    if first ≥ URLData.length then [] else (URLData.drop first).take pageSize

/-- What is compared of a row: the document and its score. -/
def row (d : UdmUrlData) : ℤ × ℕ := (d.urlId, d.score)

/-- The row of a document that has been found. -/
def rowOf (c : UdmUrlScore) : ℤ × ℕ := (c.urlId, c.score)

/-- There is one list of all documents that have been found, each of them once and the highest
score first, and every page is a piece of it, the page `k` from row `k * pageSize` on. -/
def PagesPartition (S : SearchSorts) (load : UrlDataLoader) (resultsLimit pageSize : ℕ)
    (L : List UdmUrlScore) : Prop :=
  ∃ order : List (ℤ × ℕ), order.Perm (L.map rowOf) ∧ order.Pairwise (fun a b => b.2 ≤ a.2) ∧
    ∀ k, (udmFindPage S load resultsLimit pageSize L k).map row = (order.drop (k * pageSize)).take pageSize

/-- The condition: no page with documents reaches beyond the limit, and where a page ends that is
made from the best rows only, the documents before and behind its end do not share a score. -/
def PagesExact (resultsLimit pageSize : ℕ) (L : List UdmUrlScore) : Prop :=
  (∀ k, k * pageSize < L.length → resultsLimit = 0 ∨ k * pageSize + pageSize ≤ resultsLimit) ∧
    ∀ k, 0 < k → k * pageSize < L.length → k * pageSize < 256 →
      ∀ d ∈ L, L.countP (fun e => decide (d.score < e.score)) < k * pageSize →
        L.countP (fun e => decide (d.score ≤ e.score)) ≤ k * pageSize

/-- The rows of all documents, the best first. -/
def ranking (L : List UdmUrlScore) : List (ℤ × ℕ) := (byRank L).map rowOf

/-- The order of the rows: from the highest score down. -/
def down (r : ℤ × ℕ) : ℤ := -(r.2 : ℤ)

theorem sorted_ranking (L : List UdmUrlScore) : (ranking L).Pairwise fun a b => down a ≤ down b := by
  rw [ranking, List.pairwise_map]
  refine List.Pairwise.imp (fun {a b} hab => ?_) (sorted_byRank L)
  have := rank_le_iff.mp hab
  simp only [down, rowOf]
  omega

theorem perm_ranking (L : List UdmUrlScore) : (ranking L).Perm (L.map rowOf) := (perm_byRank L).map rowOf

theorem length_ranking (L : List UdmUrlScore) : (ranking L).length = L.length := by
  rw [(perm_ranking L).length_eq, List.length_map]

theorem countP_lt_ranking (L : List UdmUrlScore) (d : UdmUrlScore) :
    (ranking L).countP (fun r => decide (down r < down (rowOf d))) =
      L.countP fun e => decide (d.score < e.score) := by
  rw [(perm_ranking L).countP_eq, List.countP_map]
  refine List.countP_congr fun e _ => ?_
  change decide (-(e.score : ℤ) < -(d.score : ℤ)) = true ↔ _
  rw [decide_eq_true_eq, decide_eq_true_eq]
  omega

theorem countP_le_ranking (L : List UdmUrlScore) (d : UdmUrlScore) :
    (ranking L).countP (fun r => decide (down r ≤ down (rowOf d))) =
      L.countP fun e => decide (d.score ≤ e.score) := by
  rw [(perm_ranking L).countP_eq, List.countP_map]
  refine List.countP_congr fun e _ => ?_
  change decide (-(e.score : ℤ) ≤ -(d.score : ℤ)) = true ↔ _
  rw [decide_eq_true_eq, decide_eq_true_eq]
  omega

/-- The documents before and behind the place `b` of the ranking share no score: what the
condition says of a border, by counting. -/
theorem ranking_ne_iff (L : List UdmUrlScore) {b : ℕ} (hb : b + 1 < (ranking L).length) :
    down (ranking L)[b] ≠ down (ranking L)[b + 1] ↔
      ∀ d ∈ L, L.countP (fun e => decide (d.score < e.score)) < b + 1 →
        L.countP (fun e => decide (d.score ≤ e.score)) ≤ b + 1 := by
  rw [neighbours_ne_iff (sorted_ranking L) hb]
  constructor
  · intro h d hd
    have hx := h (rowOf d) ((perm_ranking L).mem_iff.mpr (List.mem_map_of_mem hd))
    rwa [countP_lt_ranking, countP_le_ranking] at hx
  · intro h x hx
    obtain ⟨d, hd, rfl⟩ := List.mem_map.mp ((perm_ranking L).mem_iff.mp hx)
    rw [countP_lt_ranking, countP_le_ranking]
    exact h d hd

theorem rows_udmSortAndGroupByURL (S : SearchSorts) (load : UrlDataLoader) (n : ℕ) (L : List UdmUrlScore) :
    ((udmSortAndGroupByURL S load.load ['R'] n L).map row).Pairwise (fun a b => down a ≤ down b) ∧
      ((udmSortAndGroupByURL S load.load ['R'] n L).map row).Perm
        (if min n L.length < 256 then (ranking L).take n else ranking L) := by
  have hrow : ∀ l : List UdmUrlScore, (l.map udmScoreListToURLData).map row = l.map rowOf := by
    intro l
    rw [List.map_map]
    rfl
  split_ifs with hn
  · rw [udmSortAndGroupByURL_short S load.load ['R'] hn]
    refine ⟨?_, ?_⟩
    · rw [List.pairwise_map]
      exact sorted_udmURLDataSortByPattern_desc _ _ (by decide) (by decide)
    · refine ((perm_udmURLDataSortByPattern _ _ _).map row).trans ?_
      rw [hrow, ranking, ← List.map_take]
      exact (perm_bestByUrlid S n L).map rowOf
  · rw [udmSortAndGroupByURL, if_neg hn]
    refine ⟨?_, ?_⟩
    · rw [List.pairwise_map]
      exact sorted_udmURLDataSortByPattern_desc _ _ (by decide) (by decide)
    · refine ((perm_udmURLDataSortByPattern _ _ _).map row).trans ?_
      change ((load.load (L.map udmScoreListToURLData)).map fun d => (d.urlId, d.score)).Perm _
      rw [load.keeps]
      change ((L.map udmScoreListToURLData).map row).Perm _
      rw [hrow]
      exact (perm_ranking L).symm

variable {resultsLimit k : ℕ}

theorem map_row_udmFindPage (S : SearchSorts) (load : UrlDataLoader) {pageSize : ℕ}
    (L : List UdmUrlScore)
    (hlimit : resultsLimit = 0 ∨ k * pageSize + pageSize ≤ resultsLimit) :
    (udmFindPage S load resultsLimit pageSize L k).map row =
      (((udmSortAndGroupByURL S load.load ['R'] (k * pageSize + pageSize) L).map row).drop (k * pageSize)).take
        pageSize := by
  rw [udmFindPage, if_neg (by omega)]
  dsimp only
  split_ifs with hfirst
  · rw [List.drop_eq_nil_of_le (by simpa using hfirst), List.take_nil, List.map_nil]
  · rw [List.map_take, List.map_drop]

theorem udmFindPage_eq_nil (S : SearchSorts) (load : UrlDataLoader) (resultsLimit pageSize : ℕ)
    (L : List UdmUrlScore) (hk : L.length ≤ k * pageSize) :
    udmFindPage S load resultsLimit pageSize L k = [] := by
  rw [udmFindPage]
  dsimp only
  split_ifs with hlimit hfirst
  · rfl
  · rfl
  · have hlen := (rows_udmSortAndGroupByURL S load (k * pageSize + pageSize) L).2.length_eq
    rw [List.length_map] at hlen
    split_ifs at hlen
    · rw [List.length_take, length_ranking] at hlen
      omega
    · rw [length_ranking] at hlen
      omega

/-! ## The condition is enough -/

section Sufficient

variable {S : SearchSorts} {load : UrlDataLoader} {resultsLimit pageSize : ℕ} {L : List UdmUrlScore}

theorem ranking_border (h : PagesExact resultsLimit pageSize L) (hk : 0 < k) (hN : k * pageSize < L.length)
    (h256 : k * pageSize < 256) (hps : 0 < pageSize) :
    ∃ t, (ranking L).countP (fun r => decide (down r ≤ t)) = k * pageSize := by
  obtain ⟨b, hb⟩ : ∃ b, k * pageSize = b + 1 := Nat.exists_eq_succ_of_ne_zero (Nat.mul_pos hk hps).ne'
  have hlen : b + 1 < (ranking L).length := by
    rw [length_ranking]
    omega
  have hne := (ranking_ne_iff L hlen).mpr (hb ▸ h.2 k hk hN h256)
  exact ⟨_, (countP_le_of_ne (sorted_ranking L) hlen hne).trans hb.symm⟩

theorem perm_drop_rows (h : PagesExact resultsLimit pageSize L) (hps : 0 < pageSize) {k n : ℕ}
    (h256 : k * pageSize < 256) (hn : k * pageSize ≤ n) :
    (((udmSortAndGroupByURL S load.load ['R'] n L).map row).drop (k * pageSize)).Perm
      ((if min n L.length < 256 then (ranking L).take n else ranking L).drop (k * pageSize)) := by
  obtain ⟨hsorted, hperm⟩ := rows_udmSortAndGroupByURL S load n L
  have hlen : (if min n L.length < 256 then (ranking L).take n else ranking L).length ≤ L.length := by
    split_ifs
    · rw [List.length_take, length_ranking]
      exact min_le_right _ _
    · rw [length_ranking]
  rcases Nat.eq_zero_or_pos k with rfl | hk
  · simpa using hperm
  · rcases lt_or_ge (k * pageSize) L.length with hN | hN
    · obtain ⟨t, ht⟩ := ranking_border h hk hN h256 hps
      split_ifs at hperm ⊢ with hif
      · have hcut := perm_drop_of_countP hperm hsorted ((sorted_ranking L).sublist (List.take_sublist n _)) t
        rwa [countP_take (sorted_ranking L) t (ht ▸ hn), ht] at hcut
      · have hcut := perm_drop_of_countP hperm hsorted (sorted_ranking L) t
        rwa [ht] at hcut
    · rw [List.drop_eq_nil_of_le (by rw [hperm.length_eq]; omega), List.drop_eq_nil_of_le (by omega)]

/-- The rows of the page `k`. -/
def pageRows (S : SearchSorts) (load : UrlDataLoader) (resultsLimit pageSize : ℕ) (L : List UdmUrlScore)
    (k : ℕ) : List (ℤ × ℕ) :=
  (udmFindPage S load resultsLimit pageSize L k).map row

theorem pageRows_eq (h : PagesExact resultsLimit pageSize L) (k : ℕ) :
    pageRows S load resultsLimit pageSize L k =
      (((udmSortAndGroupByURL S load.load ['R'] (k * pageSize + pageSize) L).map row).drop (k * pageSize)).take
        pageSize := by
  rcases lt_or_ge (k * pageSize) L.length with hN | hN
  · exact map_row_udmFindPage S load L (h.1 k hN)
  · have hlen := (rows_udmSortAndGroupByURL S load (k * pageSize + pageSize) L).2.length_eq
    have hle : ((udmSortAndGroupByURL S load.load ['R'] (k * pageSize + pageSize) L).map row).length ≤ L.length := by
      rw [hlen]
      split_ifs
      · rw [List.length_take, length_ranking]
        exact min_le_right _ _
      · rw [length_ranking]
    rw [pageRows, udmFindPage_eq_nil S load resultsLimit pageSize L hN, List.drop_eq_nil_of_le (by omega)]
    simp

theorem length_pageRows (h : PagesExact resultsLimit pageSize L) (k : ℕ) :
    (pageRows S load resultsLimit pageSize L k).length = min pageSize (L.length - k * pageSize) := by
  rw [pageRows_eq h, List.length_take, List.length_drop,
    (rows_udmSortAndGroupByURL S load (k * pageSize + pageSize) L).2.length_eq]
  split_ifs
  · rw [List.length_take, length_ranking]
    omega
  · rw [length_ranking]

theorem short_pages (h : PagesExact resultsLimit pageSize L) (hps : 0 < pageSize) {K : ℕ}
    (hK : K * pageSize < 256 ∨ L.length < 256) :
    ((List.range K).flatMap (pageRows S load resultsLimit pageSize L)).Perm ((ranking L).take (K * pageSize)) ∧
      ((List.range K).flatMap (pageRows S load resultsLimit pageSize L)).Pairwise fun a b => down a ≤ down b := by
  induction K with
  | zero => simp
  | succ K ih =>
    rw [Nat.succ_mul] at hK ⊢
    obtain ⟨ihperm, ihsorted⟩ := ih (by omega)
    rw [List.range_succ, List.flatMap_append, List.flatMap_singleton]
    have hpage : (pageRows S load resultsLimit pageSize L K).Perm
        (((ranking L).drop (K * pageSize)).take pageSize) := by
      rcases lt_or_ge (K * pageSize) L.length with hN | hN
      · have hdrop := @perm_drop_rows S load _ _ _ h hps K (K * pageSize + pageSize) (by omega) (by omega)
        rw [if_pos (by omega), List.drop_take, Nat.add_sub_cancel_left] at hdrop
        have hle := hdrop.length_eq
        rw [List.length_take] at hle
        rwa [pageRows_eq h, List.take_of_length_le (by omega)]
      · have hnil : pageRows S load resultsLimit pageSize L K = [] :=
          List.eq_nil_of_length_eq_zero (by rw [length_pageRows h]; omega)
        rw [hnil, List.drop_eq_nil_of_le (by rw [length_ranking]; exact hN), List.take_nil]
    refine ⟨?_, ?_⟩
    · rw [List.take_add]
      exact ihperm.append hpage
    · refine List.pairwise_append.mpr ⟨ihsorted, ?_, ?_⟩
      · rw [pageRows_eq h]
        exact (rows_udmSortAndGroupByURL S load _ L).1.sublist
          ((List.take_sublist _ _).trans (List.drop_sublist _ _))
      · intro a ha b hb
        have hs := sorted_ranking L
        rw [← List.take_append_drop (K * pageSize) (ranking L), List.pairwise_append] at hs
        exact hs.2.2 a (ihperm.mem_iff.mp ha) b (List.mem_of_mem_take (hpage.mem_iff.mp hb))

theorem all_pages (h : PagesExact resultsLimit pageSize L) (hps : 0 < pageSize) (hps256 : pageSize < 256) :
    ((List.range L.length).flatMap (pageRows S load resultsLimit pageSize L)).Perm (ranking L) ∧
      ((List.range L.length).flatMap (pageRows S load resultsLimit pageSize L)).Pairwise
        fun a b => down a ≤ down b := by
  have hlast : L.length ≤ L.length * pageSize := Nat.le_mul_of_pos_right _ hps
  rcases lt_or_ge L.length 256 with hshort | hlong
  · have hall := @short_pages S load _ _ _ h hps L.length (Or.inr hshort)
    rwa [List.take_of_length_le (by rw [length_ranking]; exact hlast)] at hall
  · -- the pages from `k0` on are made from all documents
    obtain ⟨k0, hk0, hk256⟩ : ∃ k0, k0 * pageSize < 256 ∧ 256 ≤ k0 * pageSize + pageSize := by
      refine ⟨255 / pageSize, ?_, ?_⟩
      · exact Nat.lt_succ_of_le (Nat.div_mul_le_self 255 pageSize)
      · have := Nat.lt_div_mul_add (a := 255) hps
        omega
    have hk0N : k0 ≤ L.length := by
      have := Nat.le_mul_of_pos_right k0 hps
      omega
    obtain ⟨hperm, hsorted⟩ := @short_pages S load _ _ _ h hps k0 (Or.inl hk0)
    have hG := rows_udmSortAndGroupByURL S load L.length L
    have hcut := @perm_drop_rows S load _ _ _ h hps k0 L.length hk0 (by omega)
    rw [if_neg (by omega)] at hG hcut
    have hrun : ∀ n, 256 ≤ n →
        udmSortAndGroupByURL S load.load ['R'] n L = udmSortAndGroupByURL S load.load ['R'] L.length L := by
      intro n hn
      rw [udmSortAndGroupByURL, udmSortAndGroupByURL, if_neg (by omega), if_neg (by omega)]
    generalize hrows : (udmSortAndGroupByURL S load.load ['R'] L.length L).map row = G at *
    have hrest : (List.range (L.length - k0)).flatMap
        (fun j => pageRows S load resultsLimit pageSize L (k0 + j)) = G.drop (k0 * pageSize) := by
      have hpages : ∀ j, pageRows S load resultsLimit pageSize L (k0 + j) =
          (G.drop ((k0 + j) * pageSize)).take pageSize := by
        intro j
        have hj : 256 ≤ (k0 + j) * pageSize + pageSize := by
          rw [Nat.add_mul]
          omega
        rw [pageRows_eq h, hrun _ hj, hrows]
      rw [funext hpages, flatMap_window, List.take_of_length_le]
      rw [List.length_drop, hG.2.length_eq, length_ranking, Nat.sub_mul]
      omega
    have hsplit : (List.range L.length).flatMap (pageRows S load resultsLimit pageSize L) =
        (List.range k0).flatMap (pageRows S load resultsLimit pageSize L) ++ G.drop (k0 * pageSize) := by
      rw [← hrest, ← Nat.add_sub_cancel' hk0N, List.range_add, List.flatMap_append, List.flatMap_map,
        Nat.add_sub_cancel_left]
    rw [hsplit]
    refine ⟨?_, List.pairwise_append.mpr ⟨hsorted, hG.1.sublist (List.drop_sublist _ _), ?_⟩⟩
    · have hboth := hperm.append hcut
      rwa [List.take_append_drop] at hboth
    · intro a ha b hb
      have hs := sorted_ranking L
      rw [← List.take_append_drop (k0 * pageSize) (ranking L), List.pairwise_append] at hs
      exact hs.2.2 a (hperm.mem_iff.mp ha) b (hcut.mem_iff.mp hb)

theorem pagesPartition_of_exact (S : SearchSorts) (load : UrlDataLoader)
    (h : PagesExact resultsLimit pageSize L) (hps : 0 < pageSize) (hps256 : pageSize < 256) :
    PagesPartition S load resultsLimit pageSize L := by
  obtain ⟨hperm, hsorted⟩ := @all_pages S load _ _ _ h hps hps256
  refine ⟨_, hperm.trans (perm_ranking L), ?_, fun k => ?_⟩
  · refine List.Pairwise.imp (fun {a b} hab => ?_) hsorted
    simp only [down] at hab
    omega
  · rcases lt_or_ge k L.length with hk | hk
    · exact (window_flatMap_range (length_pageRows h) hk).symm
    · have hkps : L.length ≤ k * pageSize := le_trans hk (Nat.le_mul_of_pos_right _ hps)
      rw [udmFindPage_eq_nil S load resultsLimit pageSize L hkps, List.drop_eq_nil_of_le, List.take_nil, List.map_nil]
      rw [hperm.length_eq, length_ranking]
      exact hkps

end Sufficient

/-! ## The condition is needed -/

/-- The list that a run sorts by the pattern. -/
def runInput (S : SearchSorts) (load : UrlDataLoader) (n : ℕ) (L : List UdmUrlScore) : List UdmUrlData :=
  if min n L.length < 256 then (bestByUrlid S n L).map udmScoreListToURLData
  else load.load (L.map udmScoreListToURLData)

theorem udmSortAndGroupByURL_eq (S : SearchSorts) (load : UrlDataLoader) (n : ℕ) (L : List UdmUrlScore) :
    udmSortAndGroupByURL S load.load ['R'] n L = S.byR.sort (runInput S load n L) := by
  rw [runInput]
  split_ifs with hn
  · rw [udmSortAndGroupByURL_short S load.load ['R'] hn]
    rfl
  · rw [udmSortAndGroupByURL, if_neg hn]
    rfl

/-- The place of a row: the higher score first, then the smaller id. -/
def rowRank (r : ℤ × ℕ) : ℤ ×ₗ ℤ := toLex (-(r.2 : ℤ), r.1)

theorem rowRank_injective {a b : ℤ × ℕ} (h : rowRank a = rowRank b) : a = b := by
  simp only [rowRank, EmbeddingLike.apply_eq_iff_eq, Prod.mk.injEq] at h
  exact Prod.ext h.2 (by omega)

theorem down_le_of_rowRank_le {a b : ℤ × ℕ} (h : rowRank a ≤ rowRank b) : down a ≤ down b := by
  rw [rowRank, rowRank, Prod.Lex.toLex_le_toLex] at h
  simp only [down] at *
  omega

/-- `UdmSort` that orders equal scores by the ids. -/
def rankSorts : SearchSorts :=
  { mergeSorts with
    byR := (mergeSort (fun D E : UdmUrlData => rowRank (row D) ≤ rowRank (row E))
      (fun _ _ _ => le_trans) fun _ _ => le_total _ _).coarsen fun D E h => by
        have := down_le_of_rowRank_le h
        simp only [down, row] at this
        exact patternR_iff.mpr (by omega) }

theorem rows_rankSorts (load : UrlDataLoader) (n : ℕ) (L : List UdmUrlScore) :
    (rankSorts.byR.sort (runInput rankSorts load n L)).map row =
      if min n L.length < 256 then (ranking L).take n else ranking L := by
  have hrun := rows_udmSortAndGroupByURL rankSorts load n L
  rw [udmSortAndGroupByURL_eq] at hrun
  have hranking : (ranking L).Pairwise fun a b => rowRank a ≤ rowRank b := by
    rw [ranking, List.pairwise_map]
    exact sorted_byRank L
  apply eq_of_perm (fun _ _ _ _ => rowRank_injective) hrun.2
  · rw [List.pairwise_map]
    exact (mergeSort (fun D E : UdmUrlData => rowRank (row D) ≤ rowRank (row E))
      (fun _ _ _ => le_trans) fun _ _ => le_total _ _).sorted _
  · split_ifs
    · exact hranking.sublist (List.take_sublist n _)
    · exact hranking

theorem limit_of_pagesPartition {S : SearchSorts} {load : UrlDataLoader} {pageSize : ℕ}
    {L : List UdmUrlScore} (hps : 0 < pageSize) (h : PagesPartition S load resultsLimit pageSize L) (k : ℕ)
    (hk : k * pageSize < L.length) : resultsLimit = 0 ∨ k * pageSize + pageSize ≤ resultsLimit := by
  obtain ⟨order, hperm, -, hpages⟩ := h
  by_contra hlimit
  have hpage := hpages k
  rw [udmFindPage, if_pos (by omega), List.map_nil] at hpage
  have hlen := congrArg List.length hpage
  rw [List.length_take, List.length_drop, hperm.length_eq, List.length_map, List.length_nil] at hlen
  omega

theorem getElem?_window {α : Type} (l : List α) (i j n : ℕ) (hj : j < n) : ((l.drop i).take n)[j]? = l[i + j]? := by
  rw [List.getElem?_take_of_lt hj, List.getElem?_drop]

theorem nodup_rows (L : UdmUrlScoreList) : (L.val.map rowOf).Nodup := by
  refine List.Nodup.of_map Prod.fst ?_
  rw [List.map_map]
  exact (List.pairwise_map.mpr L.property).imp ne_of_lt

/-- Two documents with one score before and behind the end of a page: some sorting function
shows the first of them on both pages. -/
theorem border_of_pagesPartition {load : UrlDataLoader} {resultsLimit pageSize : ℕ} {L : UdmUrlScoreList}
    (hps : 0 < pageSize) (h : ∀ S, PagesPartition S load resultsLimit pageSize L.val) {k : ℕ}
    (hN : (k + 1) * pageSize < L.val.length) (h256 : (k + 1) * pageSize < 256) {b : ℕ}
    (hb : (k + 1) * pageSize = b + 1) (hlen : b + 1 < (ranking L.val).length) :
    down (ranking L.val)[b] ≠ down (ranking L.val)[b + 1] := by
  intro hties
  have hk : k * pageSize + pageSize = b + 1 := by rw [← hb, Nat.succ_mul]
  -- the rows of the page behind the border
  have hrows := rows_rankSorts load (b + 1 + pageSize) L.val
  generalize hM : runInput rankSorts load (b + 1 + pageSize) L.val = M at hrows
  generalize hC : rankSorts.byR.sort M = C at hrows
  have hCM : C.Perm M := hC ▸ rankSorts.byR.perm M
  have hCR : C.Pairwise PatternR := hC ▸ rankSorts.byR.sorted M
  have hClen : b + 1 < C.length := by
    have hlength := congrArg List.length hrows
    rw [List.length_map] at hlength
    rw [hlength]
    split_ifs
    · rw [List.length_take]
      omega
    · exact hlen
  have hget : ∀ j (hj : j < C.length) (hj' : j < (ranking L.val).length), row C[j] = (ranking L.val)[j] := by
    intro j hj hj'
    have hgj := congrArg (fun l => l[j]?) hrows
    simp only [List.getElem?_map, List.getElem?_eq_getElem hj, Option.map_some] at hgj
    split_ifs at hgj
    · rw [List.getElem?_take, List.getElem?_eq_getElem hj'] at hgj
      split_ifs at hgj
      exact Option.some.inj hgj
    · rw [List.getElem?_eq_getElem hj'] at hgj
      exact Option.some.inj hgj
  have hscore : -(C[b].score : ℤ) = -(C[b + 1].score : ℤ) := by
    have hx := hget b (by omega) (by omega)
    have hy := hget (b + 1) (by omega) hlen
    rw [← hx, ← hy] at hties
    exact hties
  have hsplit : C = C.take b ++ C[b] :: C[b + 1] :: C.drop (b + 2) := by
    rw [List.getElem_cons_drop, List.getElem_cons_drop, List.take_append_drop]
  -- a sorting function that changes the two places in this run, and nowhere else
  have hswapped : (C.take b ++ C[b + 1] :: C[b] :: C.drop (b + 2)).Perm M := by
    refine List.Perm.trans ?_ hCM
    conv_rhs => rw [hsplit]
    exact (List.Perm.swap _ _ _).append_left _
  have hswapR : (C.take b ++ C[b + 1] :: C[b] :: C.drop (b + 2)).Pairwise PatternR := by
    have hsorted : C.Pairwise fun D E : UdmUrlData => -(D.score : ℤ) ≤ -(E.score : ℤ) :=
      List.Pairwise.imp (fun {D E} hDE => by have := patternR_iff.mp hDE; omega) hCR
    rw [hsplit] at hsorted
    refine List.Pairwise.imp (fun {D E} hDE => ?_) (pairwise_swap hscore hsorted)
    exact patternR_iff.mpr (by omega)
  obtain ⟨order, hperm, -, hpages⟩ := h { rankSorts with byR := rankSorts.byR.but hswapped hswapR }
  have hlimit := limit_of_pagesPartition hps (h rankSorts)
  -- the page in front of the border ends with the first of the two
  have hfirst : order[b]? = some (row C[b]) := by
    have hpage := hpages k
    rw [map_row_udmFindPage _ load L.val (hlimit k (by omega)), udmSortAndGroupByURL_eq, hk] at hpage
    have hne : runInput rankSorts load (b + 1) L.val ≠ M := by
      intro heq
      have hlength := congrArg List.length (rows_rankSorts load (b + 1) L.val)
      rw [List.length_map, rankSorts.byR.length_sort, heq, ← hCM.length_eq, if_pos (by omega),
        List.length_take] at hlength
      omega
    change (((rankSorts.byR.but hswapped hswapR).sort (runInput rankSorts load (b + 1) L.val)).map row
      |>.drop (k * pageSize) |>.take pageSize) = _ at hpage
    rw [QSort.but_sort_of_ne _ _ _ hne, rows_rankSorts, if_pos (by omega)] at hpage
    have hplace := congrArg (fun l => l[pageSize - 1]?) hpage
    simp only [getElem?_window _ _ _ _ (show pageSize - 1 < pageSize by omega)] at hplace
    rw [show k * pageSize + (pageSize - 1) = b by omega] at hplace
    rw [← hplace, List.getElem?_take_of_lt (by omega), List.getElem?_eq_getElem (by omega),
      hget b (by omega) (by omega)]
  -- and the page behind it begins with the same
  have hsecond : order[b + 1]? = some (row C[b]) := by
    have hpage := hpages (k + 1)
    rw [map_row_udmFindPage _ load L.val (hlimit (k + 1) hN), udmSortAndGroupByURL_eq, hb] at hpage
    change (((rankSorts.byR.but hswapped hswapR).sort (runInput rankSorts load (b + 1 + pageSize) L.val)).map row
      |>.drop (b + 1) |>.take pageSize) = _ at hpage
    rw [hM, QSort.but_sort_self] at hpage
    have hplace := congrArg (fun l => l[0]?) hpage
    simp only [getElem?_window _ _ _ _ hps, Nat.add_zero] at hplace
    rw [← hplace, List.getElem?_map, List.getElem?_append_right (by rw [List.length_take]; omega),
      List.length_take, show b + 1 - min b C.length = 1 by omega]
    rfl
  have hnodup : order.Nodup := hperm.nodup_iff.mpr (nodup_rows L)
  have horder : b + 1 < order.length := by
    rw [hperm.length_eq, List.length_map]
    omega
  exact List.nodup_iff_getElem?_ne_getElem?.mp hnodup b (b + 1) (by omega) horder (hfirst.trans hsecond.symm)

/-- Two documents with one score. -/
def tiedScores : UdmUrlScoreList := ⟨[⟨1, 10, Int.zero_lt_one, ten_lt_int4⟩, ⟨2, 10, zero_lt_secondId, ten_lt_int4⟩], by decide⟩

end MnoGoSearch.Result
