import Mathlib.Data.List.Count
import Mathlib.Algebra.Order.Ring.Nat
import Mathlib.Data.Int.Order.Basic

/-!
# The record `#rec_id`

`UdmURLDataUnpackRecID` (`dbmode-blob.c`) goes through the document numbers of the record `#rec_id` and through the
result list, both in ascending order, and skips the documents without a row. The loop that skips compares the element
of the result list first, and asks afterwards whether there is such an element.

`unpackRecID_iff` says when the array is not read past its end and no document with a row is skipped: after the last
document no row may come, unless the last document has a row itself, and a document number that has rows must have as
many of them as it has documents.
-/

namespace MnoGoSearch.Blob

/-! ## The source -/

/-- The variables of the loop, and what it has done. -/
structure JoinState where
  j : ℕ
  /-- How many documents have been skipped. -/
  skip : ℕ
  /-- The elements of the result list that have been read. -/
  reads : List ℕ
  /-- The documents that have been found, each with its row. -/
  joined : List (ℕ × ℕ)
  deriving DecidableEq

/-- An element of the result list is read. -/
def JoinState.read (s : JoinState) : JoinState := { s with reads := s.reads ++ [s.j] }

/-- The document at `j` is skipped. -/
def JoinState.next (s : JoinState) : JoinState := { s with j := s.j + 1, skip := s.skip + 1 }

/-- The document at `j` is found in a row. -/
def JoinState.found (s : JoinState) (i : ℕ) : JoinState := { s with j := s.j + 1, joined := s.joined ++ [(s.j, i)] }

/-- `Data[j].url_id`. Past the end of the list it is what the memory has. -/
def urlIdAt (past : ℕ → ℤ) (docs : List ℤ) (j : ℕ) : ℤ := (docs[j]?).getD (past j)

/-- `while (rec_id > Data[j].url_id && j < ncoords)`, with `ncoords - j` in front. -/
def skipBelow (Data : ℕ → ℤ) (recId : ℤ) : ℕ → JoinState → JoinState
  | 0, s => s.read
  | left + 1, s => if recId > Data s.j then skipBelow Data recId left s.read.next else s.read

/-- The loop over the rows, from row `i`. -/
def joinRows (Data : ℕ → ℤ) (ncoords : ℕ) : ℕ → List ℤ → JoinState → JoinState
  | _, [], s => s
  | i, recId :: rows, s =>
    let t := (skipBelow Data recId (ncoords - s.j) s).read
    if recId = Data t.j then
      if t.j + 1 = ncoords then t.found i else joinRows Data ncoords (i + 1) rows (t.found i)
    else joinRows Data ncoords (i + 1) rows t

/-- `UdmURLDataUnpackRecID`: the state at the end, in which `j` is the result. -/
def udmURLDataUnpackRecID (past : ℕ → ℤ) (docs rows : List ℤ) : JoinState :=
  let s := joinRows (urlIdAt past docs) docs.length 0 rows ⟨0, 0, [], []⟩
  if s.j < docs.length then { s with skip := s.skip + (docs.length - s.j), j := docs.length } else s

/-! ## What is wanted -/

/-- **The list is not read past its end, and every document whose number is in the record is found in a row with this
number.** -/
def JoinsInBounds (past : ℕ → ℤ) (docs rows : List ℤ) : Prop :=
  (∀ j ∈ (udmURLDataUnpackRecID past docs rows).reads, j < docs.length) ∧
    ∀ k id, docs[k]? = some id → id ∈ rows →
      ∃ i, (k, i) ∈ (udmURLDataUnpackRecID past docs rows).joined ∧ rows[i]? = some id

/-- The documents `ds` and the rows that are left, when the record has the numbers `all`: if a row is greater than all
documents, then the last document has a row; and a number of the record has no more documents than rows. -/
structure Covered (all ds rows : List ℤ) : Prop where
  last : ∀ r ∈ rows, (∀ d ∈ ds, d < r) → ∃ d ∈ ds, d ∈ rows ∧ ∀ e ∈ ds, e ≤ d
  count : ∀ d ∈ ds, d ∈ all → ds.count d ≤ rows.count d

section

variable {all ds rows : List ℤ} {r d : ℤ}

theorem covered_nil : Covered all ds [] ↔ ∀ d ∈ ds, d ∉ all := by
  refine ⟨fun h d hd hall => ?_, fun h => ⟨fun r hr => absurd hr List.not_mem_nil, fun d hd hall => absurd hall (h d hd)⟩⟩
  have hcount := h.count d hd hall
  rw [List.count_nil] at hcount
  exact absurd (List.count_pos_iff.2 hd) (by omega)

theorem not_covered (hds : ∀ d ∈ ds, d < r) (hrows : ∀ x ∈ rows, r ≤ x) : ¬ Covered all ds (r :: rows) := by
  intro h
  obtain ⟨d, hd, hmem, -⟩ := h.last r List.mem_cons_self hds
  have hlt := hds d hd
  rcases List.mem_cons.1 hmem with rfl | hmem
  · omega
  · have := hrows d hmem
    omega

theorem covered_skip {ds1 ds2 : List ℤ} (h1 : ∀ d ∈ ds1, d < r) (h2 : ∀ d ∈ ds2, r ≤ d) (hne : ds2 ≠ [])
    (hrows : ∀ x ∈ rows, r ≤ x) :
    Covered all (ds1 ++ ds2) (r :: rows) ↔ (∀ d ∈ ds1, d ∉ all) ∧ Covered all ds2 (r :: rows) := by
  obtain ⟨d0, hd0⟩ := List.exists_mem_of_ne_nil ds2 hne
  have hcount2 : ∀ d ∈ ds2, ds1.count d = 0 := fun d hd => List.count_eq_zero.2 fun hmem => by
    have := h1 d hmem
    have := h2 d hd
    omega
  have hrow : ∀ d ∈ ds1, (r :: rows).count d = 0 := fun d hd => List.count_eq_zero.2 fun hmem => by
    have := h1 d hd
    rcases List.mem_cons.1 hmem with rfl | hmem
    · omega
    · have := hrows d hmem
      omega
  constructor
  · refine fun h => ⟨fun d hd hall => ?_, ⟨fun x hx hlt => ?_, fun d hd hall => ?_⟩⟩
    · have hle := h.count d (List.mem_append_left _ hd) hall
      rw [hrow d hd, List.count_append] at hle
      exact absurd (List.count_pos_iff.2 hd) (by omega)
    · obtain ⟨d, hd, hmem, hmax⟩ := h.last x hx fun d hd => by
        have hlast := hlt d0 hd0
        rcases List.mem_append.1 hd with hd | hd
        · have := h1 d hd
          have := h2 d0 hd0
          omega
        · exact hlt d hd
      rcases List.mem_append.1 hd with hd1 | hd2
      · exact absurd hmem (List.count_eq_zero.1 (hrow d hd1))
      · exact ⟨d, hd2, hmem, fun e he => hmax e (List.mem_append_right _ he)⟩
    · have hle := h.count d (List.mem_append_right _ hd) hall
      rwa [List.count_append, hcount2 d hd, Nat.zero_add] at hle
  · rintro ⟨hout, hcov⟩
    refine ⟨fun x hx hlt => ?_, fun d hd hall => ?_⟩
    · obtain ⟨d, hd, hmem, hmax⟩ := hcov.last x hx fun d hd => hlt d (List.mem_append_right _ hd)
      refine ⟨d, List.mem_append_right _ hd, hmem, fun e he => ?_⟩
      rcases List.mem_append.1 he with he | he
      · have := h1 e he
        have := h2 d hd
        omega
      · exact hmax e he
    · rcases List.mem_append.1 hd with hd | hd
      · exact absurd hall (hout d hd)
      · rw [List.count_append, hcount2 d hd, Nat.zero_add]
        exact hcov.count d hd hall

theorem covered_pass (hlt : ∀ d ∈ ds, r < d) (hne : ds ≠ []) : Covered all ds (r :: rows) ↔ Covered all ds rows := by
  obtain ⟨d0, hd0⟩ := List.exists_mem_of_ne_nil ds hne
  have hmem : ∀ d ∈ ds, (d ∈ r :: rows ↔ d ∈ rows) := fun d hd => by
    have := hlt d hd
    rw [List.mem_cons, or_iff_right (by omega)]
  have hcount : ∀ d ∈ ds, (r :: rows).count d = rows.count d := fun d hd => by
    have := hlt d hd
    rw [List.count_cons_of_ne (by omega)]
  constructor
  · refine fun h => ⟨fun x hx hall => ?_, fun d hd hall => hcount d hd ▸ h.count d hd hall⟩
    obtain ⟨d, hd, hr, hmax⟩ := h.last x (List.mem_cons_of_mem _ hx) hall
    exact ⟨d, hd, (hmem d hd).1 hr, hmax⟩
  · refine fun h => ⟨fun x hx hall => ?_, fun d hd hall => hcount d hd ▸ h.count d hd hall⟩
    rcases List.mem_cons.1 hx with rfl | hx
    · have := hlt d0 hd0
      have := hall d0 hd0
      omega
    · obtain ⟨d, hd, hr, hmax⟩ := h.last x hx hall
      exact ⟨d, hd, (hmem d hd).2 hr, hmax⟩

theorem covered_singleton : Covered all [d] (d :: rows) := by
  refine ⟨fun x _ _ => ⟨d, by simp, List.mem_cons_self, by simp⟩, fun e he _ => ?_⟩
  rw [List.mem_singleton.1 he, List.count_singleton_self, List.count_cons_self]
  omega

theorem covered_found (hle : ∀ e ∈ ds, d ≤ e) (hne : ds ≠ []) (hall : d ∈ all) :
    Covered all (d :: ds) (d :: rows) ↔ Covered all ds rows := by
  obtain ⟨d0, hd0⟩ := List.exists_mem_of_ne_nil ds hne
  have hcount : ∀ e, ((d :: ds).count e ≤ (d :: rows).count e ↔ ds.count e ≤ rows.count e) := fun e => by
    rw [List.count_cons, List.count_cons]
    omega
  have hcounts : (∀ e ∈ d :: ds, e ∈ all → (d :: ds).count e ≤ (d :: rows).count e) ↔
      ∀ e ∈ ds, e ∈ all → ds.count e ≤ rows.count e := by
    refine ⟨fun h e he hall => (hcount e).1 (h e (List.mem_cons_of_mem _ he) hall), fun h e he hall => ?_⟩
    refine (hcount e).2 ?_
    by_cases hmem : e ∈ ds
    · exact h e hmem hall
    · rw [List.count_eq_zero.2 hmem]
      omega
  constructor
  · refine fun h => ⟨fun x hx hlt => ?_, hcounts.1 h.count⟩
    obtain ⟨e, he, hmem, hmax⟩ := h.last x (List.mem_cons_of_mem _ hx) fun e he => by
      rcases List.mem_cons.1 he with rfl | he
      · have := hle d0 hd0
        have := hlt d0 hd0
        omega
      · exact hlt e he
    -- The greatest document is in what is left, perhaps under the number that has just been found.
    have hed : e ∈ ds := by
      rcases List.mem_cons.1 he with rfl | he
      · have heq : e = d0 := le_antisymm (hle d0 hd0) (hmax d0 (List.mem_cons_of_mem _ hd0))
        rwa [heq]
      · exact he
    refine ⟨e, hed, ?_, fun y hy => hmax y (List.mem_cons_of_mem _ hy)⟩
    rcases List.mem_cons.1 hmem with rfl | hmem
    · have hpos := hcounts.1 h.count e hed hall
      exact List.count_pos_iff.1 (lt_of_lt_of_le (List.count_pos_iff.2 hed) hpos)
    · exact hmem
  · refine fun h => ⟨fun x hx hlt => ?_, hcounts.2 h.count⟩
    have hx' : x ∈ rows := by
      rcases List.mem_cons.1 hx with rfl | hx
      · exact absurd (hlt x List.mem_cons_self) (lt_irrefl x)
      · exact hx
    obtain ⟨e, he, hmem, hmax⟩ := h.last x hx' fun e he => hlt e (List.mem_cons_of_mem _ he)
    refine ⟨e, List.mem_cons_of_mem _ he, List.mem_cons_of_mem _ hmem, fun y hy => ?_⟩
    rcases List.mem_cons.1 hy with rfl | hy
    · exact hle e he
    · exact hmax y hy

end

/-! ## The loops -/

/-- What the loop that skips has done when it ends in the state `t`. -/
structure Skipped (Data : ℕ → ℤ) (recId : ℤ) (left : ℕ) (s t : JoinState) : Prop where
  le : s.j ≤ t.j
  le_left : t.j ≤ s.j + left
  joined : t.joined = s.joined
  mem_reads : ∀ x, x ∈ t.reads ↔ x ∈ s.reads ∨ s.j ≤ x ∧ x ≤ t.j
  below : ∀ k, s.j ≤ k → k < t.j → Data k < recId
  stop : t.j < s.j + left → recId ≤ Data t.j

variable {left : ℕ} {s t : JoinState} {docs : List ℤ} {id : ℤ}

theorem skipped_read (Data : ℕ → ℤ) (recId : ℤ) (h : 0 < left → recId ≤ Data s.j) :
    Skipped Data recId left s s.read := by
  refine ⟨le_rfl, Nat.le_add_right _ _, rfl, fun x => ?_, fun k h1 h2 => ?_, fun hlt => h ?_⟩
  · rw [JoinState.read, List.mem_append, List.mem_singleton]
    exact or_congr_right (by dsimp only; omega)
  · exact absurd h2 (by rw [JoinState.read]; dsimp only; omega)
  · rw [JoinState.read] at hlt
    dsimp only at hlt
    omega

theorem skipped_skipBelow (Data : ℕ → ℤ) (recId : ℤ) (left : ℕ) (s : JoinState) :
    Skipped Data recId left s (skipBelow Data recId left s) := by
  induction left generalizing s with
  | zero => exact skipped_read Data recId fun h => absurd h (lt_irrefl 0)
  | succ left ih =>
    rw [skipBelow]
    split
    case isTrue hgt =>
      obtain ⟨hle, hleft, hjoined, hreads, hbelow, hstop⟩ := ih s.read.next
      have hj : s.read.next.j = s.j + 1 := rfl
      rw [hj] at hle hleft hreads hbelow hstop
      refine ⟨by omega, by omega, hjoined, fun x => ?_, fun k h1 h2 => ?_, fun hlt => hstop (by omega)⟩
      · rw [hreads x, show s.read.next.reads = s.reads ++ [s.j] from rfl, List.mem_append, List.mem_singleton, or_assoc]
        exact or_congr_right (by omega)
      · rcases Nat.eq_or_lt_of_le h1 with rfl | h1
        · exact hgt
        · exact hbelow k h1 h2
    case isFalse hgt => exact skipped_read Data recId fun _ => not_lt.1 hgt

/-- What the loop over the rows keeps: what has been read, what has been found, and that documents are found in
ascending order. -/
structure Kept (s t : JoinState) : Prop where
  reads : ∀ x ∈ s.reads, x ∈ t.reads
  joined : ∀ p ∈ s.joined, p ∈ t.joined
  later : ∀ p ∈ t.joined, p ∈ s.joined ∨ s.j ≤ p.1

theorem Kept.refl (s : JoinState) : Kept s s := ⟨fun _ => id, fun _ => id, fun _ => .inl⟩

theorem Kept.trans {u : JoinState} (hst : Kept s t) (htu : Kept t u) (hj : s.j ≤ t.j) : Kept s u := by
  refine ⟨fun x hx => htu.reads x (hst.reads x hx), fun p hp => htu.joined p (hst.joined p hp), fun p hp => ?_⟩
  rcases htu.later p hp with hp | hp
  · exact hst.later p hp
  · exact .inr (hj.trans hp)

theorem Skipped.kept {Data : ℕ → ℤ} {recId : ℤ} (h : Skipped Data recId left s t) :
    Kept s t.read := by
  refine ⟨fun x hx => List.mem_append_left _ ((h.mem_reads x).2 (.inl hx)), fun p hp => ?_, fun p hp => .inl ?_⟩
  · exact h.joined.symm ▸ hp
  · exact h.joined ▸ hp

theorem kept_found (s : JoinState) (i : ℕ) : Kept s (s.found i) := by
  refine ⟨fun _ => id, fun p hp => List.mem_append_left _ hp, fun p hp => ?_⟩
  rcases List.mem_append.1 hp with hp | hp
  · exact .inl hp
  · rw [List.mem_singleton.1 hp]
    exact .inr le_rfl

theorem kept_joinRows (Data : ℕ → ℤ) (ncoords i : ℕ) (rows : List ℤ) (s : JoinState) :
    Kept s (joinRows Data ncoords i rows s) := by
  induction rows generalizing i s with
  | nil => exact .refl s
  | cons recId rows ih =>
    have hskip := skipped_skipBelow Data recId (ncoords - s.j) s
    have hfound := hskip.kept.trans (kept_found _ i) hskip.le
    have hj : s.j ≤ ((skipBelow Data recId (ncoords - s.j) s).read.found i).j := hskip.le.trans (Nat.le_succ _)
    rw [joinRows]
    split
    · split
      · exact hfound
      · exact hfound.trans (ih _ _) hj
    · exact hskip.kept.trans (ih _ _) hskip.le

/-! ## The whole run -/

/-- What is wanted of the documents from `j` on, if the loop ends in the state `t`. -/
def JoinsFrom (docs all : List ℤ) (j : ℕ) (t : JoinState) : Prop :=
  (∀ x ∈ t.reads, x < docs.length) ∧
    ∀ k id, j ≤ k → docs[k]? = some id → id ∈ all → ∃ i, (k, i) ∈ t.joined ∧ all[i]? = some id

theorem urlIdAt_of_getElem? {past : ℕ → ℤ} {k : ℕ} (h : docs[k]? = some id) :
    urlIdAt past docs k = id := by
  rw [urlIdAt, h, Option.getD_some]

theorem joinsFrom_skip {docs all : List ℤ} {j j' : ℕ} {t : JoinState} (hj : j ≤ j')
    (hlater : ∀ p ∈ t.joined, p.1 < j ∨ j' ≤ p.1) :
    JoinsFrom docs all j t ↔ (∀ d ∈ (docs.drop j).take (j' - j), d ∉ all) ∧ JoinsFrom docs all j' t := by
  constructor
  · refine fun h => ⟨fun d hd hall => ?_, h.1, fun k id hk => h.2 k id (hj.trans hk)⟩
    obtain ⟨m, hm⟩ := List.mem_iff_getElem?.1 hd
    have hlt : m < j' - j := by
      by_contra hge
      rw [List.getElem?_take, if_neg hge] at hm
      cases hm
    rw [List.getElem?_take_of_lt hlt, List.getElem?_drop] at hm
    obtain ⟨i, hi, -⟩ := h.2 (j + m) d (Nat.le_add_right _ _) hm hall
    have := hlater _ hi
    omega
  · rintro ⟨hout, hreads, hjoined⟩
    refine ⟨hreads, fun k id hk hid hall => ?_⟩
    rcases Nat.lt_or_ge k j' with hlt | hge
    · refine absurd hall (hout id (List.mem_iff_getElem?.2 ⟨k - j, ?_⟩))
      rw [List.getElem?_take_of_lt (by omega), List.getElem?_drop, Nat.add_sub_cancel' hk, hid]
    · exact hjoined k id hge hid hall

theorem joinsFrom_found {all : List ℤ} {j i : ℕ} (hid : docs[j]? = some id)
    (hi : (j, i) ∈ t.joined) (hrow : all[i]? = some id) : JoinsFrom docs all j t ↔ JoinsFrom docs all (j + 1) t := by
  refine ⟨fun h => ⟨h.1, fun k id hk => h.2 k id (by omega)⟩, fun h => ⟨h.1, fun k id' hk hid' hall => ?_⟩⟩
  rcases Nat.eq_or_lt_of_le hk with rfl | hk
  · rw [hid, Option.some_inj] at hid'
    exact ⟨i, hi, hid' ▸ hrow⟩
  · exact h.2 k id' hk hid' hall

section

variable {past : ℕ → ℤ} {docs all rows : List ℤ} {r : ℤ} {i : ℕ} {s t : JoinState}

theorem Skipped.take_lt (h : Skipped (urlIdAt past docs) r (docs.length - s.j) s t) :
    ∀ d ∈ (docs.drop s.j).take (t.j - s.j), d < r := by
  intro d hd
  obtain ⟨m, hm⟩ := List.mem_iff_getElem?.1 hd
  have hlt : m < t.j - s.j := by
    by_contra hge
    rw [List.getElem?_take, if_neg hge] at hm
    cases hm
  rw [List.getElem?_take_of_lt hlt, List.getElem?_drop] at hm
  have hbelow := h.below (s.j + m) (by omega) (by omega)
  rwa [urlIdAt_of_getElem? hm] at hbelow

theorem Skipped.read_lt (h : Skipped (urlIdAt past docs) r (docs.length - s.j) s t) (hlt : t.j < docs.length)
    (hreads : ∀ x ∈ s.reads, x < docs.length) : ∀ x ∈ t.read.reads, x < docs.length := by
  intro x hx
  rcases List.mem_append.1 hx with hx | hx
  · rcases (h.mem_reads x).1 hx with hx | hx
    · exact hreads x hx
    · omega
  · rw [List.mem_singleton.1 hx]
    exact hlt

theorem mem_joined_found {p : ℕ × ℕ} (h : p ∈ (t.read.found i).joined) : p ∈ t.joined ∨ p = (t.j, i) :=
  (List.mem_append.1 h).imp_right List.mem_singleton.1

/-- The loop has skipped all documents: the element at the end is read, and there is a row too many. -/
theorem joinsFrom_joinRows_end (hr : ∀ x ∈ rows, r ≤ x)
    (hskip : Skipped (urlIdAt past docs) r (docs.length - s.j) s (skipBelow (urlIdAt past docs) r (docs.length - s.j) s))
    (hend : (skipBelow (urlIdAt past docs) r (docs.length - s.j) s).j = docs.length) :
    JoinsFrom docs all s.j (joinRows (urlIdAt past docs) docs.length i (r :: rows) s) ↔
      Covered all (docs.drop s.j) (r :: rows) := by
  have hds := hskip.take_lt
  rw [hend, List.take_of_length_le (by rw [List.length_drop])] at hds
  refine iff_of_false (fun h => lt_irrefl docs.length (h.1 _ ?_)) (not_covered hds hr)
  rw [joinRows]
  generalize skipBelow (urlIdAt past docs) r (docs.length - s.j) s = t at hend
  have hmem : docs.length ∈ t.read.reads := List.mem_append_right _ (List.mem_singleton.2 hend.symm)
  split
  · split
    · exact hmem
    · exact (kept_joinRows _ _ _ _ _).reads _ hmem
  · exact (kept_joinRows _ _ _ _ _).reads _ hmem

/-- **The loop over the rows that are left**, by the documents that are left. -/
theorem joinsFrom_joinRows (hdocs : docs.Pairwise (· ≤ ·)) (hrows : rows.Pairwise (· ≤ ·)) (hi : all.drop i = rows)
    (hj : s.j ≤ docs.length) (hreads : ∀ x ∈ s.reads, x < docs.length) (hjoined : ∀ p ∈ s.joined, p.1 < s.j) :
    JoinsFrom docs all s.j (joinRows (urlIdAt past docs) docs.length i rows s) ↔
      Covered all (docs.drop s.j) rows := by
  induction rows generalizing i s with
  | nil =>
    rw [covered_nil, joinRows]
    have hskip := @joinsFrom_skip docs all s.j docs.length s hj fun p hp => .inl (hjoined p hp)
    rw [List.take_of_length_le (by rw [List.length_drop])] at hskip
    refine hskip.trans (and_iff_left ⟨hreads, fun k id hk hid => ?_⟩)
    rw [List.getElem?_eq_none hk] at hid
    cases hid
  | cons r rows ih =>
    obtain ⟨hr, hrows'⟩ := List.pairwise_cons.1 hrows
    have hskip := skipped_skipBelow (urlIdAt past docs) r (docs.length - s.j) s
    have hleft := hskip.le_left
    rw [Nat.add_sub_cancel' hj] at hleft
    rcases Nat.eq_or_lt_of_le hleft with hend | hlt
    · exact joinsFrom_joinRows_end hr hskip hend
    rw [joinRows]
    generalize skipBelow (urlIdAt past docs) r (docs.length - s.j) s = t at hskip hleft hlt
    have hle := hskip.le
    have htj : t.read.j = t.j := rfl
    have hfj : (t.read.found i).j = t.j + 1 := rfl
    have hrow : all[i]? = some r := by
      have h0 : (all.drop i)[0]? = some r := by rw [hi, List.getElem?_cons_zero]
      rwa [List.getElem?_drop] at h0
    have hi' : all.drop (i + 1) = rows := by rw [← List.drop_drop, hi, List.drop_one, List.tail_cons]
    have hread := hskip.read_lt hlt hreads
    have hjoined' : ∀ p ∈ t.joined, p.1 < s.j := hskip.joined.symm ▸ hjoined
    -- The document at which the loop that skips has stopped.
    obtain ⟨d, hd⟩ : ∃ d, docs[t.j]? = some d := ⟨_, List.getElem?_eq_getElem hlt⟩
    have hdrop : docs.drop t.j = d :: docs.drop (t.j + 1) := by
      rw [List.getElem?_eq_getElem hlt, Option.some_inj] at hd
      rw [List.drop_eq_getElem_cons hlt, hd]
    have hrd : r ≤ d := by
      have hstop := hskip.stop (by omega)
      rwa [urlIdAt_of_getElem? hd] at hstop
    obtain ⟨hde, -⟩ := List.pairwise_cons.1 (hdrop ▸ hdocs.sublist (List.drop_sublist t.j docs))
    have hge : ∀ e ∈ d :: docs.drop (t.j + 1), r ≤ e :=
      List.forall_mem_cons.2 ⟨hrd, fun e he => hrd.trans (hde e he)⟩
    have hsplit : docs.drop s.j = (docs.drop s.j).take (t.j - s.j) ++ (d :: docs.drop (t.j + 1)) := by
      rw [← hdrop, ← Nat.add_sub_cancel' hle, ← List.drop_drop, Nat.add_sub_cancel_left, List.take_append_drop]
    rw [hsplit, covered_skip hskip.take_lt hge (List.cons_ne_nil _ _) hr, htj, urlIdAt_of_getElem? hd]
    have hmem : (t.j, i) ∈ (t.read.found i).joined := List.mem_append_right _ (List.mem_singleton.2 rfl)
    have hfar : ∀ p ∈ (t.read.found i).joined, p.1 < s.j ∨ t.j ≤ p.1 := by
      intro p hp
      rcases mem_joined_found hp with hp | rfl
      · exact .inl (hjoined' p hp)
      · exact .inr le_rfl
    split
    case isTrue heq =>
      subst heq
      split
      case isTrue hlast =>
        rw [show docs.drop (t.j + 1) = [] from List.drop_of_length_le (by omega), joinsFrom_skip hle hfar,
          joinsFrom_found hd hmem hrow]
        refine and_congr_right fun _ => iff_of_true ⟨hread, fun k id hk hid _ => ?_⟩ covered_singleton
        rw [List.getElem?_eq_none (by omega)] at hid
        cases hid
      case isFalse hlast =>
        have hne : docs.drop (t.j + 1) ≠ [] := fun h => by
          rw [List.drop_eq_nil_iff] at h
          omega
        have hkept := kept_joinRows (urlIdAt past docs) docs.length (i + 1) rows (t.read.found i)
        have hlow : ∀ p ∈ (t.read.found i).joined, p.1 < t.j + 1 := by
          intro p hp
          rcases mem_joined_found hp with hp | rfl
          · exact (hjoined' p hp).trans (Nat.lt_succ_of_le hle)
          · exact Nat.lt_succ_self _
        have hrec := @ih (i + 1) (t.read.found i) hrows' hi' hlt hread hlow
        rw [hfj] at hrec
        rw [joinsFrom_skip hle fun p hp => ?_, joinsFrom_found hd (hkept.joined _ hmem) hrow, hrec,
          covered_found hde hne (List.mem_of_getElem? hrow)]
        rcases hkept.later p hp with hp | hp
        · exact hfar p hp
        · exact .inr ((Nat.le_succ _).trans hp)
    case isFalse hne =>
      have hrd' : r < d := lt_of_le_of_ne hrd hne
      have hkept := kept_joinRows (urlIdAt past docs) docs.length (i + 1) rows t.read
      have hrec := @ih (i + 1) t.read hrows' hi' hleft hread fun p hp => (hjoined' p hp).trans_le hle
      rw [htj, hdrop] at hrec
      rw [joinsFrom_skip hle fun p hp => ?_, hrec, covered_pass (fun e he => ?_) (List.cons_ne_nil _ _)]
      · exact (List.forall_mem_cons.2 ⟨hrd', fun e he => hrd'.trans_le (hde e he)⟩ :
          ∀ e ∈ d :: docs.drop (t.j + 1), r < e) e he
      · exact (hkept.later p hp).imp (hjoined' p) id

end

/-- **`UdmURLDataUnpackRecID` does what is wanted exactly if the record covers the documents.** -/
theorem unpackRecID_iff (past : ℕ → ℤ) {docs rows : List ℤ} (hdocs : docs.Pairwise (· ≤ ·))
    (hrows : rows.Pairwise (· ≤ ·)) : JoinsInBounds past docs rows ↔ Covered rows docs rows := by
  have hrun := @joinsFrom_joinRows past docs rows rows 0 ⟨0, 0, [], []⟩ hdocs hrows rfl (Nat.zero_le _)
    (fun x hx => absurd hx List.not_mem_nil) fun p hp => absurd hp List.not_mem_nil
  rw [List.drop_zero] at hrun
  rw [← hrun, JoinsInBounds, JoinsFrom, udmURLDataUnpackRecID]
  dsimp only
  split <;> simp only [Nat.zero_le, true_imp_iff]

/-- Three documents with rows, the last of which is the last document. -/
theorem unpackRecID_three : JoinsInBounds (fun _ => 0) [1, 3, 4] [1, 2, 3, 4, 5] :=
  (unpackRecID_iff (fun _ => 0) (by decide) (by decide)).2 ⟨by decide, by decide⟩

/-- A row that comes after the last document, which has no row: the element after the last one is read. -/
theorem not_joinsInBounds : ¬ JoinsInBounds (fun _ => 0) [1] [2] := fun h => absurd (h.1 1 (by decide)) (by decide)

end MnoGoSearch.Blob
