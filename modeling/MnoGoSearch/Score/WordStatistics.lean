import MnoGoSearch.Query.WordMask
import Mathlib

/-!
# In how many documents a word occurs

The inverse document frequency needs the number of documents of a result and, for every word of the query, the number
of those with this word (`score.c`). `UdmSectionListCalcNDocsAndWordStatistics` counts both in one loop over the
sections. The words seen in the document so far are bits of a mask of 32 bits, and the document so far is the one with
the number 0 at the beginning.

The shift by 32 and more is undefined in C, so the counts are right when they are for every value of it. They are if
and only if the first document is not 0 and documents of several sections have words below 32 only
(`wordStatistics_right_iff`).
-/

namespace MnoGoSearch.Query

open Lib.Runs

/-! ### The loop -/

/-- The variables of the loop. -/
structure WordStatistics where
  prevId : ℤ
  ndocs : ℕ
  /-- The words of the document so far. -/
  wordMask : BitVec 32
  /-- The documents with each word. -/
  order : ℕ → ℕ

/-- At the beginning. -/
def WordStatistics.start : WordStatistics := ⟨0, 0, 0, fun _ => 0⟩

/-- The part of a turn that looks at the document. -/
def WordStatistics.atUrl (st : WordStatistics) (urlId : ℤ) : WordStatistics :=
  if st.prevId ≠ urlId then { st with prevId := urlId, ndocs := st.ndocs + 1, wordMask := 0 } else st

/-- The part of a turn that looks at the word. -/
def WordStatistics.atOrder (ub : ℕ → BitVec 32) (st : WordStatistics) (order : ℕ) : WordStatistics :=
  if st.wordMask &&& shiftOne ub order = 0 then
    { st with
      order := Function.update st.order order (st.order order + 1)
      wordMask := st.wordMask ||| shiftOne ub order }
  else st

/-- One section. -/
def WordStatistics.step (ub : ℕ → BitVec 32) (st : WordStatistics) (S : UdmSection) : WordStatistics :=
  (st.atUrl S.urlId).atOrder ub S.order

/-- `UdmSectionListCalcNDocsAndWordStatistics`. -/
def udmSectionListCalcNDocsAndWordStatistics (ub : ℕ → BitVec 32) (sections : List UdmSection) : WordStatistics :=
  sections.foldl (WordStatistics.step ub) .start

/-! ### What the counts are for -/

/-- The documents of a section list. -/
def documents (sections : List UdmSection) : List ℤ := (sections.map UdmSection.urlId).dedup

/-- The documents with a word. -/
def documentsWith (sections : List UdmSection) (o : ℕ) : List ℤ :=
  documents (sections.filter fun S => S.order = o)

/-- The counts are right. -/
def WordStatistics.Right (st : WordStatistics) (sections : List UdmSection) : Prop :=
  st.ndocs = (documents sections).length ∧ ∀ o < maxWordPerQuery, st.order o = (documentsWith sections o).length

/-! ### One document -/

/-- The words of a document that are counted, with the mask so far. -/
def counted (ub : ℕ → BitVec 32) : BitVec 32 → List ℕ → List ℕ
  | _, [] => []
  | mask, o :: os =>
    if mask &&& shiftOne ub o = 0 then o :: counted ub (mask ||| shiftOne ub o) os else counted ub mask os

variable {ub : ℕ → BitVec 32} {os : List ℕ} {o : ℕ} {sections : List UdmSection}

theorem foldl_atOrder (os : List ℕ) (st : WordStatistics) :
    (os.foldl (WordStatistics.atOrder ub) st).prevId = st.prevId ∧
      (os.foldl (WordStatistics.atOrder ub) st).ndocs = st.ndocs ∧
      ∀ o, (os.foldl (WordStatistics.atOrder ub) st).order o = st.order o + (counted ub st.wordMask os).count o := by
  induction os generalizing st with
  | nil => exact ⟨rfl, rfl, fun o => rfl⟩
  | cons a os ih =>
    obtain ⟨hprev, hndocs, horder⟩ := ih (st.atOrder ub a)
    rw [List.foldl_cons, hprev, hndocs]
    by_cases hbit : st.wordMask &&& shiftOne ub a = 0
    · rw [WordStatistics.atOrder, if_pos hbit] at horder ⊢
      refine ⟨rfl, rfl, fun o => ?_⟩
      rw [horder o, counted, if_pos hbit, List.count_cons]
      simp only
      by_cases ho : o = a
      · subst ho
        simp only [Function.update_self, beq_self_eq_true, if_pos]
        omega
      · rw [Function.update_of_ne ho, if_neg (by simpa using Ne.symm ho), Nat.add_zero]
    · rw [WordStatistics.atOrder, if_neg hbit] at horder ⊢
      rw [counted, if_neg hbit]
      exact ⟨rfl, rfl, horder⟩

theorem atUrl_prevId (st : WordStatistics) (u : ℤ) : (st.atUrl u).prevId = u := by
  rw [WordStatistics.atUrl]
  split
  · rfl
  · rename_i hprev
    exact not_not.mp hprev

theorem foldl_step_of_url {u : ℤ} {g : List UdmSection} (hne : g ≠ []) (hu : ∀ S ∈ g, S.urlId = u)
    (st : WordStatistics) : g.foldl (WordStatistics.step ub) st =
      (g.map UdmSection.order).foldl (WordStatistics.atOrder ub) (st.atUrl u) := by
  have hself : ∀ (st : WordStatistics) (os : List ℕ), ((os.foldl (WordStatistics.atOrder ub) (st.atUrl u)).atUrl u) =
      os.foldl (WordStatistics.atOrder ub) (st.atUrl u) := by
    intro st os
    have hprev : (os.foldl (WordStatistics.atOrder ub) (st.atUrl u)).prevId = u := by
      rw [(foldl_atOrder os _).1, atUrl_prevId]
    rw [WordStatistics.atUrl, if_neg (not_not.mpr hprev)]
  induction g using List.reverseRecOn with
  | nil => exact absurd rfl hne
  | append_singleton g S ih =>
    have hS : S.urlId = u := hu S (by simp)
    rw [List.foldl_append, List.map_append, List.foldl_append]
    change WordStatistics.step ub (g.foldl (WordStatistics.step ub) st) S = _
    rw [WordStatistics.step, hS]
    by_cases hg : g = []
    · rw [hg]
      rfl
    · rw [ih hg fun T hT => hu T (by simp [hT]), hself]
      rfl

theorem foldl_step_doc {u : ℤ} {g : List UdmSection} (hne : g ≠ []) (hu : ∀ S ∈ g, S.urlId = u)
    {st : WordStatistics} (hmask : (st.atUrl u).wordMask = 0) :
    (g.foldl (WordStatistics.step ub) st).prevId = u ∧
      (g.foldl (WordStatistics.step ub) st).ndocs = (st.atUrl u).ndocs ∧
      ∀ o, (g.foldl (WordStatistics.step ub) st).order o =
        st.order o + (counted ub 0 (g.map UdmSection.order)).count o := by
  obtain ⟨hprevId, hndocs, horder⟩ := @foldl_atOrder ub (g.map UdmSection.order) (st.atUrl u)
  rw [← foldl_step_of_url hne hu, hmask] at horder
  rw [← foldl_step_of_url hne hu] at hprevId hndocs
  refine ⟨hprevId.trans (atUrl_prevId st u), hndocs, fun o => ?_⟩
  rw [horder o, WordStatistics.atUrl]
  split <;> rfl

/-! ### All documents -/

theorem foldl_step {gs : List (List UdmSection)} {st : WordStatistics} (hne : ∀ g ∈ gs, g ≠ [])
    (hkey : ∀ g ∈ gs, ∀ S ∈ g, ∀ T ∈ g, S.urlId = T.urlId)
    (hother : gs.Pairwise fun g g' => ∀ S ∈ g, ∀ T ∈ g', S.urlId ≠ T.urlId)
    (hprev : ∀ g ∈ gs.head?, ∀ S ∈ g, st.prevId ≠ S.urlId) :
    (gs.flatten.foldl (WordStatistics.step ub) st).ndocs = st.ndocs + gs.length ∧
      ∀ o, (gs.flatten.foldl (WordStatistics.step ub) st).order o =
        st.order o + (gs.map fun g => (counted ub 0 (g.map UdmSection.order)).count o).sum := by
  induction gs generalizing st with
  | nil => exact ⟨rfl, fun o => rfl⟩
  | cons g gs ih =>
    obtain ⟨hg, hgs⟩ := List.forall_mem_cons.mp hne
    obtain ⟨hgkey, hgskey⟩ := List.forall_mem_cons.mp hkey
    obtain ⟨hcons, htail⟩ := List.pairwise_cons.mp hother
    obtain ⟨S, hS⟩ := List.exists_mem_of_ne_nil g hg
    have hurl : st.atUrl S.urlId = { st with prevId := S.urlId, ndocs := st.ndocs + 1, wordMask := 0 } :=
      if_pos (hprev g rfl S hS)
    obtain ⟨hprevId, hndocs, horder⟩ :=
      @foldl_step_doc ub _ g hg (fun T hT => hgkey T hT S hS) st (by rw [hurl])
    rw [List.flatten_cons, List.foldl_append]
    obtain ⟨hndocs', horder'⟩ := @ih (g.foldl (WordStatistics.step ub) st) hgs hgskey htail
      fun g' hg' T hT => hprevId ▸ hcons g' (List.mem_of_mem_head? hg') S hS T hT
    refine ⟨?_, fun o => ?_⟩
    · rw [hndocs', hndocs, hurl, List.length_cons]
      exact (Nat.add_assoc _ _ _).trans (congrArg _ (Nat.add_comm _ _))
    · rw [horder' o, horder o, List.map_cons, List.sum_cons, Nat.add_assoc]

theorem start_atUrl (u : ℤ) :
    (WordStatistics.start.atUrl u).wordMask = 0 ∧ (WordStatistics.start.atUrl u).ndocs = if u = 0 then 0 else 1 := by
  by_cases hu : u = 0
  · have hstart : WordStatistics.start.atUrl u = .start := if_neg (not_not.mpr hu.symm)
    rw [hstart, if_pos hu]
    exact ⟨rfl, rfl⟩
  · have hstart : WordStatistics.start.atUrl u = ⟨u, 1, 0, fun _ => 0⟩ := if_pos (Ne.symm hu)
    rw [hstart, if_neg hu]
    exact ⟨rfl, rfl⟩

theorem runs_key (hsorted : sections.Pairwise fun S T => S.urlId ≤ T.urlId) :
    ∀ g ∈ runs UdmSection.urlId sections, ∀ S ∈ g, ∀ T ∈ g, S.urlId = T.urlId := by
  intro g hg S hS T hT
  obtain ⟨U, -, rfl⟩ := (mem_runs_iff UdmSection.urlId hsorted g).mp hg
  have hS := (List.mem_filter.mp hS).2
  have hT := (List.mem_filter.mp hT).2
  simp only [decide_eq_true_eq] at hS hT
  rw [hS, hT]

theorem runs_other (hsorted : sections.Pairwise fun S T => S.urlId ≤ T.urlId) :
    (runs UdmSection.urlId sections).Pairwise fun g g' => ∀ S ∈ g, ∀ T ∈ g', S.urlId ≠ T.urlId :=
  (pairwise_runs UdmSection.urlId hsorted).imp fun h S hS T hT => ne_of_lt (h S hS T hT)

/-- A first document 0 is taken for the one so far. -/
def lostDocs : List UdmSection → ℕ
  | [] => 0
  | S :: _ => if S.urlId = 0 then 1 else 0

theorem udmSectionListCalcNDocsAndWordStatistics_eq {sections : List UdmSection}
    (hsorted : sections.Pairwise fun S T => S.urlId ≤ T.urlId) :
    (udmSectionListCalcNDocsAndWordStatistics ub sections).ndocs + lostDocs sections =
        (runs UdmSection.urlId sections).length ∧
      ∀ o, (udmSectionListCalcNDocsAndWordStatistics ub sections).order o =
        ((runs UdmSection.urlId sections).map fun g => (counted ub 0 (g.map UdmSection.order)).count o).sum := by
  cases sections with
  | nil => exact ⟨rfl, fun o => rfl⟩
  | cons S sections =>
    have hkey := runs_key hsorted
    have hother := runs_other hsorted
    have hne : ∀ g ∈ runs UdmSection.urlId (S :: sections), g ≠ [] := fun g hg => ne_nil_of_mem_runs _ hg
    have hflat := flatten_runs UdmSection.urlId (S :: sections)
    rw [udmSectionListCalcNDocsAndWordStatistics, lostDocs]
    nth_rewrite 1 3 [← hflat]
    rw [runs_cons UdmSection.urlId hsorted] at hkey hother hne ⊢
    have hS : S ∈ S :: sections.filter fun T => T.urlId = S.urlId := List.mem_cons_self
    obtain ⟨hdoc, hdocs⟩ := List.forall_mem_cons.mp hne
    obtain ⟨hdockey, hdocskey⟩ := List.forall_mem_cons.mp hkey
    obtain ⟨hcons, htail⟩ := List.pairwise_cons.mp hother
    obtain ⟨hmask, hstart⟩ := start_atUrl S.urlId
    obtain ⟨hprevId, hndocs, horder⟩ := @foldl_step_doc ub _ _ hdoc (fun T hT => hdockey T hT S hS) .start hmask
    obtain ⟨hndocs', horder'⟩ := @foldl_step ub _ _ hdocs hdocskey htail
      fun g hg T hT => hprevId ▸ hcons g (List.mem_of_mem_head? hg) S hS T hT
    rw [List.flatten_cons, List.foldl_append]
    refine ⟨?_, fun o => ?_⟩
    · rw [hndocs', hndocs, hstart, List.length_cons]
      split <;> omega
    · rw [horder' o, horder o]
      exact congrArg (· + _) (Nat.zero_add _)

/-! ### What is right -/

theorem length_documents (hsorted : sections.Pairwise fun S T => S.urlId ≤ T.urlId) :
    (documents sections).length = (runs UdmSection.urlId sections).length := by
  have h := length_dedup_flatten UdmSection.urlId (runs_key hsorted) (runs_other hsorted)
  rw [flatten_runs] at h
  have hone : ∀ g ∈ runs UdmSection.urlId sections, (if g.isEmpty then 0 else 1) = 1 := fun g hg =>
    if_neg fun hempty => ne_nil_of_mem_runs _ hg (List.isEmpty_iff.mp hempty)
  rw [documents, h, List.map_congr_left hone, List.map_const', List.sum_replicate_nat, Nat.mul_one]

theorem length_documentsWith
    (hsorted : sections.Pairwise fun S T => S.urlId ≤ T.urlId) (o : ℕ) :
    (documentsWith sections o).length =
      ((runs UdmSection.urlId sections).map fun g => if o ∈ g.map UdmSection.order then 1 else 0).sum := by
  have hkey : ∀ g ∈ (runs UdmSection.urlId sections).map (List.filter fun S => S.order = o),
      ∀ S ∈ g, ∀ T ∈ g, S.urlId = T.urlId := by
    intro g hg S hS T hT
    obtain ⟨g', hg', rfl⟩ := List.mem_map.mp hg
    exact runs_key hsorted g' hg' S (List.mem_filter.mp hS).1 T (List.mem_filter.mp hT).1
  have hother : ((runs UdmSection.urlId sections).map (List.filter fun S => S.order = o)).Pairwise
      fun g g' => ∀ S ∈ g, ∀ T ∈ g', S.urlId ≠ T.urlId := by
    rw [List.pairwise_map]
    exact (runs_other hsorted).imp fun h S hS T hT => h S (List.mem_filter.mp hS).1 T (List.mem_filter.mp hT).1
  have h := length_dedup_flatten UdmSection.urlId hkey hother
  rw [← List.filter_flatten, flatten_runs, List.map_map] at h
  rw [documentsWith, documents, h]
  refine congrArg List.sum (List.map_congr_left fun g _ => ?_)
  rw [Function.comp_apply]
  by_cases ho : o ∈ g.map UdmSection.order
  · obtain ⟨S, hS, hSo⟩ := List.mem_map.mp ho
    have hmem : S ∈ g.filter fun S => S.order = o := List.mem_filter.mpr ⟨hS, by simpa using hSo⟩
    rw [if_pos ho, if_neg fun hempty => List.ne_nil_of_mem hmem (List.isEmpty_iff.mp hempty)]
  · have hnil : (g.filter fun S => S.order = o) = [] := by
      rw [List.filter_eq_nil_iff]
      intro S hS hSo
      exact ho (List.mem_map.mpr ⟨S, hS, by simpa using hSo⟩)
    rw [if_neg ho, hnil, List.isEmpty_nil, if_pos rfl]

/-- The counts are right if the first document is not 0 and each word is counted once in each document. -/
theorem right_iff_sum (hsorted : sections.Pairwise fun S T => S.urlId ≤ T.urlId) :
    (udmSectionListCalcNDocsAndWordStatistics ub sections).Right sections ↔ lostDocs sections = 0 ∧
      ∀ o < maxWordPerQuery,
        ((runs UdmSection.urlId sections).map fun g => (counted ub 0 (g.map UdmSection.order)).count o).sum =
        ((runs UdmSection.urlId sections).map fun g => if o ∈ g.map UdmSection.order then 1 else 0).sum := by
  obtain ⟨hndocs, horder⟩ := @udmSectionListCalcNDocsAndWordStatistics_eq ub sections hsorted
  rw [WordStatistics.Right, length_documents hsorted]
  refine and_congr (by omega) (forall₂_congr fun o _ => ?_)
  rw [horder o, length_documentsWith hsorted]

/-! ### Words of one document -/

theorem counted_zero_cons (o : ℕ) (os : List ℕ) : counted ub 0 (o :: os) = o :: counted ub (shiftOne ub o) os := by
  have hmask : (0 : BitVec 32) &&& shiftOne ub o = 0 := BitVec.zero_and
  have hor : (0 : BitVec 32) ||| shiftOne ub o = shiftOne ub o := BitVec.zero_or
  rw [counted, if_pos hmask, hor]

theorem or_and_eq_zero {m s t : BitVec 32} : (m ||| s) &&& t = 0 ↔ m &&& t = 0 ∧ s &&& t = 0 := by
  rw [BitVec.and_or_distrib_right]
  exact BitVec.or_eq_zero_iff

theorem nodup_counted {os : List ℕ} (hbit : ∀ o ∈ os, shiftOne ub o ≠ 0) (mask : BitVec 32) :
    (counted ub mask os).Nodup ∧ ∀ o ∈ counted ub mask os, o ∈ os ∧ mask &&& shiftOne ub o = 0 := by
  induction os generalizing mask with
  | nil => exact ⟨List.nodup_nil, fun o ho => absurd ho List.not_mem_nil⟩
  | cons a os ih =>
    obtain ⟨ha, hos⟩ := List.forall_mem_cons.mp hbit
    rw [counted]
    by_cases h : mask &&& shiftOne ub a = 0
    · obtain ⟨hnodup, hmem⟩ := ih hos (mask ||| shiftOne ub a)
      rw [if_pos h, List.nodup_cons]
      refine ⟨⟨fun hin => ?_, hnodup⟩, fun o ho => ?_⟩
      · have hself := (or_and_eq_zero.mp (hmem a hin).2).2
        rw [BitVec.and_self] at hself
        exact ha hself
      · rcases List.mem_cons.mp ho with rfl | ho
        · exact ⟨List.mem_cons_self, h⟩
        · exact ⟨List.mem_cons_of_mem _ (hmem o ho).1, (or_and_eq_zero.mp (hmem o ho).2).1⟩
    · obtain ⟨hnodup, hmem⟩ := ih hos mask
      rw [if_neg h]
      exact ⟨hnodup, fun o ho => ⟨List.mem_cons_of_mem _ (hmem o ho).1, (hmem o ho).2⟩⟩

theorem shiftOne_ne_zero (ho : o < 32) : shiftOne ub o ≠ 0 := by
  intro h
  have hbit : (shiftOne ub o).getLsbD o = true := (getLsbD_shiftOne ho o).mpr rfl
  rw [h] at hbit
  simp at hbit

theorem shiftOne_and_shiftOne {a b : ℕ} (ha : a < 32) (hb : b < 32) (hab : a ≠ b) :
    shiftOne ub a &&& shiftOne ub b = 0 := by
  apply BitVec.eq_of_getLsbD_eq
  intro i hi
  rw [BitVec.getLsbD_and, Bool.eq_iff_iff, Bool.and_eq_true, getLsbD_shiftOne ha, getLsbD_shiftOne hb]
  simp
  omega

theorem mem_counted (hlt : ∀ o ∈ os, o < 32) {mask : BitVec 32} (ho : o ∈ os)
    (hmask : mask &&& shiftOne ub o = 0) : o ∈ counted ub mask os := by
  induction os generalizing mask with
  | nil => exact absurd ho List.not_mem_nil
  | cons a os ih =>
    obtain ⟨ha, hos⟩ := List.forall_mem_cons.mp hlt
    rw [counted]
    by_cases hoa : o = a
    · subst hoa
      rw [if_pos hmask]
      exact List.mem_cons_self
    · have ho' := (List.mem_cons.mp ho).resolve_left hoa
      split
      · apply List.mem_cons_of_mem
        exact ih hos ho' (or_and_eq_zero.mpr ⟨hmask, shiftOne_and_shiftOne ha (hos o ho') (Ne.symm hoa)⟩)
      · exact ih hos ho' hmask

theorem count_counted (hlt : ∀ o ∈ os, o < 32) (o : ℕ) :
    (counted ub 0 os).count o = if o ∈ os then 1 else 0 := by
  obtain ⟨hnodup, hmem⟩ := @nodup_counted ub os (fun o ho => shiftOne_ne_zero (hlt o ho)) 0
  by_cases ho : o ∈ os
  · rw [if_pos ho]
    exact List.count_eq_one_of_mem hnodup (mem_counted hlt ho BitVec.zero_and)
  · rw [if_neg ho]
    exact List.count_eq_zero_of_not_mem fun hin => ho (hmem o hin).1

theorem count_counted_zero (ho : 32 ≤ o) (mask : BitVec 32) (os : List ℕ) :
    (counted (fun _ => 0) mask os).count o = os.count o := by
  induction os generalizing mask with
  | nil => rfl
  | cons a os ih =>
    rw [counted]
    split
    · rw [List.count_cons, List.count_cons, ih]
    · rename_i hbit
      have hao : a ≠ o := by
        rintro rfl
        rw [shiftOne, if_neg (Nat.not_lt.mpr ho)] at hbit
        exact hbit BitVec.and_zero
      rw [ih, List.count_cons_of_ne hao]

theorem allOnes_shift {a b : ℕ} (h : 32 ≤ a ∨ 32 ≤ b) :
    shiftOne (fun _ => BitVec.allOnes 32) a &&& shiftOne (fun _ => BitVec.allOnes 32) b ≠ 0 := by
  have hne : ∀ o, shiftOne (fun _ => BitVec.allOnes 32) o ≠ 0 := by
    intro o
    by_cases ho : o < 32
    · exact shiftOne_ne_zero ho
    · rw [shiftOne, if_neg ho]
      decide
  rcases h with h | h
  · rw [show shiftOne (fun _ => BitVec.allOnes 32) a = BitVec.allOnes 32 from if_neg (Nat.not_lt.mpr h),
      BitVec.allOnes_and]
    exact hne b
  · rw [show shiftOne (fun _ => BitVec.allOnes 32) b = BitVec.allOnes 32 from if_neg (Nat.not_lt.mpr h),
      BitVec.and_allOnes]
    exact hne a

/-! ### When the counts are right -/

theorem eq_of_sum_map_eq {α : Type} {l : List α} {f g : α → ℕ} (hle : ∀ x ∈ l, f x ≤ g x)
    (hsum : (l.map f).sum = (l.map g).sum) : ∀ x ∈ l, f x = g x := by
  intro x hx
  by_contra hne
  have hlt := List.sum_lt_sum f g hle ⟨x, hx, lt_of_le_of_ne (hle x hx) hne⟩
  omega

/-- Each word is counted once in a document, whatever a shift by 32 and more yields: then the document has one
section or words below 32 only. -/
theorem eq_singleton_of_counted (ho : o ∈ os) (h32 : 32 ≤ o) (honce : ∀ a ∈ os, 32 ≤ a → os.count a = 1)
    (hall : ∀ a ∈ os, a ∈ counted (fun _ => BitVec.allOnes 32) 0 os) : os = [o] := by
  cases os with
  | nil => exact absurd ho List.not_mem_nil
  | cons f os =>
    rw [counted_zero_cons] at hall
    have hbit : ∀ a ∈ f :: os, shiftOne (fun _ => BitVec.allOnes 32) a ≠ 0 := fun a _ hzero => by
      have := allOnes_shift (a := a) (b := o) (.inr h32)
      rw [hzero] at this
      exact this BitVec.zero_and
    have hmem := (nodup_counted (List.forall_mem_cons.mp hbit).2 (shiftOne (fun _ => BitVec.allOnes 32) f)).2
    -- after the first section nothing is counted that is 32 or more, or comes after 32 or more
    have htail : ∀ a ∈ os, a ≠ f → a < 32 ∧ f < 32 := by
      intro a ha haf
      have hand := (hmem a ((List.mem_cons.mp (hall a (List.mem_cons_of_mem _ ha))).resolve_left haf)).2
      by_contra hge
      exact allOnes_shift (by omega) hand
    have hof : o = f := by
      by_contra hne
      have := htail o ((List.mem_cons.mp ho).resolve_left hne) hne
      omega
    subst hof
    cases os with
    | nil => rfl
    | cons a os =>
      by_cases hao : a = o
      · have hcount := honce o ho h32
        rw [hao, List.count_cons_self, List.count_cons_self] at hcount
        omega
      · have := htail a List.mem_cons_self hao
        omega

/-- **When the counts are right**: whatever a shift by 32 and more yields, they are if and only if the first document
is not 0 and a section with the word 32 or a later one is the only section of its document. -/
theorem wordStatistics_right_iff {sections : List UdmSection}
    (hsorted : sections.Pairwise fun S T => S.urlId ≤ T.urlId) (horder : ∀ S ∈ sections, S.order < maxWordPerQuery) :
    (∀ ub, (udmSectionListCalcNDocsAndWordStatistics ub sections).Right sections) ↔
      (∀ S ∈ sections.head?, S.urlId ≠ 0) ∧
        ∀ S ∈ sections, 32 ≤ S.order → (sections.filter fun T => T.urlId = S.urlId) = [S] := by
  have hlost : lostDocs sections = 0 ↔ ∀ S ∈ sections.head?, S.urlId ≠ 0 := by
    cases sections with
    | nil => simp [lostDocs]
    | cons S sections => simp [lostDocs]
  simp only [right_iff_sum hsorted, hlost]
  constructor
  · intro h
    refine ⟨(h fun _ => 0).1, fun S hS h32 => ?_⟩
    have hg := (mem_runs_iff UdmSection.urlId hsorted _).mpr ⟨S, hS, rfl⟩
    generalize hdoc : (sections.filter fun T => T.urlId = S.urlId) = doc at hg
    have hSdoc : S ∈ doc := hdoc ▸ List.mem_filter.mpr ⟨hS, by simp⟩
    have hlt : ∀ o ∈ doc.map UdmSection.order, o < maxWordPerQuery := by
      intro o ho
      obtain ⟨T, hT, rfl⟩ := List.mem_map.mp ho
      exact horder T (List.mem_filter.mp (hdoc ▸ hT)).1
    have honce : ∀ a ∈ doc.map UdmSection.order, 32 ≤ a → (doc.map UdmSection.order).count a = 1 := by
      intro a ha ha32
      have hsum := (h fun _ => 0).2 a (hlt a ha)
      simp only [count_counted_zero ha32] at hsum
      have heq := eq_of_sum_map_eq (fun g _ => ?_) hsum.symm doc hg
      · rw [if_pos ha] at heq
        exact heq.symm
      · split
        · exact List.one_le_count_iff.mpr ‹_›
        · exact Nat.zero_le _
    have hbit : ∀ o : ℕ, shiftOne (fun _ => BitVec.allOnes 32) o ≠ 0 := fun o hzero => by
      have := allOnes_shift (a := o) (b := 32) (.inr (Nat.le_refl 32))
      rw [hzero] at this
      exact this BitVec.zero_and
    have hall : ∀ a ∈ doc.map UdmSection.order,
        a ∈ counted (fun _ => BitVec.allOnes 32) 0 (doc.map UdmSection.order) := by
      intro a ha
      have hsum := (h fun _ => BitVec.allOnes 32).2 a (hlt a ha)
      have heq := eq_of_sum_map_eq (fun g _ => ?_) hsum doc hg
      · rw [if_pos ha] at heq
        exact List.one_le_count_iff.mp heq.ge
      · obtain ⟨hnodup, hmem⟩ := nodup_counted (fun o (_ : o ∈ g.map UdmSection.order) => hbit o) 0
        split
        · exact List.nodup_iff_count_le_one.mp hnodup a
        · rename_i hnot
          exact (List.count_eq_zero_of_not_mem fun hin => hnot (hmem a hin).1).le
    have hsingle := eq_singleton_of_counted (List.mem_map_of_mem hSdoc) h32 honce hall
    obtain ⟨T, rfl, -⟩ := List.map_eq_singleton_iff.mp hsingle
    rw [List.mem_singleton.mp hSdoc]
  · rintro ⟨hfirst, honly⟩ ub
    refine ⟨hfirst, fun o ho => congrArg List.sum (List.map_congr_left fun g hg => ?_)⟩
    by_cases hlt : ∀ a ∈ g.map UdmSection.order, a < 32
    · exact count_counted hlt o
    · -- the section with the word from 32 on is the whole document
      simp only [not_forall, Nat.not_lt] at hlt
      obtain ⟨a, ha, ha32⟩ := hlt
      obtain ⟨S, hS, rfl⟩ := List.mem_map.mp ha
      obtain ⟨T, hT, rfl⟩ := (mem_runs_iff UdmSection.urlId hsorted g).mp hg
      obtain ⟨hSmem, hurl⟩ := List.mem_filter.mp hS
      simp only [decide_eq_true_eq] at hurl
      rw [← hurl, honly S hSmem ha32, List.map_singleton, counted_zero_cons, counted]
      by_cases hoS : S.order = o
      · simp [hoS]
      · simp [hoS, Ne.symm hoS]

/-- A document with the words 1 and 33 of a query. -/
def words1And33 : List UdmSection := [⟨1, 1, 1, 1, 1, 1⟩, ⟨1, 33, 33, 1, 2, 2⟩]

theorem wordStatistics_right_words1And33 :
    (∀ ub, (udmSectionListCalcNDocsAndWordStatistics ub words1And33).Right words1And33) ↔
      (∀ S ∈ words1And33.head?, S.urlId ≠ 0) ∧
        ∀ S ∈ words1And33, 32 ≤ S.order → (words1And33.filter fun T => T.urlId = S.urlId) = [S] :=
  wordStatistics_right_iff (by simp [words1And33]) (by simp [words1And33, maxWordPerQuery])

/-- On a processor that shifts by the number modulo 32 the word 33 is taken for the word 1, and is not counted. -/
theorem not_wordStatistics_right : ¬∀ (ub : ℕ → BitVec 32) (sections : List UdmSection),
    sections.Pairwise (fun S T => S.urlId ≤ T.urlId) → (∀ S ∈ sections, S.order < maxWordPerQuery) →
      (udmSectionListCalcNDocsAndWordStatistics ub sections).Right sections := by
  intro h
  have hright := h (fun n => 1#32 <<< (n % 32)) words1And33 (by simp [words1And33])
    (by simp [words1And33, maxWordPerQuery])
  have h33 := hright.2 33 (by decide)
  have hcount : (udmSectionListCalcNDocsAndWordStatistics (fun n => 1#32 <<< (n % 32)) words1And33).order 33 = 0 := rfl
  have hdocs : (documentsWith words1And33 33).length = 1 := by decide
  omega

end MnoGoSearch.Query
