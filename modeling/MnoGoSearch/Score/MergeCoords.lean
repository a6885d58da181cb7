import MnoGoSearch.Score.PhraseCheck
import Mathlib.Data.List.Sort

/-!
# The coords of two words

`UdmMergeCoordsN2` (`score.c`) brings the coords of two words into one list. From a run of coords of
one word that no coord of the other word interrupts it writes only the first and the last one.
`mem_mergeLoop_fst` and `mem_mergeLoop_snd` say which coords get lost, and `mergeExact_iff` when the
check of a phrase of the two words does not see it.
-/

namespace MnoGoSearch.Score

open Query (StackCmd UdmStackItem)

/-- The part of `UDM_SECTION` that is merged: the coords of one word in a section. -/
structure SectionCoords where
  /-- The number of the word in the query. -/
  order : ℕ
  /-- The positions of the coords. -/
  coord : List ℕ
  deriving DecidableEq, Repr

/-- A run: its first coord and the last one of the rest, if there is a rest. -/
def runCoords (order c : ℕ) (run : List ℕ) : List UdmCoord2 :=
  ⟨c, order⟩ :: (run.getLast?.map fun l => ⟨l, order⟩).toList

/-- The label `single`: one list is at its end. -/
def single (order : ℕ) : List ℕ → ℕ → List UdmCoord2 × ℕ
  | [], total => ([], total)
  | c :: src, total => (runCoords order c src, total - (src.length - 1))

/-- The loop of `UdmMergeCoordsN2`: what it writes and what `total` becomes. -/
def mergeLoop (order1 order2 : ℕ) : List ℕ → List ℕ → ℕ → List UdmCoord2 × ℕ
  | [], src2, total => single order2 src2 total
  | c1 :: src1, [], total => single order1 (c1 :: src1) total
  | c1 :: src1, c2 :: src2, total =>
    if c1 < c2 then
      let run := src1.takeWhile fun c => decide (c < c2)
      let rest := mergeLoop order1 order2 (src1.dropWhile fun c => decide (c < c2)) (c2 :: src2)
        (total - (run.length - 1))
      (runCoords order1 c1 run ++ rest.1, rest.2)
    else
      let run := src2.takeWhile fun c => decide (c < c1)
      let rest := mergeLoop order1 order2 (c1 :: src1) (src2.dropWhile fun c => decide (c < c1))
        (total - (run.length - 1))
      (runCoords order2 c2 run ++ rest.1, rest.2)
termination_by src1 src2 => src1.length + src2.length
decreasing_by
  · have := List.length_dropWhile_le (fun c => decide (c < c2)) src1
    simp only [List.length_cons]
    omega
  · have := List.length_dropWhile_le (fun c => decide (c < c1)) src2
    simp only [List.length_cons]
    omega

/-- `UdmMergeCoordsN2`: the coords written and the number returned. -/
def udmMergeCoordsN2 (S1 S2 : SectionCoords) : List UdmCoord2 × ℕ :=
  if S1.coord = [] ∨ S2.coord = [] then ([], 0)
  else mergeLoop S1.order S2.order S1.coord S2.coord (S1.coord.length + S2.coord.length)

/-! ## The full merge -/

/-- All coords of a section. -/
def SectionCoords.coords (S : SectionCoords) : List UdmCoord2 := S.coord.map fun c => ⟨c, S.order⟩

/-- All coords of two lists, in the order of their positions; in one place the second word is first. -/
def mergeAll (order1 order2 : ℕ) (src1 src2 : List ℕ) : List UdmCoord2 :=
  (src2.map fun c => ⟨c, order2⟩).merge (src1.map fun c => ⟨c, order1⟩) fun a b => decide (a.pos ≤ b.pos)

/-- All coords of two sections. -/
def fullMerge (S1 S2 : SectionCoords) : List UdmCoord2 := mergeAll S1.order S2.order S1.coord S2.coord

theorem mergeAll_nil_left (order1 order2 : ℕ) (src2 : List ℕ) :
    mergeAll order1 order2 [] src2 = src2.map fun c => ⟨c, order2⟩ := by
  rw [mergeAll, List.map_nil, List.merge_right]

theorem mergeAll_nil_right (order1 order2 : ℕ) (src1 : List ℕ) :
    mergeAll order1 order2 src1 [] = src1.map fun c => ⟨c, order1⟩ := by
  rw [mergeAll, List.map_nil, List.nil_merge]

variable {order1 order2 : ℕ} {run src : List ℕ}

theorem mergeAll_append_left {c2 : ℕ} (hrun : ∀ c ∈ run, c < c2) (src1 src2 : List ℕ) :
    mergeAll order1 order2 (run ++ src1) (c2 :: src2) =
      run.map (fun c => ⟨c, order1⟩) ++ mergeAll order1 order2 src1 (c2 :: src2) := by
  induction run with
  | nil => rfl
  | cons c run ih =>
    obtain ⟨hc, hrest⟩ := List.forall_mem_cons.mp hrun
    have ih := ih hrest
    simp only [mergeAll, List.map_cons, List.cons_append] at ih ⊢
    rw [List.cons_merge_cons_neg, ih]
    simpa using hc

theorem mergeAll_append_right {c1 : ℕ} (hrun : ∀ c ∈ run, c ≤ c1) (src1 src2 : List ℕ) :
    mergeAll order1 order2 (c1 :: src1) (run ++ src2) =
      run.map (fun c => ⟨c, order2⟩) ++ mergeAll order1 order2 (c1 :: src1) src2 := by
  induction run with
  | nil => rfl
  | cons c run ih =>
    obtain ⟨hc, hrest⟩ := List.forall_mem_cons.mp hrun
    have ih := ih hrest
    simp only [mergeAll, List.map_cons, List.cons_append] at ih ⊢
    rw [List.cons_merge_cons_pos, ih]
    simpa using hc

theorem runCoords_sublist (order c : ℕ) (run : List ℕ) :
    (runCoords order c run).Sublist ((c :: run).map fun c => ⟨c, order⟩) := by
  refine List.Sublist.cons_cons _ ?_
  rcases List.eq_nil_or_concat' run with rfl | ⟨front, l, rfl⟩
  · exact List.nil_sublist _
  · rw [List.getLast?_concat, List.map_append]
    exact List.sublist_append_right _ _

theorem mem_runCoords {order c : ℕ} {x : UdmCoord2} :
    x ∈ runCoords order c run ↔ x.order = order ∧ (x.pos = c ∨ run.getLast? = some x.pos) := by
  obtain ⟨pos, order'⟩ := x
  simp only [runCoords, List.mem_cons, UdmCoord2.mk.injEq, Option.mem_toList, Option.map_eq_some_iff]
  constructor
  · rintro (⟨rfl, rfl⟩ | ⟨l, hl, rfl, rfl⟩)
    · exact ⟨rfl, .inl rfl⟩
    · exact ⟨rfl, .inr hl⟩
  · rintro ⟨rfl, rfl | hl⟩
    · exact .inl ⟨rfl, rfl⟩
    · exact .inr ⟨pos, hl, rfl, rfl⟩

theorem length_runCoords (order c : ℕ) (run : List ℕ) :
    (runCoords order c run).length + (run.length - 1) = run.length + 1 := by
  rcases List.eq_nil_or_concat' run with rfl | ⟨front, l, rfl⟩
  · rfl
  · simp only [runCoords, List.getLast?_concat, Option.map_some, Option.toList_some, List.length_cons,
      List.length_nil, List.length_append]
    omega

/-! ## The loop -/

theorem mem_run {bound c : ℕ} (hc : c ∈ src.takeWhile fun c => decide (c < bound)) : c < bound := by
  have h := List.mem_takeWhile_imp hc
  exact of_decide_eq_true h

theorem run_append_rest (bound : ℕ) (src : List ℕ) :
    (src.takeWhile fun c => decide (c < bound)) ++ (src.dropWhile fun c => decide (c < bound)) = src :=
  List.takeWhile_append_dropWhile

theorem mergeLoop_sublist (order1 order2 : ℕ) (src1 src2 : List ℕ) (total : ℕ) :
    (mergeLoop order1 order2 src1 src2 total).1.Sublist (mergeAll order1 order2 src1 src2) := by
  fun_induction mergeLoop order1 order2 src1 src2 total with
  | case1 src2 total =>
    rw [mergeAll_nil_left]
    cases src2 with
    | nil => exact List.nil_sublist _
    | cons c src2 => exact runCoords_sublist order2 c src2
  | case2 c1 src1 total =>
    rw [mergeAll_nil_right]
    exact runCoords_sublist order1 c1 src1
  | case3 c1 src1 c2 src2 total hlt run rest ih =>
    have hrun : ∀ c ∈ c1 :: run, c < c2 := List.forall_mem_cons.mpr ⟨hlt, fun c hc => mem_run hc⟩
    conv_rhs => rw [← run_append_rest c2 src1, ← List.cons_append, mergeAll_append_left hrun]
    exact (runCoords_sublist order1 c1 run).append ih
  | case4 c1 src1 c2 src2 total hlt run rest ih =>
    have hrun : ∀ c ∈ c2 :: run, c ≤ c1 :=
      List.forall_mem_cons.mpr ⟨Nat.le_of_not_lt hlt, fun c hc => (mem_run hc).le⟩
    conv_rhs => rw [← run_append_rest c1 src2, ← List.cons_append, mergeAll_append_right hrun]
    exact (runCoords_sublist order2 c2 run).append ih

theorem mergeLoop_total (order1 order2 : ℕ) (src1 src2 : List ℕ) (total : ℕ)
    (htotal : src1.length + src2.length ≤ total) :
    (mergeLoop order1 order2 src1 src2 total).2 + (src1.length + src2.length) =
      (mergeLoop order1 order2 src1 src2 total).1.length + total := by
  fun_induction mergeLoop order1 order2 src1 src2 total with
  | case1 src2 total =>
    cases src2 with
    | nil => exact Nat.add_comm _ _
    | cons c src2 =>
      have := length_runCoords order2 c src2
      simp only [single, List.length_nil, List.length_cons] at htotal ⊢
      omega
  | case2 c1 src1 total =>
    have := length_runCoords order1 c1 src1
    simp only [single, List.length_nil, List.length_cons] at htotal ⊢
    omega
  | case3 c1 src1 c2 src2 total hlt run rest ih =>
    have hrun := length_runCoords order1 c1 run
    have hlen : run.length + (src1.dropWhile fun c => decide (c < c2)).length = src1.length := by
      rw [← List.length_append, run_append_rest]
    simp only [List.length_cons, List.length_append] at htotal ih ⊢
    change _ → rest.2 + _ = rest.1.length + _ at ih
    have := ih (by omega)
    omega
  | case4 c1 src1 c2 src2 total hlt run rest ih =>
    have hrun := length_runCoords order2 c2 run
    have hlen : run.length + (src2.dropWhile fun c => decide (c < c1)).length = src2.length := by
      rw [← List.length_append, run_append_rest]
    simp only [List.length_cons, List.length_append] at htotal ih ⊢
    change _ → rest.2 + _ = rest.1.length + _ at ih
    have := ih (by omega)
    omega

/-! ## What gets lost -/

/-- A coord of a word stands between two coords of this word that no coord of the other word separates. A coord in the
place of the first of the two separates them if `e = 0`. -/
def Lost (e : ℕ) (own other : List ℕ) (x : ℕ) : Prop :=
  ∃ f ∈ own, ∃ l ∈ own, f < x ∧ x < l ∧ ∀ r ∈ other, r < f + e ∨ l < r

theorem bound_le_rest {bound c : ℕ} (hsrc : src.Pairwise (· < ·))
    (hc : c ∈ src.dropWhile fun c => decide (c < bound)) : bound ≤ c := by
  obtain ⟨b, rest, hrest⟩ := List.exists_cons_of_ne_nil (List.ne_nil_of_mem hc)
  have hb := List.head?_dropWhile_not (fun c => decide (c < bound)) src
  rw [hrest, List.head?_cons] at hb
  have hle : bound ≤ b := Nat.le_of_not_lt (of_decide_eq_false hb)
  rw [← run_append_rest bound src, hrest] at hsrc
  rw [hrest] at hc
  rcases List.mem_cons.mp hc with rfl | hc
  · exact hle
  · exact hle.trans (List.rel_of_pairwise_cons (List.pairwise_append.mp hsrc).2.1 hc).le

theorem le_of_getLast? {l : List ℕ} {x c : ℕ} (hl : l.Pairwise (· < ·)) (hx : l.getLast? = some x) (hc : c ∈ l) :
    c ≤ x := by
  obtain ⟨front, rfl⟩ := List.getLast?_eq_some_iff.mp hx
  rcases List.mem_append.mp hc with hc | hc
  · exact ((List.pairwise_append.mp hl).2.2 c hc x List.mem_cons_self).le
  · exact (List.mem_singleton.mp hc).le

theorem mem_run_iff {e bound c : ℕ} {src other : List ℕ} (hsrc : (c :: src).Pairwise (· < ·))
    (hbound : c + e ≤ bound) (he : e ≤ 1) (hmem : (src.dropWhile fun c => decide (c < bound)) ≠ [] → bound ∈ other)
    (hother : ∀ r ∈ other, bound ≤ r) (x : ℕ) :
    (x = c ∨ (src.takeWhile fun c => decide (c < bound)).getLast? = some x) ∨
        (x ∈ src.dropWhile fun c => decide (c < bound)) ∧
          ¬Lost e (src.dropWhile fun c => decide (c < bound)) other x ↔
      x ∈ c :: src ∧ ¬Lost e (c :: src) other x := by
  obtain ⟨hlt, hsorted⟩ := List.pairwise_cons.mp hsrc
  have happend := run_append_rest bound src
  have hrest : ∀ y ∈ src.dropWhile fun c => decide (c < bound), bound ≤ y := fun y hy => bound_le_rest hsorted hy
  set run := src.takeWhile fun c => decide (c < bound)
  set rest := src.dropWhile fun c => decide (c < bound)
  have hrunlt : ∀ y ∈ run, y < bound := fun y hy => mem_run hy
  have hrunsorted : run.Pairwise (· < ·) := hsorted.sublist (List.takeWhile_sublist _)
  have hsub : ∀ y ∈ rest, y ∈ c :: src := fun y hy => by
    rw [← happend]
    exact List.mem_cons_of_mem c (List.mem_append_right run hy)
  have hcases : ∀ y ∈ c :: src, y = c ∨ y ∈ run ∨ y ∈ rest := fun y hy => by
    rw [← happend] at hy
    exact (List.mem_cons.mp hy).imp_right List.mem_append.mp
  -- two coords that `bound` does not separate are on the same side of it
  have hright : ∀ f ∈ c :: src, ∀ l, f < l → bound ≤ l → (bound < f + e ∨ l < bound) → f ∈ rest := by
    intro f hf l hfl hl hsep
    rcases hcases f hf with rfl | hf | hf
    · omega
    · have := hrunlt f hf
      omega
    · exact hf
  constructor
  · rintro ((rfl | hlast) | ⟨hx, hlost⟩)
    · refine ⟨List.mem_cons_self, fun ⟨f, hf, l, hl, hfx, hxl, hsep⟩ => ?_⟩
      rcases List.mem_cons.mp hf with rfl | hf
      · exact lt_irrefl _ hfx
      · exact lt_asymm hfx (hlt f hf)
    · have hx : x ∈ run := List.mem_of_getLast? hlast
      have hxlt := hrunlt x hx
      refine ⟨?_, fun ⟨f, hf, l, hl, hfx, hxl, hsep⟩ => ?_⟩
      · rw [← happend]
        exact List.mem_cons_of_mem c (List.mem_append_left rest hx)
      · rcases hcases l hl with rfl | hl | hl
        · have := hlt x (happend ▸ List.mem_append_left rest hx)
          omega
        · have := le_of_getLast? hrunsorted hlast hl
          omega
        · have := hrest f (hright f hf l (by omega) (hrest l hl) (hsep bound (hmem (List.ne_nil_of_mem hl))))
          omega
    · refine ⟨hsub x hx, fun ⟨f, hf, l, hl, hfx, hxl, hsep⟩ => hlost ?_⟩
      have hxle := hrest x hx
      have hsepx := hsep bound (hmem (List.ne_nil_of_mem hx))
      refine ⟨f, hright f hf l (by omega) (by omega) hsepx, l, ?_, hfx, hxl, hsep⟩
      rcases hcases l hl with rfl | hl | hl
      · have := hlt x (happend ▸ List.mem_append_right run hx)
        omega
      · have := hrunlt l hl
        omega
      · exact hl
  · rintro ⟨hx, hlost⟩
    rcases hcases x hx with rfl | hx | hx
    · exact .inl (.inl rfl)
    · obtain ⟨l, hl⟩ := Option.isSome_iff_exists.mp (List.getLast?_isSome.mpr (List.ne_nil_of_mem hx))
      have hlrun : l ∈ run := List.mem_of_getLast? hl
      have hllt := hrunlt l hlrun
      by_cases hxl : x = l
      · exact .inl (.inr (hxl ▸ hl))
      · refine absurd ⟨c, List.mem_cons_self, l, ?_, ?_, ?_, fun r hr => .inr ?_⟩ hlost
        · exact List.mem_cons_of_mem c (happend ▸ List.mem_append_left rest hlrun)
        · exact hlt x (happend ▸ List.mem_append_left rest hx)
        · exact lt_of_le_of_ne (le_of_getLast? hrunsorted hl hx) hxl
        · exact lt_of_lt_of_le hllt (hother r hr)
    · refine .inr ⟨hx, fun ⟨f, hf, l, hl, hfx, hxl, hsep⟩ => hlost ?_⟩
      exact ⟨f, hsub f hf, l, hsub l hl, hfx, hxl, hsep⟩

theorem lost_rest_iff {e bound c : ℕ} {src other : List ℕ} (hbound : c < bound + e)
    (hother : ∀ r ∈ other, bound ≤ r) (x : ℕ) :
    Lost e other (src.dropWhile fun c => decide (c < bound)) x ↔ Lost e other (c :: src) x := by
  constructor
  · rintro ⟨f, hf, l, hl, hfx, hxl, hsep⟩
    refine ⟨f, hf, l, hl, hfx, hxl, fun r hr => ?_⟩
    have hle := hother f hf
    rcases List.mem_cons.mp hr with rfl | hr
    · exact .inl (by omega)
    · rw [← run_append_rest bound src] at hr
      rcases List.mem_append.mp hr with hr | hr
      · have := mem_run hr
        exact .inl (by omega)
      · exact hsep r hr
  · rintro ⟨f, hf, l, hl, hfx, hxl, hsep⟩
    refine ⟨f, hf, l, hl, hfx, hxl, fun r hr => hsep r (List.mem_cons_of_mem c ?_)⟩
    exact (List.dropWhile_sublist _).subset hr

theorem mem_single_iff {e c : ℕ} (hsrc : (c :: src).Pairwise (· < ·)) (he : e ≤ 1) (x : ℕ) :
    (x = c ∨ src.getLast? = some x) ↔ x ∈ c :: src ∧ ¬Lost e (c :: src) [] x := by
  obtain ⟨bound, hbound⟩ : ∃ bound, ∀ y ∈ c :: src, y < bound :=
    ⟨(c :: src).max (List.cons_ne_nil c src) + 1, fun y hy => Nat.lt_succ_of_le (List.le_max_of_mem hy)⟩
  have htake : (src.takeWhile fun c => decide (c < bound)) = src :=
    List.takeWhile_eq_self_iff.mpr fun y hy => decide_eq_true (hbound y (List.mem_cons_of_mem c hy))
  have hdrop : (src.dropWhile fun c => decide (c < bound)) = [] :=
    List.dropWhile_eq_nil_iff.mpr fun y hy => decide_eq_true (hbound y (List.mem_cons_of_mem c hy))
  have hc := hbound c List.mem_cons_self
  have hrun := @mem_run_iff e _ c src [] hsrc (show c + e ≤ bound by omega) he (absurd hdrop)
    (fun _ hr => nomatch hr) x
  rw [htake, hdrop] at hrun
  rw [← hrun]
  exact (or_iff_left fun h => nomatch h.1).symm

/-- **What the loop keeps**: of each word the coords that are not lost. -/
theorem mem_mergeLoop (hne : order1 ≠ order2) {src1 src2 : List ℕ} (total : ℕ)
    (h1 : src1.Pairwise (· < ·)) (h2 : src2.Pairwise (· < ·)) (x : ℕ) :
    (⟨x, order1⟩ ∈ (mergeLoop order1 order2 src1 src2 total).1 ↔ x ∈ src1 ∧ ¬Lost 1 src1 src2 x) ∧
      (⟨x, order2⟩ ∈ (mergeLoop order1 order2 src1 src2 total).1 ↔ x ∈ src2 ∧ ¬Lost 0 src2 src1 x) := by
  fun_induction mergeLoop order1 order2 src1 src2 total with
  | case1 src2 total =>
    cases src2 with
    | nil => simp [single]
    | cons c2 src2 =>
      rw [single, mem_runCoords, mem_runCoords, ← mem_single_iff h2 zero_le_one]
      simp [hne]
  | case2 c1 src1 total =>
    rw [single, mem_runCoords, mem_runCoords, ← mem_single_iff h1 le_rfl]
    simp [hne.symm]
  | case3 c1 src1 c2 src2 total hlt run rest ih =>
    have hsorted := (List.pairwise_cons.mp h1).2
    obtain ⟨ih1, ih2⟩ := ih (hsorted.sublist (List.dropWhile_sublist _)) h2
    have hother : ∀ r ∈ c2 :: src2, c2 ≤ r :=
      List.forall_mem_cons.mpr ⟨le_rfl, fun r hr => (List.rel_of_pairwise_cons h2 hr).le⟩
    have hrun := mem_run_iff h1 hlt le_rfl (fun _ => List.mem_cons_self) hother x
    have hlost := @lost_rest_iff 0 c2 c1 src1 _ hlt hother x
    rw [List.mem_append, List.mem_append, mem_runCoords, mem_runCoords, ih1, ih2, hlost]
    exact ⟨by simpa using hrun, by simp [hne.symm]⟩
  | case4 c1 src1 c2 src2 total hlt run rest ih =>
    have hle : c2 ≤ c1 := Nat.le_of_not_lt hlt
    have hsorted := (List.pairwise_cons.mp h2).2
    obtain ⟨ih1, ih2⟩ := ih h1 (hsorted.sublist (List.dropWhile_sublist _))
    have hother : ∀ r ∈ c1 :: src1, c1 ≤ r :=
      List.forall_mem_cons.mpr ⟨le_rfl, fun r hr => (List.rel_of_pairwise_cons h1 hr).le⟩
    have hrun := mem_run_iff h2 hle zero_le_one (fun _ => List.mem_cons_self) hother x
    have hlost := @lost_rest_iff 1 c1 c2 src2 _ (Nat.lt_succ_of_le hle) hother x
    rw [List.mem_append, List.mem_append, mem_runCoords, mem_runCoords, ih1, ih2, hlost]
    exact ⟨by simp [hne], by simpa using hrun⟩

/-! ## Phrases of the two words -/

theorem occursAt_two {a b : ℕ} {coords : List UdmCoord2} {p : ℕ} :
    OccursAt [⟨.word, a⟩, ⟨.word, b⟩] coords p ↔ ⟨p, a⟩ ∈ coords ∧ ⟨p + 1, b⟩ ∈ coords := by
  rw [occursAt_cons, occursAt_cons]
  exact ⟨fun h => ⟨h.1 StackCmd.noConfusion, h.2.1 StackCmd.noConfusion⟩,
    fun h => ⟨fun _ => h.1, fun _ => h.2, occursAt_nil coords _⟩⟩

theorem gapsFree_two {a b : ℕ} (coords : List UdmCoord2) (p : ℕ) : GapsFree [⟨.word, a⟩, ⟨.word, b⟩] coords p := by
  rw [gapsFree_cons, gapsFree_cons]
  exact ⟨fun h => StackCmd.noConfusion h, fun h => StackCmd.noConfusion h, fun _ _ hitem => nomatch hitem⟩

theorem checkOnePhrase_two {a b cmdArg seclen : ℕ} {coords : List UdmCoord2} (hs : SortedByPos coords) :
    checkOnePhrase ⟨.word, a⟩ [⟨.word, b⟩] cmdArg seclen coords = true ↔
      Fits cmdArg seclen 2 ∧ ∃ p, ⟨p, a⟩ ∈ coords ∧ ⟨p + 1, b⟩ ∈ coords := by
  rw [checkOnePhrase_iff StackCmd.noConfusion hs]
  simp only [occursAt_two, gapsFree_two, and_true, List.length_singleton, Nat.reduceAdd]

/-- What the merge of the coords of two words must do: write some of all coords, in order, count them, and leave every
phrase of two words what it was. The words of a query have different numbers. -/
structure MergeExact (S1 S2 : SectionCoords) : Prop where
  /-- The coords written are in order, -/
  sorted : SortedByPos (udmMergeCoordsN2 S1 S2).1
  sublist : (udmMergeCoordsN2 S1 S2).1.Sublist (fullMerge S1 S2)
  count : (udmMergeCoordsN2 S1 S2).2 = (udmMergeCoordsN2 S1 S2).1.length
  /-- A phrase is found in them if it is found in all coords. -/
  phrase : ∀ a b cmdArg seclen, a ≠ b →
    checkOnePhrase ⟨.word, a⟩ [⟨.word, b⟩] cmdArg seclen (udmMergeCoordsN2 S1 S2).1 =
      checkOnePhrase ⟨.word, a⟩ [⟨.word, b⟩] cmdArg seclen (fullMerge S1 S2)

/-- The first word stands at `p` together with the second one, and at `p + 1` and later again, before the second one
does: its coord at `p + 1` is not written. -/
def Overrun (S1 S2 : SectionCoords) (p : ℕ) : Prop :=
  p ∈ S1.coord ∧ ∃ q ∈ S1.coord, p + 1 < q ∧ ∀ r ∈ S2.coord, r ≤ p ∨ q < r

theorem sorted_fullMerge {S1 S2 : SectionCoords} (h1 : S1.coord.Pairwise (· < ·)) (h2 : S2.coord.Pairwise (· < ·)) :
    SortedByPos (fullMerge S1 S2) := by
  have htagged : ∀ (order : ℕ) {src : List ℕ}, src.Pairwise (· < ·) →
      (src.map fun c => (⟨c, order⟩ : UdmCoord2)).Pairwise fun a b => decide (a.pos ≤ b.pos) = true :=
    fun order src h => List.pairwise_map.mpr (h.imp fun hlt => decide_eq_true hlt.le)
  refine (List.pairwise_merge (fun a b c hab hbc => ?_) (fun a b => ?_) _ _ (htagged S2.order h2)
    (htagged S1.order h1)).imp of_decide_eq_true
  · exact decide_eq_true ((of_decide_eq_true hab).trans (of_decide_eq_true hbc))
  · rw [Bool.or_eq_true, decide_eq_true_eq, decide_eq_true_eq]
    exact le_total a.pos b.pos

theorem mem_fullMerge {S1 S2 : SectionCoords} {p order : ℕ} :
    ⟨p, order⟩ ∈ fullMerge S1 S2 ↔ order = S1.order ∧ p ∈ S1.coord ∨ order = S2.order ∧ p ∈ S2.coord := by
  rw [fullMerge, mergeAll, List.mem_merge, List.mem_map, List.mem_map]
  simp only [UdmCoord2.mk.injEq]
  constructor
  · rintro (⟨c, hc, rfl, rfl⟩ | ⟨c, hc, rfl, rfl⟩)
    · exact .inr ⟨rfl, hc⟩
    · exact .inl ⟨rfl, hc⟩
  · rintro (⟨rfl, hp⟩ | ⟨rfl, hp⟩)
    · exact .inr ⟨p, hp, rfl, rfl⟩
    · exact .inl ⟨p, hp, rfl, rfl⟩

section

variable {S1 S2 : SectionCoords} {p : ℕ}

theorem udmMergeCoordsN2_sublist (S1 S2 : SectionCoords) : (udmMergeCoordsN2 S1 S2).1.Sublist (fullMerge S1 S2) := by
  rw [udmMergeCoordsN2]
  split_ifs
  · exact List.nil_sublist _
  · exact mergeLoop_sublist _ _ _ _ _

theorem udmMergeCoordsN2_count (S1 S2 : SectionCoords) :
    (udmMergeCoordsN2 S1 S2).2 = (udmMergeCoordsN2 S1 S2).1.length := by
  rw [udmMergeCoordsN2]
  split_ifs
  · rfl
  · exact Nat.add_right_cancel (mergeLoop_total _ _ _ _ _ le_rfl)

theorem numbers_of_pair {a b : ℕ} (hab : a ≠ b) (ha : ⟨p, a⟩ ∈ fullMerge S1 S2) (hb : ⟨p + 1, b⟩ ∈ fullMerge S1 S2) :
    a = S1.order ∧ b = S2.order ∧ p ∈ S1.coord ∧ p + 1 ∈ S2.coord ∨
      a = S2.order ∧ b = S1.order ∧ p ∈ S2.coord ∧ p + 1 ∈ S1.coord := by
  rcases mem_fullMerge.mp ha with ⟨ha, hp⟩ | ⟨ha, hp⟩ <;> rcases mem_fullMerge.mp hb with ⟨hb, hp1⟩ | ⟨hb, hp1⟩
  · exact absurd (ha.trans hb.symm) hab
  · exact .inl ⟨ha, hb, hp, hp1⟩
  · exact .inr ⟨ha, hb, hp, hp1⟩
  · exact absurd (ha.trans hb.symm) hab

variable (hne : S1.order ≠ S2.order) (h1 : S1.coord.Pairwise (· < ·)) (h2 : S2.coord.Pairwise (· < ·))

include hne h1 h2

theorem mem_udmMergeCoordsN2 (hc1 : S1.coord ≠ []) (hc2 : S2.coord ≠ []) (x : ℕ) :
    (⟨x, S1.order⟩ ∈ (udmMergeCoordsN2 S1 S2).1 ↔ x ∈ S1.coord ∧ ¬Lost 1 S1.coord S2.coord x) ∧
      (⟨x, S2.order⟩ ∈ (udmMergeCoordsN2 S1 S2).1 ↔ x ∈ S2.coord ∧ ¬Lost 0 S2.coord S1.coord x) := by
  rw [udmMergeCoordsN2, if_neg (not_or.mpr ⟨hc1, hc2⟩)]
  exact mem_mergeLoop hne _ h1 h2 x

theorem pair_first_second (hp : p ∈ S1.coord) (hp1 : p + 1 ∈ S2.coord) :
    ⟨p, S1.order⟩ ∈ (udmMergeCoordsN2 S1 S2).1 ∧ ⟨p + 1, S2.order⟩ ∈ (udmMergeCoordsN2 S1 S2).1 := by
  have hmem := mem_udmMergeCoordsN2 hne h1 h2 (List.ne_nil_of_mem hp) (List.ne_nil_of_mem hp1)
  refine ⟨(hmem p).1.mpr ⟨hp, ?_⟩, (hmem (p + 1)).2.mpr ⟨hp1, ?_⟩⟩
  · rintro ⟨f, -, l, -, hf, hl, hsep⟩
    have := hsep (p + 1) hp1
    omega
  · rintro ⟨f, -, l, -, hf, hl, hsep⟩
    have := hsep p hp
    omega

theorem pair_second_first (hp : p ∈ S2.coord) (hp1 : p + 1 ∈ S1.coord) :
    ⟨p, S2.order⟩ ∈ (udmMergeCoordsN2 S1 S2).1 ∧
      (⟨p + 1, S1.order⟩ ∈ (udmMergeCoordsN2 S1 S2).1 ↔ ¬Overrun S1 S2 p) := by
  have hmem := mem_udmMergeCoordsN2 hne h1 h2 (List.ne_nil_of_mem hp1) (List.ne_nil_of_mem hp)
  refine ⟨(hmem p).2.mpr ⟨hp, ?_⟩, ?_⟩
  · rintro ⟨f, -, l, -, hf, hl, hsep⟩
    have := hsep (p + 1) hp1
    omega
  · rw [(hmem (p + 1)).1, and_iff_right hp1]
    refine not_congr ⟨?_, ?_⟩
    · rintro ⟨f, hf, q, hq, hfp, hpq, hsep⟩
      have hfp : f = p := by
        have := hsep p hp
        omega
      subst hfp
      exact ⟨hf, q, hq, hpq, fun r hr => (hsep r hr).imp_left Nat.le_of_lt_succ⟩
    · rintro ⟨hp', q, hq, hpq, hsep⟩
      exact ⟨p, hp', q, hq, Nat.lt_succ_self p, hpq, fun r hr => (hsep r hr).imp_left Nat.lt_succ_of_le⟩

end

/-- **When the merge leaves every phrase what it was**: if the first word stands after the second one somewhere, then
it does so in a place where it is not overrun. -/
theorem mergeExact_iff {S1 S2 : SectionCoords} (h1 : S1.coord.Pairwise (· < ·)) (h2 : S2.coord.Pairwise (· < ·)) :
    MergeExact S1 S2 ↔ (S1.order ≠ S2.order → (∃ p ∈ S2.coord, p + 1 ∈ S1.coord) →
      ∃ p ∈ S2.coord, p + 1 ∈ S1.coord ∧ ¬Overrun S1 S2 p) := by
  have hsub := udmMergeCoordsN2_sublist S1 S2
  have hfull := sorted_fullMerge h1 h2
  have hsorted : SortedByPos (udmMergeCoordsN2 S1 S2).1 := hfull.sublist hsub
  constructor
  · rintro hexact hne ⟨p, hp, hp1⟩
    have hfound : checkOnePhrase ⟨.word, S2.order⟩ [⟨.word, S1.order⟩] 0 0 (fullMerge S1 S2) = true :=
      (checkOnePhrase_two hfull).mpr ⟨nofun, p, mem_fullMerge.mpr (.inr ⟨rfl, hp⟩), mem_fullMerge.mpr (.inl ⟨rfl, hp1⟩)⟩
    rw [← hexact.phrase _ _ _ _ hne.symm, checkOnePhrase_two hsorted] at hfound
    obtain ⟨-, q, hq, hq1⟩ := hfound
    have hnumbers := numbers_of_pair hne.symm (hsub.subset hq) (hsub.subset hq1)
    obtain ⟨-, -, hq', hq1'⟩ := hnumbers.resolve_left fun h => hne h.1.symm
    exact ⟨q, hq', hq1', (pair_second_first hne h1 h2 hq' hq1').2.mp hq1⟩
  · refine fun hcond => ⟨hsorted, hsub, udmMergeCoordsN2_count S1 S2, fun a b cmdArg seclen hab => ?_⟩
    rw [Bool.eq_iff_iff, checkOnePhrase_two hsorted, checkOnePhrase_two hfull]
    refine and_congr_right fun _ => ⟨fun ⟨p, ha, hb⟩ => ⟨p, hsub.subset ha, hsub.subset hb⟩, ?_⟩
    rintro ⟨p, ha, hb⟩
    rcases numbers_of_pair hab ha hb with ⟨rfl, rfl, hp, hp1⟩ | ⟨rfl, rfl, hp, hp1⟩
    · exact ⟨p, pair_first_second hab h1 h2 hp hp1⟩
    · obtain ⟨q, hq, hq1, hover⟩ := hcond hab.symm ⟨p, hp, hp1⟩
      have hkept := pair_second_first hab.symm h1 h2 hq hq1
      exact ⟨q, hkept.1, hkept.2.mpr hover⟩

theorem mergeExact_apart : MergeExact ⟨0, [1, 5, 6, 7]⟩ ⟨1, [2]⟩ ↔
    ((0 : ℕ) ≠ 1 → (∃ p ∈ [2], p + 1 ∈ [1, 5, 6, 7]) →
      ∃ p ∈ [2], p + 1 ∈ [1, 5, 6, 7] ∧ ¬Overrun ⟨0, [1, 5, 6, 7]⟩ ⟨1, [2]⟩ p) :=
  mergeExact_iff (by simp) (by simp)

/-- The first word at 5, 6 and 7 and the second one at 5: the phrase at 5 and 6 gets lost. -/
theorem not_mergeExact : ¬MergeExact ⟨1, [5, 6, 7]⟩ ⟨0, [5]⟩ := by
  intro h
  have hphrase := h.phrase 0 1 0 0 Nat.zero_ne_one
  simp [udmMergeCoordsN2, mergeLoop, single, runCoords, fullMerge, mergeAll, checkOnePhrase, checkRest, findCoord, Fits,
    eqArg] at hphrase

end MnoGoSearch.Score
