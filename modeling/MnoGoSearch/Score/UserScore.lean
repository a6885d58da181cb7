import MnoGoSearch.Lib.BinarySearch
import MnoGoSearch.Lib.FloatRounding
import MnoGoSearch.Result.GroupBySite
import MnoGoSearch.Score.TopScores

/-!
# User scores

A user can give documents scores of his own (`score.c`): a positive one lifts the score of a document towards 100000,
a negative one lowers it towards 0, in proportion to the highest and the lowest of the user's scores. There is one
function for the list of scores and another for the list of results, with the same formula. The first leaves a document
with the user score 0 alone; the second does not, and divides by the highest score, which is 0 if none is positive.

`userScore_agree_iff` says that this is the only difference. Numbers are those of the single precision; a value that
does not fit into an `int4` is converted to whatever the parameter `ub` says.
-/

namespace MnoGoSearch.Score

open Lib.BinarySearch Lib.FloatRounding Result

/-- `UDM_URL_INT4`. -/
structure UdmUrlInt4 where
  urlId : ℤ
  param : ℤ
  deriving DecidableEq

/-- `UdmUserScoreFindMinMax`. -/
def udmUserScoreFindMinMax (L : List UdmUrlInt4) : ℤ × ℤ :=
  L.foldl (fun m Item => (if m.1 > Item.param then Item.param else m.1, if m.2 < Item.param then Item.param else m.2))
    (0, 0)

/-- `UdmBSearch` with `UdmCmpURLID`. -/
def userScoreOf (U : List UdmUrlInt4) (urlId : ℤ) : Option UdmUrlInt4 :=
  bsearch (fun (key : ℤ) (Item : UdmUrlInt4) => compare key Item.urlId) urlId U

/-- A number as an `uint4`. -/
def uint4 (x : ℤ) : ℕ := (x % 2 ^ 32).toNat

/-- The conversion of a `float` to `int4`: the fraction is dropped. -/
def floatToInt4 (ub : ℚ → ℤ) (q : ℚ) : ℤ :=
  let n := if 0 ≤ q then ⌊q⌋ else ⌈q⌉
  if -2 ^ 31 ≤ n ∧ n < 2 ^ 31 then n else ub q

/-- `((int4) (((float) x) * param / m)) * UserScoreFactor / 255`; nothing, if `m` is 0. -/
def scoreShare (ub : ℚ → ℤ) (x : ℕ) (param m UserScoreFactor : ℤ) : Option ℤ :=
  (floatDiv (float (float x * float param)) (float m)).map fun q =>
    (int4 (floatToInt4 ub q * UserScoreFactor)).tdiv 255

/-- The new score of a document with the user score `param`, which both functions compute alike. -/
def userScored (ub : ℚ → ℤ) (minval maxval UserScoreFactor : ℤ) (param : ℤ) (score : ℕ) : Option ℕ :=
  if param ≥ 0 then
    (scoreShare ub (uint4 (100000 - score)) param maxval UserScoreFactor).map fun t => uint4 (score + t)
  else (scoreShare ub score param minval UserScoreFactor).map fun t => uint4 (score - t)

/-- One document of `UdmUserScoreListApplyToURLScoreList`. -/
def applyToURLScore (ub : ℚ → ℤ) (U : List UdmUrlInt4) (UserScoreFactor : ℤ) (C : UdmUrlScore) : Option UdmUrlScore :=
  let (minval, maxval) := udmUserScoreFindMinMax U
  match userScoreOf U C.urlId with
  | some found =>
    if found.param ≠ 0 then
      (userScored ub minval maxval UserScoreFactor found.param C.score).map fun coord => { C with score := coord }
    else some C
  | none => some C

/-- `UdmUserScoreListApplyToURLScoreList`; nothing, if it divides by 0. -/
def udmUserScoreListApplyToURLScoreList (ub : ℚ → ℤ) (L : List UdmUrlScore) (U : List UdmUrlInt4)
    (UserScoreFactor : ℤ) : Option (List UdmUrlScore) :=
  L.mapM (applyToURLScore ub U UserScoreFactor)

/-- One document of `UdmUserScoreListApplyToURLDataList`. -/
def applyToURLData (ub : ℚ → ℤ) (U : List UdmUrlInt4) (UserScoreFactor : ℤ) (D : UdmUrlData) : Option UdmUrlData :=
  let (minval, maxval) := udmUserScoreFindMinMax U
  match userScoreOf U D.urlId with
  | some found =>
    (userScored ub minval maxval UserScoreFactor found.param D.score).map fun score => { D with score := score }
  | none => some D

/-- `UdmUserScoreListApplyToURLDataList`; nothing, if it divides by 0. -/
def udmUserScoreListApplyToURLDataList (ub : ℚ → ℤ) (L : List UdmUrlData) (U : List UdmUrlInt4)
    (UserScoreFactor : ℤ) : Option (List UdmUrlData) :=
  L.mapM (applyToURLData ub U UserScoreFactor)

/-! ### The range of the user scores -/

theorem udmUserScoreFindMinMax_spec (U : List UdmUrlInt4) :
    (udmUserScoreFindMinMax U).1 ≤ 0 ∧ 0 ≤ (udmUserScoreFindMinMax U).2 ∧
      ∀ Item ∈ U, (udmUserScoreFindMinMax U).1 ≤ Item.param ∧ Item.param ≤ (udmUserScoreFindMinMax U).2 := by
  unfold udmUserScoreFindMinMax
  induction U using List.reverseRecOn with
  | nil => exact ⟨le_rfl, le_rfl, fun Item h => absurd h List.not_mem_nil⟩
  | append_singleton U Item ih =>
    rw [List.foldl_append, List.foldl_cons, List.foldl_nil]
    generalize U.foldl _ (0, 0) = m at ih
    obtain ⟨hmin, hmax, hall⟩ := ih
    refine ⟨?_, ?_, fun Item' h => ?_⟩
    · dsimp only
      split <;> omega
    · dsimp only
      split <;> omega
    · dsimp only
      rcases List.mem_append.mp h with h | h
      · have := hall Item' h
        constructor <;> split <;> omega
      · rw [List.mem_singleton.mp h]
        constructor <;> split <;> omega

theorem mem_of_userScoreOf {U : List UdmUrlInt4} {urlId : ℤ} {found : UdmUrlInt4}
    (h : userScoreOf U urlId = some found) : found ∈ U := (search_some _ h).1

/-! ### One document -/

section

variable {ub : ℚ → ℤ} {U : List UdmUrlInt4} {UserScoreFactor : ℤ}

theorem isSome_scoreShare {x : ℕ} {param m : ℤ} (hm : m ≠ 0) : (scoreShare ub x param m UserScoreFactor).isSome := by
  have hfloat : float m ≠ 0 := fun h => hm (by exact_mod_cast float_eq_zero_iff.mp h)
  rw [scoreShare, floatDiv, if_neg hfloat, Option.map_some]
  rfl

theorem scoreShare_zero_right (x : ℕ) (param : ℤ) : scoreShare ub x param 0 UserScoreFactor = none := by
  rw [scoreShare, floatDiv, Int.cast_zero, float_zero, if_pos rfl, Option.map_none]

theorem scoreShare_zero {x : ℕ} {m : ℤ} (hm : m ≠ 0) : scoreShare ub x 0 m UserScoreFactor = some 0 := by
  have hfloat : float m ≠ 0 := fun h => hm (by exact_mod_cast float_eq_zero_iff.mp h)
  have hint4 : floatToInt4 ub 0 = 0 := by
    rw [floatToInt4, if_pos le_rfl, Int.floor_zero]
    exact if_pos (by norm_num)
  rw [scoreShare, Int.cast_zero, float_zero, mul_zero, float_zero, floatDiv_zero hfloat, Option.map_some, hint4,
    zero_mul]
  rfl

theorem isSome_userScored {found : UdmUrlInt4} (hfound : found ∈ U) (hparam : found.param ≠ 0) (score : ℕ) :
    (userScored ub (udmUserScoreFindMinMax U).1 (udmUserScoreFindMinMax U).2 UserScoreFactor found.param score).isSome := by
  obtain ⟨-, -, hall⟩ := udmUserScoreFindMinMax_spec U
  have := hall found hfound
  rw [userScored]
  split
  · rw [Option.isSome_map]
    exact isSome_scoreShare (by omega)
  · rw [Option.isSome_map]
    exact isSome_scoreShare (by omega)

theorem userScored_zero {minval maxval : ℤ} {score : ℕ} (hscore : score < 2 ^ 32) :
    userScored ub minval maxval UserScoreFactor 0 score = if maxval = 0 then none else some score := by
  rw [userScored, if_pos le_rfl]
  split
  · rename_i hmax
    rw [hmax, scoreShare_zero_right, Option.map_none]
  · rename_i hmax
    rw [scoreShare_zero hmax, Option.map_some, Int.add_zero, uint4]
    congr 1
    omega

/-- The entry of the score list for a result. -/
def scoreOf (D : UdmUrlData) : UdmUrlScore := ⟨D.urlId, D.score⟩

/-- The user score 0 was found and there is no positive one. -/
def DividesByZero (U : List UdmUrlInt4) (urlId : ℤ) : Prop :=
  ∃ found, userScoreOf U urlId = some found ∧ found.param = 0 ∧ (udmUserScoreFindMinMax U).2 = 0

theorem applyToURLData_agree_iff {D : UdmUrlData} (hscore : D.score < 2 ^ 32) :
    (∃ D', applyToURLData ub U UserScoreFactor D = some D' ∧
      applyToURLScore ub U UserScoreFactor (scoreOf D) = some (scoreOf D')) ↔ ¬DividesByZero U D.urlId := by
  simp only [applyToURLData, applyToURLScore, DividesByZero, scoreOf]
  cases hfound : userScoreOf U D.urlId with
  | none => simp
  | some found =>
    simp only [Option.some.injEq, exists_eq_left']
    by_cases hparam : found.param = 0
    · -- the score list leaves the document alone
      rw [hparam, userScored_zero hscore]
      by_cases hmax : (udmUserScoreFindMinMax U).2 = 0
      · simp [hmax]
      · simp [hmax]
    · obtain ⟨score, hsome⟩ := Option.isSome_iff_exists.mp
        (@isSome_userScored ub U UserScoreFactor found (mem_of_userScoreOf hfound) hparam D.score)
      simp [hparam, hsome]

end

/-! ### All documents -/

theorem mapM_agree_iff {α β : Type} (f : α → Option α) (g : β → Option β) (s : α → β) (L : List α) :
    (∃ L', L.mapM f = some L' ∧ (L.map s).mapM g = some (L'.map s)) ↔
      ∀ a ∈ L, ∃ a', f a = some a' ∧ g (s a) = some (s a') := by
  induction L with
  | nil => simp
  | cons a L ih =>
    rw [List.forall_mem_cons, ← ih, List.map_cons, List.mapM_cons, List.mapM_cons]
    constructor
    · rintro ⟨L', hf, hg⟩
      cases hfa : f a with
      | none => simp [hfa] at hf
      | some a' =>
        cases hfL : L.mapM f with
        | none => simp [hfa, hfL] at hf
        | some L'' =>
          obtain rfl : a' :: L'' = L' := by simpa [hfa, hfL] using hf
          cases hga : g (s a) with
          | none => simp [hga] at hg
          | some b =>
            cases hgL : (L.map s).mapM g with
            | none => simp [hga, hgL] at hg
            | some M =>
              obtain ⟨hb, hM⟩ : b = s a' ∧ M = L''.map s := by simpa [hga, hgL] using hg
              exact ⟨⟨a', rfl, by rw [hb]⟩, L'', rfl, by rw [hM]⟩
    · rintro ⟨⟨a', hfa, hga⟩, L', hfL, hgL⟩
      exact ⟨a' :: L', by simp [hfa, hfL], by simp [hga, hgL]⟩

/-- **The two functions compute the same scores and divide by no 0** if and only if no document of the list has the
user score 0 while no user score is positive. -/
theorem userScore_agree_iff (ub : ℚ → ℤ) (U : List UdmUrlInt4) (UserScoreFactor : ℤ) {L : List UdmUrlData}
    (hscore : ∀ D ∈ L, D.score < 2 ^ 32) :
    (∃ L', udmUserScoreListApplyToURLDataList ub L U UserScoreFactor = some L' ∧
      udmUserScoreListApplyToURLScoreList ub (L.map scoreOf) U UserScoreFactor = some (L'.map scoreOf)) ↔
      ∀ D ∈ L, ¬DividesByZero U D.urlId := by
  rw [udmUserScoreListApplyToURLDataList, udmUserScoreListApplyToURLScoreList, mapM_agree_iff]
  exact forall₂_congr fun D hD => applyToURLData_agree_iff (hscore D hD)

/-- A user score list with the score 0 only. -/
def userScores0 : List UdmUrlInt4 := [⟨7, 0⟩]

/-- The document 7. -/
def document7 : UdmUrlData := ⟨7, 50000, 1, 0, 0, 0, none, none⟩

theorem userScore_agree_document7 :
    (∃ L', udmUserScoreListApplyToURLDataList (fun _ => 0) [document7] userScores0 255 = some L' ∧
      udmUserScoreListApplyToURLScoreList (fun _ => 0) ([document7].map scoreOf) userScores0 255 =
        some (L'.map scoreOf)) ↔ ∀ D ∈ [document7], ¬DividesByZero userScores0 D.urlId :=
  userScore_agree_iff (fun _ => 0) userScores0 255 (by simp [document7])

/-- With the user score 0 alone the second function divides 0 by 0. -/
theorem not_userScore_agree : ¬∀ (ub : ℚ → ℤ) (U : List UdmUrlInt4) (UserScoreFactor : ℤ) (L : List UdmUrlData),
    U.Pairwise (fun x y => x.urlId ≤ y.urlId) → 0 ≤ UserScoreFactor → UserScoreFactor ≤ 255 →
      (∀ D ∈ L, D.score < 2 ^ 32) →
      ∃ L', udmUserScoreListApplyToURLDataList ub L U UserScoreFactor = some L' ∧
        udmUserScoreListApplyToURLScoreList ub (L.map scoreOf) U UserScoreFactor = some (L'.map scoreOf) := by
  intro h
  obtain ⟨L', hdata, -⟩ := h (fun _ => 0) userScores0 255 [document7] (by simp [userScores0]) (by omega) (by omega)
    (by simp [document7])
  have hfound : userScoreOf userScores0 7 = some ⟨7, 0⟩ := rfl
  have hmax : udmUserScoreFindMinMax userScores0 = (0, 0) := rfl
  have hnone : applyToURLData (fun _ => 0) userScores0 255 document7 = none := by
    simp only [applyToURLData, hmax, document7, hfound]
    rw [userScored_zero (by norm_num), if_pos rfl, Option.map_none]
  rw [udmUserScoreListApplyToURLDataList, List.mapM_cons, hnone] at hdata
  simp at hdata

end MnoGoSearch.Score
