import MnoGoSearch.Query.WordMask
import MnoGoSearch.Score.PhraseCheck
import Mathlib.Tactic.Ring

/-!
# The distance of the words

A document in which the words of the query stand close together gets a better score. `CalcAverageWordDistance`
(`distance.c`) adds up, over the coords of a section, the distances of neighbours that belong to different words, and
counts them; `UdmCalcScoreWordDistance` (`score.c`) does so for all sections of a document, and the average enters the
score.

Positions are subtracted as unsigned numbers and a table is read: where the code would go below 0 or behind the table,
the functions here have no value. `wordDistance_spec` says that they always have one, and bounds the average.
-/

namespace MnoGoSearch.Score

open Query (shiftOne)

/-! ### The statistics -/

/-- `UDM_WORD_DISTANCE_STAT`. -/
structure UdmWordDistanceStat where
  sum : ℕ
  num : ℕ
  deriving DecidableEq, Repr

/-- The difference of two unsigned numbers, if it is not below 0. -/
def minus (a b : ℕ) : Option ℕ := if b ≤ a then some (a - b) else none

/-- `UDM_DST_THRESHOLD`. -/
def udmDstThreshold : ℕ := 63

/-- `UdmDstNormalize`. -/
def udmDstNormalize (dst : ℕ) : ℕ := if dst > udmDstThreshold then udmDstThreshold else dst

/-- `diff_to_np2`. -/
def diffToNp2 : List ℕ := [1, 64, 32, 16, 8, 4, 2] ++ List.replicate 57 1

/-- `UdmWordDistanceAdd`. -/
def udmWordDistanceAdd (nuniq : ℕ) (dist : UdmWordDistanceStat) (diff : ℕ) : Option UdmWordDistanceStat :=
  let sum := dist.sum + udmDstNormalize diff
  let num := dist.num + 1
  if nuniq = 2 ∧ diff = 1 then diffToNp2[diff]?.map fun np2 => ⟨sum, num + np2⟩ else some ⟨sum, num⟩

/-! ### The coords of a section -/

section

variable (phr : List UdmCoord2) (ub : ℕ → BitVec 32) (nuniq : ℕ)

/-- The order of a coord. -/
def orderAt (i : ℕ) : ℕ := (phr.getD i ⟨0, 0⟩).order

/-- The position of a coord. -/
def posAt (i : ℕ) : ℕ := (phr.getD i ⟨0, 0⟩).pos

/-- `phr[j].pos - phr[i].pos`. -/
def posDiff (i j : ℕ) : Option ℕ := minus (posAt phr j) (posAt phr i)

/-- The distance of two coords is added. -/
def addBetween (dist : UdmWordDistanceStat) (i j : ℕ) : Option UdmWordDistanceStat :=
  (posDiff phr i j).bind (udmWordDistanceAdd nuniq dist)

/-- The distance of two coords: `res`. -/
def twoCoordsDistance : Option ℕ :=
  if orderAt phr 0 = orderAt phr 1 then some 0
  else if posAt phr 1 > posAt phr 0 then posDiff phr 0 1
  else posDiff phr 1 0

/-- `res > 0 ? (UdmDstNormalize(res) - 1) * wf2_secno : 0`. -/
def twoCoordsAdd (wf2_secno res : ℕ) : Option ℕ :=
  if res > 0 then (minus (udmDstNormalize res) 1).map (· * wf2_secno) else some 0

/-- `CalcAverageWordDistanceTwoCoords`. -/
def calcAverageWordDistanceTwoCoords (wf2_secno : ℕ) (dist : UdmWordDistanceStat) : Option UdmWordDistanceStat := do
  let res ← twoCoordsDistance phr
  let add ← twoCoordsAdd wf2_secno res
  some ⟨dist.sum + add, dist.num + 1⟩

/-- The coord `i` is there and belongs to another word than the one in front of it, which stands no place or one place
before it. -/
def nextWord (i : ℕ) : Option Bool :=
  if i < phr.length ∧ orderAt phr i ≠ orderAt phr (i - 1) then
    (posDiff phr (i - 1) i).map fun diff => decide (diff ≤ 1)
  else some false

/-- Three different words one after the other, the last at `i + 1`: a bonus, and more of it for a fourth word and for a
fifth. -/
def consecutiveNum (i : ℕ) : Option ℕ := do
  let num := 2 + if nuniq = 3 then 512 else 0
  if ← nextWord phr (i + 2) then
    let num := num + 2 + if nuniq = 4 then 512 else 0
    if ← nextWord phr (i + 3) then some (num + 512) else some num
  else some num

/-- The words in a frame of `2 * nuniq` places around the coord `i`. -/
def frameMask (i : ℕ) : BitVec 32 :=
  ((List.range' (i - 1) (i + nuniq * 2 - (i - 1))).takeWhile fun p => posAt phr p < posAt phr i + nuniq * 2).foldl
    (fun mask p => mask ||| shiftOne ub (orderAt phr p)) 0

/-- A bonus if all words of the query are in the frame. -/
def frameNum (i : ℕ) : ℕ :=
  if i + nuniq * 2 < phr.length ∧ orderAt phr (i + 2) ≠ orderAt phr 2 ∧ orderAt phr (i + 2) ≠ orderAt phr i ∧
      (frameMask phr ub nuniq i).toNat = 2 ^ nuniq - 1 then 512 * nuniq
  else 0

/-- `w1 W2 w3`: the distances of the coord `i` to its neighbours are added. -/
def addThree (dist : UdmWordDistanceStat) (i diff1 diff2 : ℕ) : Option UdmWordDistanceStat :=
  let diff := udmDstNormalize diff1 + udmDstNormalize diff2
  let sum := dist.sum + diff
  let num := dist.num + 2
  if diff ≤ 2 then (consecutiveNum phr nuniq i).map fun more => ⟨sum, num + more⟩
  else if diff ≤ 4 then some ⟨sum, num + frameNum phr ub nuniq i⟩
  else some ⟨sum, num⟩

/-- One turn of the loop at the coord `i`: the next coord, the order of the last one, and the statistics. -/
def distanceTurn (i prevOrder : ℕ) (dist : UdmWordDistanceStat) : Option (ℕ × ℕ × UdmWordDistanceStat) :=
  if prevOrder ≠ orderAt phr i then
    if orderAt phr (i + 1) ≠ orderAt phr i then do
      let diff1 ← posDiff phr (i - 1) i
      let diff2 ← posDiff phr i (i + 1)
      let dist ←
        -- "w1 W2 w1" - add min distance
        if prevOrder = orderAt phr (i + 1) then udmWordDistanceAdd nuniq dist (min diff1 diff2)
        -- "w1 W2 w3" - add two distances
        else addThree phr ub nuniq dist i diff1 diff2
      some (i + 1, orderAt phr i, dist)
    else if 2 ≤ i ∧ orderAt phr (i - 2) = prevOrder then do
      -- "w1 w1 W2 w2"
      let dist ← addBetween phr nuniq dist (i - 1) i
      some (i + 2, orderAt phr (i + 1), dist)
    else some (i + 1, orderAt phr i, dist)
  else some (i + 1, orderAt phr i, dist)

/-- The loop; nothing, if it takes `fuel` turns or more. -/
def distanceLoop : ℕ → ℕ → ℕ → UdmWordDistanceStat → Option UdmWordDistanceStat
  | 0, _, _, _ => none
  | fuel + 1, i, prevOrder, dist =>
    if i < phr.length - 1 then do
      let (i, prevOrder, dist) ← distanceTurn phr ub nuniq i prevOrder dist
      distanceLoop fuel i prevOrder dist
    else some dist

/-- The distance of two coords is added if the first of them and another coord belong to one word, and the second does
not. -/
def addSpecial (dist : UdmWordDistanceStat) (i j same other : ℕ) : Option UdmWordDistanceStat :=
  if orderAt phr same = orderAt phr other ∧ orderAt phr i ≠ orderAt phr j then addBetween phr nuniq dist i j
  else some dist

/-- `CalcAverageWordDistance`. -/
def calcAverageWordDistance (wf2_secno : ℕ) (distance : UdmWordDistanceStat) : Option UdmWordDistanceStat :=
  if phr.length < 2 then some distance
  else if phr.length = 2 then calcAverageWordDistanceTwoCoords phr wf2_secno distance
  else do
    let last1 := phr.length - 1
    -- special case: "BEG w1 w2 w2"
    let dist ← addSpecial phr nuniq ⟨0, 0⟩ 0 1 1 2
    let dist ← distanceLoop phr ub nuniq phr.length 1 (orderAt phr 0) dist
    -- special case: "w1 w1 w2 END"
    let dist ← addSpecial phr nuniq dist (last1 - 1) last1 (last1 - 1) (last1 - 2)
    -- Reduce all diffs by 1
    let sum := if dist.sum > dist.num then dist.sum - dist.num else 0
    some ⟨distance.sum + sum * wf2_secno, distance.num + dist.num⟩

end

/-! ### The sections of a document -/

/-- A section of `MergedSectionLists`. -/
structure MergedSection where
  /-- `wf2[secno]`, from the weight of the section. -/
  wf2 : ℕ
  /-- The coords of all words, if the section has several of them. -/
  coords : List UdmCoord2

/-- One section in `UdmCalcScoreWordDistance`. -/
def addSection (ub : ℕ → BitVec 32) (nuniq SingleWordDistance : ℕ) (distance : UdmWordDistanceStat)
    (section' : MergedSection) : Option UdmWordDistanceStat := do
  let distance ← calcAverageWordDistance section'.coords ub nuniq section'.wf2 distance
  -- Only a single unique word presents in a section
  if section'.coords = [] ∧ SingleWordDistance ≠ 0 then
    some ⟨distance.sum + SingleWordDistance * section'.wf2, distance.num + 1⟩
  else some distance

/-- `UdmCalcScoreWordDistance`. -/
def udmCalcScoreWordDistance (ub : ℕ → BitVec 32) (nuniq SingleWordDistance : ℕ) (sections : List MergedSection) :
    Option UdmWordDistanceStat :=
  sections.foldlM (addSection ub nuniq SingleWordDistance) ⟨0, 0⟩

/-- The quotient of two numbers, if the divisor is not 0. -/
def quotient (a b : ℕ) : Option ℕ := if b = 0 then none else some (a / b)

/-- `UDM_WORD_RDSUM_FACTOR`. -/
def udmWordRdsumFactor : ℕ := 16

/-- The average as it enters the score: `dstsum`, which is computed if there is a distance. -/
def distanceSum (dst_weight : ℕ) (distance : UdmWordDistanceStat) : Option ℕ :=
  if distance.num ≠ 0 then
    (quotient (udmWordRdsumFactor * distance.sum * dst_weight) distance.num).map (· / 255)
  else some 0

/-! ### What a distance adds -/

/-- No distance is above the threshold. -/
def UdmWordDistanceStat.Ok (dist : UdmWordDistanceStat) : Prop := dist.sum ≤ udmDstThreshold * dist.num

theorem udmDstNormalize_le (dst : ℕ) : udmDstNormalize dst ≤ udmDstThreshold := by
  unfold udmDstNormalize
  split <;> omega

theorem exists_udmWordDistanceAdd (nuniq : ℕ) {dist : UdmWordDistanceStat} (h : dist.Ok) (diff : ℕ) :
    ∃ d, udmWordDistanceAdd nuniq dist diff = some d ∧ d.Ok := by
  have hnorm := udmDstNormalize_le diff
  simp only [UdmWordDistanceStat.Ok, udmDstThreshold] at h hnorm ⊢
  unfold udmWordDistanceAdd
  split
  · rename_i hdiff
    have hnp2 : diffToNp2[diff]? = some 64 := by
      rw [hdiff.2]
      rfl
    rw [hnp2]
    exact ⟨_, rfl, by simp only; omega⟩
  · exact ⟨_, rfl, by simp only; omega⟩

section

variable {phr : List UdmCoord2} (ub : ℕ → BitVec 32) (nuniq : ℕ)

theorem posDiff_eq (hsorted : phr.Pairwise fun a b => a.pos ≤ b.pos) {i j : ℕ} (hij : i ≤ j) (hj : j < phr.length) :
    posDiff phr i j = some (posAt phr j - posAt phr i) := by
  have hle : posAt phr i ≤ posAt phr j := by
    rcases Nat.lt_or_eq_of_le hij with hlt | rfl
    · have h := List.pairwise_iff_getElem.mp hsorted i j (by omega) hj hlt
      simpa [posAt, List.getD_eq_getElem?_getD, List.getElem?_eq_getElem hj,
        List.getElem?_eq_getElem (show i < phr.length by omega)] using h
    · exact le_rfl
  rw [posDiff, minus, if_pos hle]

variable (hsorted : phr.Pairwise fun a b => a.pos ≤ b.pos) {dist : UdmWordDistanceStat} (hdist : dist.Ok)

include hsorted

theorem exists_nextWord (i : ℕ) : ∃ b, nextWord phr i = some b := by
  unfold nextWord
  split
  · rename_i hi
    rw [posDiff_eq hsorted (Nat.sub_le i 1) hi.1, Option.map_some]
    exact ⟨_, rfl⟩
  · exact ⟨_, rfl⟩

theorem exists_consecutiveNum (i : ℕ) : ∃ num, consecutiveNum phr nuniq i = some num := by
  obtain ⟨b, hb⟩ := exists_nextWord hsorted (i + 2)
  obtain ⟨b', hb'⟩ := exists_nextWord hsorted (i + 3)
  simp only [consecutiveNum, hb, hb', Option.bind_eq_bind, Option.bind_some]
  cases b with
  | false => exact ⟨_, rfl⟩
  | true =>
    cases b' with
    | false => exact ⟨_, rfl⟩
    | true => exact ⟨_, rfl⟩

include hdist

theorem exists_addBetween {i j : ℕ} (hij : i ≤ j) (hj : j < phr.length) :
    ∃ d, addBetween phr nuniq dist i j = some d ∧ d.Ok := by
  rw [addBetween, posDiff_eq hsorted hij hj, Option.bind_some]
  exact exists_udmWordDistanceAdd nuniq hdist _

theorem exists_addThree (i diff1 diff2 : ℕ) : ∃ d, addThree phr ub nuniq dist i diff1 diff2 = some d ∧ d.Ok := by
  obtain ⟨num, hnum⟩ := exists_consecutiveNum nuniq hsorted i
  have h1 := udmDstNormalize_le diff1
  have h2 := udmDstNormalize_le diff2
  simp only [UdmWordDistanceStat.Ok, udmDstThreshold] at hdist h1 h2 ⊢
  simp only [addThree, hnum, Option.map_some]
  split
  · exact ⟨_, rfl, by simp only; omega⟩
  · split
    · exact ⟨_, rfl, by simp only; omega⟩
    · exact ⟨_, rfl, by simp only; omega⟩

theorem exists_distanceTurn {i : ℕ} (prevOrder : ℕ) (hi : i < phr.length - 1) :
    ∃ i' prev d, distanceTurn phr ub nuniq i prevOrder dist = some (i', prev, d) ∧ i < i' ∧ d.Ok := by
  unfold distanceTurn
  split
  · split
    · rw [posDiff_eq hsorted (Nat.sub_le i 1) (by omega), posDiff_eq hsorted (Nat.le_succ i) (by omega)]
      simp only [Option.bind_eq_bind, Option.bind_some]
      split
      · obtain ⟨d, hd, hok⟩ := exists_udmWordDistanceAdd nuniq hdist
          (min (posAt phr i - posAt phr (i - 1)) (posAt phr (i + 1) - posAt phr i))
        rw [hd]
        exact ⟨_, _, d, rfl, Nat.lt_succ_self i, hok⟩
      · obtain ⟨d, hd, hok⟩ := exists_addThree ub nuniq hsorted hdist i
          (posAt phr i - posAt phr (i - 1)) (posAt phr (i + 1) - posAt phr i)
        rw [hd]
        exact ⟨_, _, d, rfl, Nat.lt_succ_self i, hok⟩
    · split
      · obtain ⟨d, hd, hok⟩ := exists_addBetween nuniq hsorted hdist (Nat.sub_le i 1) (show i < phr.length by omega)
        rw [hd]
        exact ⟨_, _, d, rfl, by omega, hok⟩
      · exact ⟨_, _, dist, rfl, Nat.lt_succ_self i, hdist⟩
  · exact ⟨_, _, dist, rfl, Nat.lt_succ_self i, hdist⟩

theorem exists_distanceLoop {fuel i : ℕ} (prevOrder : ℕ) (hfuel : phr.length ≤ i + fuel) (hpos : 0 < fuel) :
    ∃ d, distanceLoop phr ub nuniq fuel i prevOrder dist = some d ∧ d.Ok := by
  induction fuel generalizing i prevOrder dist with
  | zero => exact absurd hpos (Nat.lt_irrefl 0)
  | succ fuel ih =>
    rw [distanceLoop]
    split
    · rename_i hi
      obtain ⟨i', prev, d, hturn, hlt, hok⟩ := exists_distanceTurn ub nuniq hsorted hdist prevOrder hi
      simp only [hturn, Option.bind_eq_bind, Option.bind_some]
      exact ih hok prev (by omega) (by omega)
    · exact ⟨dist, rfl, hdist⟩

theorem exists_addSpecial {i j : ℕ} (same other : ℕ) (hij : i ≤ j) (hj : j < phr.length) :
    ∃ d, addSpecial phr nuniq dist i j same other = some d ∧ d.Ok := by
  unfold addSpecial
  split
  · exact exists_addBetween nuniq hsorted hdist hij hj
  · exact ⟨dist, rfl, hdist⟩

end

/-! ### The average -/

theorem exists_twoCoordsDistance (phr : List UdmCoord2) : ∃ res, twoCoordsDistance phr = some res := by
  unfold twoCoordsDistance
  split
  · exact ⟨0, rfl⟩
  · split
    · exact ⟨_, if_pos (by omega)⟩
    · exact ⟨_, if_pos (by omega)⟩

theorem exists_twoCoordsAdd (wf2_secno res : ℕ) :
    ∃ add, twoCoordsAdd wf2_secno res = some add ∧ add ≤ 62 * wf2_secno := by
  have hnorm := udmDstNormalize_le res
  rw [udmDstThreshold] at hnorm
  unfold twoCoordsAdd
  split
  · rename_i hpos
    have hone : 1 ≤ udmDstNormalize res := by
      unfold udmDstNormalize udmDstThreshold
      split <;> omega
    rw [minus, if_pos hone, Option.map_some]
    exact ⟨_, rfl, Nat.mul_le_mul_right _ (by omega)⟩
  · exact ⟨0, rfl, Nat.zero_le _⟩

theorem exists_calcAverageWordDistanceTwoCoords (phr : List UdmCoord2) (wf2_secno : ℕ)
    (distance : UdmWordDistanceStat) :
    ∃ sum, calcAverageWordDistanceTwoCoords phr wf2_secno distance =
      some ⟨distance.sum + sum, distance.num + 1⟩ ∧ sum ≤ 62 * wf2_secno := by
  obtain ⟨res, hres⟩ := exists_twoCoordsDistance phr
  obtain ⟨add, hadd, hle⟩ := exists_twoCoordsAdd wf2_secno res
  exact ⟨add, by simp only [calcAverageWordDistanceTwoCoords, hres, hadd, Option.bind_eq_bind, Option.bind_some], hle⟩

theorem exists_calcAverageWordDistance (ub : ℕ → BitVec 32) (nuniq : ℕ) {phr : List UdmCoord2}
    (hsorted : phr.Pairwise fun a b => a.pos ≤ b.pos) (wf2_secno : ℕ) (distance : UdmWordDistanceStat) :
    ∃ sum num, calcAverageWordDistance phr ub nuniq wf2_secno distance =
      some ⟨distance.sum + sum, distance.num + num⟩ ∧ sum ≤ 62 * wf2_secno * num := by
  unfold calcAverageWordDistance
  split
  · exact ⟨0, 0, rfl, Nat.zero_le _⟩
  · split
    · obtain ⟨sum, hsum, hle⟩ := exists_calcAverageWordDistanceTwoCoords phr wf2_secno distance
      exact ⟨sum, 1, hsum, by rwa [Nat.mul_one]⟩
    · have hzero : UdmWordDistanceStat.Ok ⟨0, 0⟩ := Nat.zero_le _
      obtain ⟨d1, h1, hok1⟩ := exists_addSpecial nuniq hsorted hzero 1 2 (Nat.zero_le 1) (show 1 < phr.length by omega)
      obtain ⟨d2, h2, hok2⟩ := exists_distanceLoop ub nuniq hsorted hok1 (orderAt phr 0)
        (show phr.length ≤ 1 + phr.length by omega) (by omega)
      obtain ⟨d3, h3, hok3⟩ := exists_addSpecial nuniq hsorted hok2 (phr.length - 1 - 1) (phr.length - 1 - 2)
        (Nat.sub_le (phr.length - 1) 1) (show phr.length - 1 < phr.length by omega)
      simp only [h1, h2, h3, Option.bind_eq_bind, Option.bind_some]
      refine ⟨_, _, rfl, ?_⟩
      -- of up to 63 for each distance 1 is taken away
      rw [UdmWordDistanceStat.Ok, udmDstThreshold] at hok3
      have hsum : (if d3.sum > d3.num then d3.sum - d3.num else 0) ≤ 62 * d3.num := by
        split <;> omega
      calc (if d3.sum > d3.num then d3.sum - d3.num else 0) * wf2_secno
          ≤ 62 * d3.num * wf2_secno := Nat.mul_le_mul_right _ hsum
        _ = 62 * wf2_secno * d3.num := Nat.mul_right_comm _ _ _

/-- The average of a document is no more than the most that one of its sections adds for a distance. -/
theorem exists_udmCalcScoreWordDistance (ub : ℕ → BitVec 32) (nuniq SingleWordDistance : ℕ)
    {sections : List MergedSection} (hsorted : ∀ s ∈ sections, s.coords.Pairwise fun a b => a.pos ≤ b.pos) :
    ∃ distance, udmCalcScoreWordDistance ub nuniq SingleWordDistance sections = some distance ∧
      ∀ W, (∀ s ∈ sections, 62 * s.wf2 ≤ W ∧ SingleWordDistance * s.wf2 ≤ W) → distance.sum ≤ W * distance.num := by
  have hrun : ∀ start : UdmWordDistanceStat,
      ∃ distance, sections.foldlM (addSection ub nuniq SingleWordDistance) start = some distance ∧
        ∀ W, (∀ s ∈ sections, 62 * s.wf2 ≤ W ∧ SingleWordDistance * s.wf2 ≤ W) → start.sum ≤ W * start.num →
          distance.sum ≤ W * distance.num := by
    induction sections with
    | nil => exact fun start => ⟨start, rfl, fun W _ h => h⟩
    | cons s sections ih =>
      intro start
      obtain ⟨hs, hsections⟩ := List.forall_mem_cons.mp hsorted
      obtain ⟨sum, num, hcalc, hle⟩ := exists_calcAverageWordDistance ub nuniq hs s.wf2 start
      have hstep : ∃ d, addSection ub nuniq SingleWordDistance start s = some d ∧
          ∀ W, 62 * s.wf2 ≤ W → SingleWordDistance * s.wf2 ≤ W → start.sum ≤ W * start.num → d.sum ≤ W * d.num := by
        have hadd : ∀ W, 62 * s.wf2 ≤ W → start.sum ≤ W * start.num → start.sum + sum ≤ W * (start.num + num) := by
          intro W hW hstart
          have := Nat.mul_le_mul_right num hW
          rw [Nat.mul_add]
          omega
        simp only [addSection, hcalc, Option.bind_eq_bind, Option.bind_some]
        split
        · refine ⟨_, rfl, fun W hW hsingle hstart => ?_⟩
          have := hadd W hW hstart
          simp only [Nat.mul_add, Nat.mul_one] at this ⊢
          omega
        · exact ⟨_, rfl, fun W hW _ hstart => hadd W hW hstart⟩
      obtain ⟨d, hd, hbound⟩ := hstep
      obtain ⟨distance, hfold, hall⟩ := ih hsections d
      rw [List.foldlM_cons, hd]
      refine ⟨distance, hfold, fun W hW hstart => ?_⟩
      obtain ⟨⟨hweight, hsingle⟩, hrest⟩ := List.forall_mem_cons.mp hW
      exact hall W hrest (hbound W hweight hsingle hstart)
  obtain ⟨distance, hfold, hall⟩ := hrun ⟨0, 0⟩
  exact ⟨distance, hfold, fun W hW => hall W hW (Nat.zero_le _)⟩

theorem exists_distanceSum (dst_weight : ℕ) (distance : UdmWordDistanceStat) :
    ∃ dstsum, distanceSum dst_weight distance = some dstsum ∧
      ∀ W, distance.sum ≤ W * distance.num → dstsum ≤ udmWordRdsumFactor * W * dst_weight / 255 := by
  unfold distanceSum
  split
  · rename_i hnum
    rw [quotient, if_neg hnum, Option.map_some]
    refine ⟨_, rfl, fun W hW => Nat.div_le_div_right (Nat.div_le_of_le_mul ?_)⟩
    calc udmWordRdsumFactor * distance.sum * dst_weight
        ≤ udmWordRdsumFactor * (W * distance.num) * dst_weight :=
          Nat.mul_le_mul_right _ (Nat.mul_le_mul_left _ hW)
      _ = distance.num * (udmWordRdsumFactor * W * dst_weight) := by ring
  · exact ⟨0, rfl, fun W _ => Nat.zero_le _⟩

/-- **The distance of the words.** For the sorted coords of any section and any weight: no position is subtracted from
a smaller one, the table is read where it has an entry, and the sum that is added is at most 62 times the weight for
each distance that is counted, so that the average, freed from the weight, is an index of the table. For any document
the average is divided by a number that is not 0, and what enters the score is bounded by the weights. -/
theorem wordDistance_spec (ub : ℕ → BitVec 32) (nuniq : ℕ) :
    (∀ phr : List UdmCoord2, (phr.Pairwise fun a b => a.pos ≤ b.pos) → ∀ (wf2_secno : ℕ) (distance : UdmWordDistanceStat),
      ∃ sum num, calcAverageWordDistance phr ub nuniq wf2_secno distance =
          some ⟨distance.sum + sum, distance.num + num⟩ ∧
        sum ≤ 62 * wf2_secno * num ∧ sum / (wf2_secno * num) < diffToNp2.length) ∧
    ∀ (SingleWordDistance dst_weight : ℕ) (sections : List MergedSection),
      (∀ s ∈ sections, s.coords.Pairwise fun a b => a.pos ≤ b.pos) →
      ∃ distance dstsum, udmCalcScoreWordDistance ub nuniq SingleWordDistance sections = some distance ∧
        distanceSum dst_weight distance = some dstsum ∧
        ∀ W, (∀ s ∈ sections, 62 * s.wf2 ≤ W ∧ SingleWordDistance * s.wf2 ≤ W) →
          dstsum ≤ udmWordRdsumFactor * W * dst_weight / 255 := by
  constructor
  · intro phr hsorted wf2_secno distance
    obtain ⟨sum, num, hcalc, hle⟩ := exists_calcAverageWordDistance ub nuniq hsorted wf2_secno distance
    refine ⟨sum, num, hcalc, hle, ?_⟩
    have hdiv : sum / (wf2_secno * num) ≤ 62 := by
      apply Nat.div_le_of_le_mul
      calc sum ≤ 62 * wf2_secno * num := hle
        _ = wf2_secno * num * 62 := by ring
    have hlen : diffToNp2.length = 64 := rfl
    omega
  · intro SingleWordDistance dst_weight sections hsorted
    obtain ⟨distance, hcalc, hbound⟩ := exists_udmCalcScoreWordDistance ub nuniq SingleWordDistance hsorted
    obtain ⟨dstsum, hsum, hle⟩ := exists_distanceSum dst_weight distance
    exact ⟨distance, dstsum, hcalc, hsum, fun W hW => hle W (hbound W hW)⟩

/-- Three words of a query one after the other, and one of them again. -/
def threeWords : List UdmCoord2 := [⟨1, 0⟩, ⟨2, 1⟩, ⟨3, 2⟩, ⟨80, 0⟩]

theorem wordDistance_threeWords :
    (∃ sum num, calcAverageWordDistance threeWords (fun _ => 0) 3 60 ⟨0, 0⟩ = some ⟨0 + sum, 0 + num⟩ ∧
      sum ≤ 62 * 60 * num ∧ sum / (60 * num) < diffToNp2.length) ∧
    ∃ distance dstsum, udmCalcScoreWordDistance (fun _ => 0) 3 0 [⟨60, threeWords⟩] = some distance ∧
      distanceSum 255 distance = some dstsum ∧
      ∀ W, (∀ s ∈ [(⟨60, threeWords⟩ : MergedSection)], 62 * s.wf2 ≤ W ∧ 0 * s.wf2 ≤ W) →
        dstsum ≤ udmWordRdsumFactor * W * 255 / 255 :=
  ⟨(wordDistance_spec (fun _ => 0) 3).1 threeWords (by simp [threeWords]) 60 ⟨0, 0⟩,
    (wordDistance_spec (fun _ => 0) 3).2 0 255 [⟨60, threeWords⟩] (by simp [threeWords])⟩

end MnoGoSearch.Score
