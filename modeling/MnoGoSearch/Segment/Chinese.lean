import MnoGoSearch.Lib.Runs
import Mathlib.Data.List.Basic
import Mathlib.Data.Int.Order.Basic
import Mathlib.Algebra.Order.Ring.Nat

/-!
# Segmentation by a frequency dictionary

`UdmSegmentByFreq` (`chinese.c`) puts spaces between the words of a Chinese text. `UdmSegmentProcess` keeps partial
paths through the text in a linked list in the order of their values, takes the first one that is open, and goes on
from its end with the longest word of the dictionary, or with one character, which is added to the dictionary if it is
unknown. A path goes on in one way only, so that there is never more than one path in the list: it is lost when the
word has the frequency 0.

`segmentation_iff` says so: a text is segmented completely, and nothing of it is lost, exactly if every word on the way
has a frequency, and the total that this is divided by is not 0.
-/

namespace MnoGoSearch.Segment

open Lib.Runs

/-! ## The source -/

/-- What the code takes from elsewhere: the numbers of type `double`, and the types of characters by which
`UdmUniGetSepToken` cuts. -/
structure SegmentArgs where
  Double : Type
  /-- The value of the empty path. -/
  zero : Double
  add : Double → ℕ → Double
  /-- `>=`. -/
  ge : Double → Double → Bool
  tokenType : ℕ → ℕ

/-- `UDM_CHINAWORD`. -/
structure UdmChinaWord where
  word : List ℕ
  freq : ℤ
  deriving DecidableEq

/-- `UDM_CHINALIST`. -/
structure UdmChinaList where
  ChiWord : List UdmChinaWord
  /-- The sum of their frequencies, as a `size_t`. -/
  total : ℕ
  /-- For the low 16 bits of a character, the length of the longest word that begins with such a character. -/
  hash : Option (ℕ → ℕ)

/-- `UdmUniStrCmp`. -/
def udmUniStrCmp : List ℕ → List ℕ → Ordering
  | [], [] => .eq
  | [], _ :: _ => .lt
  | _ :: _, [] => .gt
  | a :: s1, b :: s2 => if a = b then udmUniStrCmp s1 s2 else if a < b then .lt else .gt

/-- The loop of `UdmChineseListFind`, on the words from `low` to `high`. -/
def findLoop (word : List ℕ) : ℕ → List UdmChinaWord → Option UdmChinaWord
  | 0, _ => none
  | fuel + 1, words =>
    match words.drop ((words.length - 1) / 2) with
    | [] => none
    | middle :: right =>
      match udmUniStrCmp middle.word word with
      | .lt => findLoop word fuel right
      | .gt => findLoop word fuel (words.take ((words.length - 1) / 2))
      | .eq => some middle

/-- `UdmChineseListFind`. -/
def udmChineseListFind (L : UdmChinaList) (word : List ℕ) : Option UdmChinaWord :=
  findLoop word L.ChiWord.length L.ChiWord

/-- The place of a string in `hash`. -/
def hashKey (s : List ℕ) : ℕ := s.headD 0 % 65536

/-- The element of `hash` for a string. -/
def UdmChinaList.hashOf (L : UdmChinaList) (s : List ℕ) : ℕ := (L.hash.getD fun _ => 0) (hashKey s)

/-- `hash` with another element for a string. -/
def UdmChinaList.setHash (L : UdmChinaList) (s : List ℕ) (n : ℕ) : UdmChinaList :=
  { L with hash := some fun h => if h = hashKey s then n else (L.hash.getD fun _ => 0) h }

/-- `UdmChineseListAdd`. -/
def udmChineseListAdd (L : UdmChinaList) (chinaword : UdmChinaWord) : UdmChinaList :=
  let L := if L.hash.isNone then { L with hash := some fun _ => 0 } else L
  let L := { L with
    ChiWord := L.ChiWord ++ [chinaword]
    total := (((L.total : ℤ) + chinaword.freq) % 2 ^ 64).toNat }
  if L.hashOf chinaword.word < chinaword.word.length then L.setHash chinaword.word chinaword.word.length else L

/-- The loop that looks for the longest word at the beginning of a text: its length, and the word. The empty word is
looked for also. -/
def longestWord (L : UdmChinaList) (text : List ℕ) : ℕ → Option (ℕ × UdmChinaWord)
  | 0 => (udmChineseListFind L []).map fun w => (0, w)
  | i + 1 =>
    match udmChineseListFind L (text.take (i + 1)) with
    | some w => some (i + 1, w)
    | none => longestWord L text i

/-- A step along the text. -/
structure ChosenWord where
  /-- The number of characters. -/
  i : ℕ
  /-- `freq` of the word. -/
  freq : ℤ
  /-- The dictionary after the step. -/
  List' : UdmChinaList

/-- The word with which a path goes on: the longest one, or an unknown character, which is added. -/
def chooseWord (L : UdmChinaList) (text : List ℕ) : ChosenWord :=
  let L := if L.hashOf text = 0 then L.setHash text 1 else L
  match longestWord L text (min (L.hashOf text) text.length) with
  | some (i + 1, w) => ⟨i + 1, w.freq, L⟩
  | _ => ⟨1, 1, udmChineseListAdd L ⟨text.take 1, 1⟩⟩

variable (c : SegmentArgs)

/-- A path: the elements of the arrays `position`, `next`, `value` and `result`. -/
structure Path where
  position : ℕ
  next : Option ℕ
  value : c.Double
  result : List ℕ

/-- The linked list of the paths: the first one, and the arrays. An index -1 is nothing. -/
structure PathTable where
  top : Option ℕ
  paths : List (Path c)

variable {c}

/-- `next[i]= n`. -/
def PathTable.setNext (T : PathTable c) (i : ℕ) (n : Option ℕ) : PathTable c :=
  { T with paths := T.paths.modify i fun P => { P with next := n } }

/-- The loop that looks for the first open path: `current` and `father`. -/
def findOpen (T : PathTable c) (len : ℕ) : ℕ → Option ℕ → Option ℕ → Option (Option ℕ × Option ℕ)
  | 0, _, _ => none
  | _ + 1, none, father => some (none, father)
  | fuel + 1, some current, father =>
    (T.paths[current]?).bind fun P =>
      if P.position ≥ len then findOpen T len fuel P.next (some current) else some (some current, father)

/-- The path `current` is removed; nothing, if an index is -1. -/
def removePath (T : PathTable c) (current father : Option ℕ) : Option (PathTable c) :=
  if current = T.top then (T.top.bind fun i => T.paths[i]?).map fun P => { T with top := P.next }
  else
    (current.bind fun i => T.paths[i]?).bind fun P => father.map fun f => T.setNext f P.next

/-- The loop that looks for a path to the same position as the new one: whether the new one is still to be inserted,
and `father`. After it `iindex` is -1. -/
def duplicateLoop (nextid : ℕ) (T : PathTable c) :
    ℕ → Option ℕ → Option ℕ → Option (Bool × Option ℕ × PathTable c)
  | 0, _, _ => none
  | _ + 1, none, father => some (true, father, T)
  | fuel + 1, some iindex, father =>
    (T.paths[iindex]?).bind fun P =>
      (T.paths[nextid]?).bind fun N =>
        if P.position = N.position then
          if c.ge P.value N.value then some (false, father, T)
          else if T.top = some iindex then some (false, father, { T.setNext nextid P.next with top := some nextid })
          else some (true, father, T)
        else duplicateLoop nextid T fuel P.next (some iindex)

/-- The new path is put into the list. Since `iindex` is -1, the order of the values plays no part. -/
def insertPath (nextid : ℕ) (T : PathTable c) : Option (PathTable c) :=
  (duplicateLoop nextid T (T.paths.length + 1) T.top T.top).bind fun (needinsert, father, T) =>
    if !needinsert then some T
    else if T.top = none then some { T.setNext nextid T.top with top := some nextid }
    else father.map fun f => (T.setNext f (some nextid)).setNext nextid none

/-- One iteration of the loop over the paths, after the test of its condition. Nothing, where an array is read at -1, or
at a division by 0. -/
def pathStep (line : List ℕ) (L : UdmChinaList) (T : PathTable c) : Option (PathTable c × UdmChinaList) :=
  (findOpen T line.length (T.paths.length + 1) T.top T.top).bind fun (current, father) =>
    (removePath T current father).bind fun T =>
      (current.bind fun i => T.paths[i]?).bind fun P =>
        let text := line.drop P.position
        let w := chooseWord L text
        if w.freq = 0 then some (T, w.List')
        else if w.List'.total = 0 then none
        else
          let N : Path c :=
            ⟨P.position + w.i, none, c.add P.value ((w.freq % 2 ^ 64).toNat / w.List'.total),
              P.result ++ 32 :: text.take w.i⟩
          (insertPath T.paths.length { T with paths := T.paths ++ [N] }).map fun T => (T, w.List')

variable (c)

/-- How the loop over the paths ends. -/
inductive SegmentEnd where
  | running
  | fault
  /-- Its condition does not hold. -/
  | finished (T : PathTable c) (L : UdmChinaList)

/-- The loop over the paths. -/
def segmentLoop (line : List ℕ) : ℕ → UdmChinaList → PathTable c → SegmentEnd c
  | 0, _, _ => .running
  | fuel + 1, L, T =>
    match T.top with
    | none => .finished T L
    | some top =>
      match T.paths[top]? with
      | none => .fault
      | some P =>
        if P.position ≥ line.length ∧ P.next = none then .finished T L
        else
          match pathStep line L T with
          | none => .fault
          | some (T, L) => segmentLoop line fuel L T

/-- The path from which `UdmSegmentProcess` begins. -/
def firstPath : PathTable c := ⟨some 0, [⟨0, none, c.zero, []⟩]⟩

/-- The loop of `UdmSegmentProcess`, which goes a character further in each iteration. -/
def segmentRun (L : UdmChinaList) (line : List ℕ) : SegmentEnd c := segmentLoop c line (line.length + 1) L (firstPath c)

/-- A text that is segmented, and not only copied. -/
def Segmentable (L : UdmChinaList) (line : List ℕ) : Prop := 0x80 ≤ line.headD 0 ∧ L.hash.isSome = true

instance (L : UdmChinaList) (line : List ℕ) : Decidable (Segmentable L line) :=
  inferInstanceAs (Decidable (_ ∧ _))

/-- `UdmSegmentProcess`: `result[top]`, if there is such a path. -/
def udmSegmentProcess (L : UdmChinaList) (line : List ℕ) : Option (List ℕ × UdmChinaList) :=
  if Segmentable L line then
    match segmentRun c L line with
    | .finished T L' => (T.top.bind fun i => T.paths[i]?).map fun P => (P.result, L')
    | _ => none
  else some (line, L)

/-- The text `mid` of `UdmSegmentByFreq`: a space wherever characters below 128 and others meet. -/
def insertSpaces : Bool → List ℕ → List ℕ
  | _, [] => []
  | reg, wc :: line =>
    if wc ≥ 0x80 then (if reg then [] else [32]) ++ wc :: insertSpaces true line
    else (if reg then [32] else []) ++ wc :: insertSpaces false line

/-- The tokens of `UdmUniGetSepToken`. -/
def sentences (line : List ℕ) : List (List ℕ) := runs c.tokenType (insertSpaces true line)

/-- The loop over the sentences, with `out`. -/
def segmentSentences : List (List ℕ) → List ℕ → UdmChinaList → Option (List ℕ × UdmChinaList)
  | [], out, L => some (out, L)
  | sentence :: rest, out, L =>
    (udmSegmentProcess c L sentence).bind fun (segmented, L') =>
      segmentSentences rest ((if out = [] then [] else out ++ [32]) ++ segmented) L'

/-- `UdmSegmentByFreq`. -/
def udmSegmentByFreq (L : UdmChinaList) (line : List ℕ) : Option (List ℕ × UdmChinaList) :=
  segmentSentences c (sentences c line) [] L

/-! ## What is wanted -/

/-- **`UdmSegmentProcess` comes to an end with a complete path.** -/
def Completes (L : UdmChinaList) (line : List ℕ) : Prop :=
  Segmentable L line → ∃ T L' i P, segmentRun c L line = .finished T L' ∧ T.top = some i ∧ T.paths[i]? = some P ∧
    P.position = line.length

/-- **The output has all characters of the text**, but for the spaces. -/
def LosesNothing (L : UdmChinaList) (line : List ℕ) : Prop :=
  ∃ out L', udmSegmentByFreq c L line = some (out, L') ∧ out.filter (· ≠ 32) = line.filter (· ≠ 32)

/-- On the way through the text every word has a frequency, and the total is not 0. -/
def StepsCount : ℕ → UdmChinaList → List ℕ → Prop
  | 0, _, _ => True
  | fuel + 1, L, text =>
    text = [] ∨ (chooseWord L text).freq ≠ 0 ∧ (chooseWord L text).List'.total ≠ 0 ∧
      StepsCount fuel (chooseWord L text).List' (text.drop (chooseWord L text).i)

/-- The way through the text, one word after another: the words with spaces before them, and the dictionary. -/
def walk : ℕ → UdmChinaList → List ℕ → List ℕ × UdmChinaList
  | 0, L, _ => ([], L)
  | fuel + 1, L, text =>
    if text = [] then ([], L)
    else
      let w := chooseWord L text
      let r := walk fuel w.List' (text.drop w.i)
      (32 :: text.take w.i ++ r.1, r.2)

/-- The same for one sentence after another. -/
def SentencesCount : List (List ℕ) → UdmChinaList → Prop
  | [], _ => True
  | sentence :: rest, L =>
    if Segmentable L sentence then
      StepsCount (sentence.length + 1) L sentence ∧ SentencesCount rest (walk (sentence.length + 1) L sentence).2
    else SentencesCount rest L

variable {c}

/-! ## Choosing a word -/

variable {L : UdmChinaList} {text line : List ℕ} {fuel : ℕ} {T : PathTable c} {P : Path c}

theorem longestWord_le {n i : ℕ} {w : UdmChinaWord} (h : longestWord L text n = some (i, w)) : i ≤ n := by
  induction n with
  | zero =>
    obtain ⟨w', -, heq⟩ := Option.map_eq_some_iff.1 h
    exact (Prod.mk.inj heq).1 ▸ le_rfl
  | succ n ih =>
    rw [longestWord] at h
    split at h
    · exact (Prod.mk.inj (Option.some_inj.1 h)).1 ▸ le_rfl
    · exact (ih h).trans (Nat.le_succ n)

theorem chooseWord_i (L : UdmChinaList) (hne : text ≠ []) :
    0 < (chooseWord L text).i ∧ (chooseWord L text).i ≤ text.length := by
  have hpos := List.length_pos_iff.2 hne
  rw [chooseWord]
  split
  case h_1 i w h => exact ⟨Nat.succ_pos i, (longestWord_le h).trans (Nat.min_le_right _ _)⟩
  case h_2 => exact ⟨Nat.one_pos, hpos⟩

/-! ## One path -/

/-- There is this path in the list, and no other. -/
structure Single (T : PathTable c) (P : Path c) : Prop where
  exists_top : ∃ i, T.top = some i ∧ T.paths[i]? = some P
  next : P.next = none

theorem single_firstPath : Single (firstPath c) ⟨0, none, c.zero, []⟩ := ⟨⟨0, rfl, rfl⟩, rfl⟩

theorem insertPath_empty (paths : List (Path c)) (N : Path c) (hN : N.next = none) :
    ∃ T, insertPath paths.length ⟨none, paths ++ [N]⟩ = some T ∧ Single T N := by
  refine ⟨_, rfl, ⟨paths.length, rfl, ?_⟩, hN⟩
  rw [PathTable.setNext, List.getElem?_modify_eq, List.getElem?_append_right le_rfl, Nat.sub_self]
  exact congrArg some (by rw [← hN])

/-- The path with which the single path `P` goes on. -/
def Path.extend (P : Path c) (text : List ℕ) (w : ChosenWord) : Path c :=
  ⟨P.position + w.i, none, c.add P.value ((w.freq % 2 ^ 64).toNat / w.List'.total), P.result ++ 32 :: text.take w.i⟩

/-- **One iteration with a single path**: the path is lost, or the total is 0, or again there is a single path. -/
theorem pathStep_single (hT : Single T P) (hP : P.position < line.length)
    (L : UdmChinaList) (w : ChosenWord) (hw : w = chooseWord L (line.drop P.position)) :
    (w.freq = 0 ∧ ∃ T', pathStep line L T = some (T', w.List') ∧ T'.top = none) ∨
      (w.freq ≠ 0 ∧ w.List'.total = 0 ∧ pathStep line L T = none) ∨
      (w.freq ≠ 0 ∧ w.List'.total ≠ 0 ∧ ∃ T', pathStep line L T = some (T', w.List') ∧
        Single T' (P.extend (line.drop P.position) w)) := by
  obtain ⟨⟨i, htop, hi⟩, hnext⟩ := hT
  have hopen : findOpen T line.length (T.paths.length + 1) T.top T.top = some (some i, some i) := by
    rw [htop, findOpen, hi, Option.bind_some, if_neg (by omega)]
  have hremove : removePath T (some i) (some i) = some ⟨none, T.paths⟩ := by
    rw [removePath, if_pos htop.symm, htop, Option.bind_some, hi, Option.map_some, hnext]
  have hstep : pathStep line L T =
      if w.freq = 0 then some (⟨none, T.paths⟩, w.List')
      else if w.List'.total = 0 then none
      else (insertPath T.paths.length ⟨none, T.paths ++ [P.extend (line.drop P.position) w]⟩).map
        fun T => (T, w.List') := by
    rw [pathStep, hopen, Option.bind_some]
    dsimp only
    rw [hremove, Option.bind_some, Option.bind_some, hi, Option.bind_some, hw]
    rfl
  by_cases hfreq : w.freq = 0
  · exact .inl ⟨hfreq, ⟨none, T.paths⟩, by rw [hstep, if_pos hfreq], rfl⟩
  · by_cases htotal : w.List'.total = 0
    · exact .inr (.inl ⟨hfreq, htotal, by rw [hstep, if_neg hfreq, if_pos htotal]⟩)
    · obtain ⟨T', hinsert, hsingle⟩ := insertPath_empty T.paths (P.extend (line.drop P.position) w) rfl
      exact .inr (.inr ⟨hfreq, htotal, T', by rw [hstep, if_neg hfreq, if_neg htotal, hinsert]; rfl, hsingle⟩)

/-- **The whole loop from a single path**: it comes to the end of the text exactly if every step counts. -/
theorem segmentLoop_single
    (hT : Single T P) (hP : P.position ≤ line.length) (hfuel : (line.drop P.position).length < fuel) :
    (StepsCount fuel L (line.drop P.position) ∧ ∃ T' P',
        segmentLoop c line fuel L T = .finished T' (walk fuel L (line.drop P.position)).2 ∧ Single T' P' ∧
          P'.position = line.length ∧ P'.result = P.result ++ (walk fuel L (line.drop P.position)).1) ∨
      (¬ StepsCount fuel L (line.drop P.position) ∧
        (segmentLoop c line fuel L T = .fault ∨ ∃ T' L', segmentLoop c line fuel L T = .finished T' L' ∧ T'.top = none)) := by
  induction fuel generalizing L T P with
  | zero => exact absurd hfuel (Nat.not_lt_zero _)
  | succ fuel ih =>
    obtain ⟨i, htop, hi⟩ := hT.exists_top
    rcases Nat.eq_or_lt_of_le hP with hend | hlt
    · -- the path is complete
      have hnil : line.drop P.position = [] := List.drop_of_length_le (Nat.le_of_eq hend.symm)
      rw [hnil]
      refine .inl ⟨.inl rfl, T, P, ?_, hT, hend, ?_⟩
      · rw [segmentLoop, htop]
        dsimp only
        rw [hi]
        exact if_pos ⟨Nat.le_of_eq hend.symm, hT.next⟩
      · rw [walk, if_pos rfl, List.append_nil]
    · have hne : line.drop P.position ≠ [] := by
        rw [Ne, List.drop_eq_nil_iff]
        omega
      obtain ⟨hpos, hle⟩ := chooseWord_i L hne
      have hunfold : segmentLoop c line (fuel + 1) L T =
          match pathStep line L T with
          | none => .fault
          | some (T, L) => segmentLoop c line fuel L T := by
        rw [segmentLoop, htop]
        dsimp only
        rw [hi]
        exact if_neg fun h => absurd h.1 (Nat.not_le_of_lt hlt)
      have hcount : StepsCount (fuel + 1) L (line.drop P.position) ↔
          (chooseWord L (line.drop P.position)).freq ≠ 0 ∧ (chooseWord L (line.drop P.position)).List'.total ≠ 0 ∧
            StepsCount fuel (chooseWord L (line.drop P.position)).List'
              ((line.drop P.position).drop (chooseWord L (line.drop P.position)).i) := or_iff_right hne
      have hwalk : walk (fuel + 1) L (line.drop P.position) = _ := if_neg hne
      rw [hcount, hwalk, hunfold]
      dsimp only
      rcases pathStep_single hT hlt L _ rfl with ⟨hfreq, T', hstep, hlost⟩ | ⟨-, htotal, hstep⟩ | ⟨hfreq, htotal, T', hstep, hT'⟩
      · rw [hstep]
        refine .inr ⟨fun h => h.1 hfreq, .inr ⟨T', (chooseWord L (line.drop P.position)).List', ?_, hlost⟩⟩
        cases fuel with
        | zero =>
          rw [Nat.lt_one_iff, List.length_eq_zero_iff] at hfuel
          exact absurd hfuel hne
        | succ fuel =>
          dsimp only
          rw [segmentLoop, hlost]
      · rw [hstep]
        exact .inr ⟨fun h => h.2.1 htotal, .inl rfl⟩
      · rw [hstep]
        dsimp only
        generalize hw : chooseWord L (line.drop P.position) = w at *
        rw [List.length_drop] at hle hfuel
        have hdrop : (line.drop P.position).drop w.i = line.drop (P.extend (line.drop P.position) w).position :=
          List.drop_drop
        have hrec := ih (L := w.List') hT' (show P.position + w.i ≤ line.length by omega) (by
          rw [← hdrop, List.length_drop, List.length_drop]
          omega)
        rw [hdrop, and_iff_right hfreq, and_iff_right htotal]
        rcases hrec with ⟨hcounts, T'', P'', hrun, hsingle, hposition, hresult⟩ | ⟨hcounts, hrun⟩
        · refine .inl ⟨hcounts, T'', P'', hrun, hsingle, hposition, ?_⟩
          rw [hresult, Path.extend, List.append_assoc]
        · exact .inr ⟨hcounts, hrun⟩

theorem segmentRun_spec {L : UdmChinaList} (line : List ℕ) :
    (StepsCount (line.length + 1) L line ∧ ∃ T P,
        segmentRun c L line = .finished T (walk (line.length + 1) L line).2 ∧ Single T P ∧
          P.position = line.length ∧ P.result = (walk (line.length + 1) L line).1) ∨
      (¬ StepsCount (line.length + 1) L line ∧
        (segmentRun c L line = .fault ∨ ∃ T L', segmentRun c L line = .finished T L' ∧ T.top = none)) :=
  segmentLoop_single single_firstPath (Nat.zero_le _) (Nat.lt_succ_self _)

theorem completes_iff (L : UdmChinaList) (line : List ℕ) :
    Completes c L line ↔ (Segmentable L line → StepsCount (line.length + 1) L line) := by
  refine forall_congr' fun _ => ?_
  rcases @segmentRun_spec c L line with ⟨hcount, T, P, hrun, hT, hposition, -⟩ | ⟨hcount, hrun⟩
  · obtain ⟨i, htop, hi⟩ := hT.exists_top
    exact iff_of_true ⟨T, _, i, P, hrun, htop, hi, hposition⟩ hcount
  · refine iff_of_false ?_ hcount
    rintro ⟨T, L', i, P, hrun', htop, -⟩
    rcases hrun with hrun | ⟨T', L'', hrun, hnone⟩
    · rw [hrun] at hrun'
      cases hrun'
    · rw [hrun] at hrun'
      cases hrun'
      rw [hnone] at htop
      cases htop

theorem udmSegmentProcess_eq (L : UdmChinaList) (line : List ℕ) :
    (Segmentable L line → StepsCount (line.length + 1) L line →
        udmSegmentProcess c L line = some (walk (line.length + 1) L line)) ∧
      (Segmentable L line → ¬ StepsCount (line.length + 1) L line → udmSegmentProcess c L line = none) := by
  rw [udmSegmentProcess]
  rcases @segmentRun_spec c L line with ⟨hcount, T, P, hrun, hT, -, hresult⟩ | ⟨hcount, hrun⟩
  · obtain ⟨i, htop, hi⟩ := hT.exists_top
    refine ⟨fun hseg _ => ?_, fun _ h => absurd hcount h⟩
    rw [if_pos hseg, hrun]
    dsimp only
    rw [htop, Option.bind_some, hi, Option.map_some, hresult]
  · refine ⟨fun _ h => absurd h hcount, fun hseg _ => ?_⟩
    rw [if_pos hseg]
    rcases hrun with hrun | ⟨T', L', hrun, hnone⟩
    · rw [hrun]
    · rw [hrun]
      dsimp only
      rw [hnone]
      rfl

/-! ## Nothing is lost -/

/-- The characters of a text but for the spaces. -/
abbrev withoutSpaces (text : List ℕ) : List ℕ := text.filter (· ≠ 32)

theorem withoutSpaces_append (s t : List ℕ) : withoutSpaces (s ++ t) = withoutSpaces s ++ withoutSpaces t :=
  List.filter_append ..

theorem withoutSpaces_space (t : List ℕ) : withoutSpaces (32 :: t) = withoutSpaces t :=
  List.filter_cons_of_neg (by decide)

theorem withoutSpaces_walk (h : text.length < fuel) : withoutSpaces (walk fuel L text).1 = withoutSpaces text := by
  induction fuel generalizing L text with
  | zero => exact absurd h (Nat.not_lt_zero _)
  | succ fuel ih =>
    rw [walk]
    split
    case isTrue hnil => rw [hnil]
    case isFalse hne =>
      obtain ⟨hpos, hle⟩ := chooseWord_i L hne
      dsimp only
      rw [List.cons_append, withoutSpaces_space, withoutSpaces_append,
        ih (by rw [List.length_drop]; omega), ← withoutSpaces_append, List.take_append_drop]

theorem withoutSpaces_insertSpaces (reg : Bool) (line : List ℕ) :
    withoutSpaces (insertSpaces reg line) = withoutSpaces line := by
  have hskip : ∀ (b : Bool) (wc : ℕ) (s t : List ℕ), withoutSpaces s = withoutSpaces t →
      withoutSpaces ((if b then [32] else []) ++ wc :: s) = withoutSpaces (wc :: t) := by
    intro b wc s t hst
    have hcons : withoutSpaces (wc :: s) = withoutSpaces (wc :: t) := by
      rw [withoutSpaces, withoutSpaces, List.filter_cons, List.filter_cons]
      split
      · exact congrArg (wc :: ·) hst
      · exact hst
    cases b with
    | false => exact hcons
    | true => exact (withoutSpaces_space _).trans hcons
  induction line generalizing reg with
  | nil => rfl
  | cons wc line ih =>
    rw [insertSpaces]
    split
    · have h := hskip (!reg) wc _ _ (ih true)
      cases reg <;> exact h
    · exact hskip reg wc _ _ (ih false)

theorem segmentSentences_iff (rest : List (List ℕ)) (out : List ℕ) (L : UdmChinaList) :
    (∃ out' L', segmentSentences c rest out L = some (out', L') ∧
      withoutSpaces out' = withoutSpaces out ++ withoutSpaces rest.flatten) ↔ SentencesCount rest L := by
  induction rest generalizing out L with
  | nil => exact iff_of_true ⟨out, L, rfl, (List.append_nil _).symm⟩ trivial
  | cons sentence rest ih =>
    rw [segmentSentences, SentencesCount]
    have hout : ∀ segmented : List ℕ, withoutSpaces segmented = withoutSpaces sentence →
        withoutSpaces ((if out = [] then [] else out ++ [32]) ++ segmented) =
          withoutSpaces out ++ withoutSpaces sentence := by
      intro segmented hseg
      rw [withoutSpaces_append, hseg]
      split
      case isTrue hnil => rw [hnil]
      case isFalse => rw [withoutSpaces_append, withoutSpaces_space, show withoutSpaces [] = [] from rfl, List.append_nil]
    by_cases hseg : Segmentable L sentence
    · rw [if_pos hseg]
      by_cases hcount : StepsCount (sentence.length + 1) L sentence
      · rw [(udmSegmentProcess_eq L sentence).1 hseg hcount, and_iff_right hcount, Option.bind_some, ← ih,
          List.flatten_cons, hout _ (withoutSpaces_walk (Nat.lt_succ_self _)), withoutSpaces_append, List.append_assoc]
      · rw [(udmSegmentProcess_eq L sentence).2 hseg hcount]
        refine iff_of_false ?_ fun h => hcount h.1
        rintro ⟨out', L', h, -⟩
        cases h
    · rw [if_neg hseg, udmSegmentProcess, if_neg hseg, Option.bind_some, ← ih, List.flatten_cons, hout _ rfl,
        withoutSpaces_append, List.append_assoc]

/-- **A text is segmented completely, and without loss, exactly if every step on the way counts.** -/
theorem segmentation_iff (c : SegmentArgs) (L : UdmChinaList) (line : List ℕ) :
    (Completes c L line ↔ (Segmentable L line → StepsCount (line.length + 1) L line)) ∧
      (LosesNothing c L line ↔ SentencesCount (sentences c line) L) := by
  refine ⟨completes_iff L line, ?_⟩
  have h := @segmentSentences_iff c (sentences c line) [] L
  rw [sentences, flatten_runs, withoutSpaces_insertSpaces] at h
  exact h

/-- Values that do not matter, and characters of one type. -/
def plainArgs : SegmentArgs := ⟨Unit, (), fun _ _ => (), fun _ _ => true, fun _ => 0⟩

/-- A dictionary with one word of one character, which has the frequency 0. -/
def rareWord : UdmChinaList := udmChineseListAdd ⟨[], 0, none⟩ ⟨[0x4E00], 0⟩

/-- The only path is lost with the word. -/
theorem not_completes_rareWord : ¬ Completes plainArgs rareWord [0x4E00] ∧ ¬ LosesNothing plainArgs rareWord [0x4E00] := by
  have hcount : ¬ StepsCount 2 rareWord [0x4E00] := by
    rintro (h | ⟨h, -⟩)
    · cases h
    · exact h rfl
  have hseg : Segmentable rareWord [0x4E00] := by decide
  refine ⟨fun h => hcount ((completes_iff _ _).1 h hseg), ?_⟩
  rintro ⟨out, L', hrun, -⟩
  have hnone : udmSegmentByFreq plainArgs rareWord [0x4E00] = none := by
    rw [udmSegmentByFreq, show sentences plainArgs [0x4E00] = [[0x4E00]] from rfl, segmentSentences,
      (udmSegmentProcess_eq _ _).2 hseg hcount, Option.bind_none]
  rw [hnone] at hrun
  cases hrun

end MnoGoSearch.Segment
