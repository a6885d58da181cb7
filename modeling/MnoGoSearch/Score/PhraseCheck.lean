import MnoGoSearch.Query.Boolean
import Mathlib.Data.List.TakeWhile
import Mathlib.Tactic.Tauto

/-!
# The check of a phrase

`CheckOnePhrase` (`score.c`) looks for the words of a phrase in the coords of one section. It walks
from a coord of the first word to the coords that must follow; a stop word of the phrase has no
coords and only makes the next step longer. `checkOnePhrase_exact_iff` says when the answer is
whether the phrase occurs in the section.
-/

namespace MnoGoSearch.Score

open Query

/-- `UDM_COORD2`. -/
structure UdmCoord2 where
  /-- The position in the section. -/
  pos : ℕ
  /-- The number of the word in the query. -/
  order : ℕ
  deriving DecidableEq, Repr

/-- Find the coord for the word `arg`, `delta` positions after `prev`: skip what stands where `prev` does and what
stands in the right place with a wrong order. -/
def findCoord (prev : UdmCoord2) (delta arg : ℕ) (curr : List UdmCoord2) : List UdmCoord2 :=
  curr.dropWhile fun c => prev.pos == c.pos || prev.pos + delta == c.pos && c.order != arg

/-- The commands after the first one, with `delta`, `CoordPrev` and the coords from `CoordCurr` on. -/
def checkRest : List UdmStackItem → ℕ → UdmCoord2 → List UdmCoord2 → Bool
  | [], _, _, _ => true
  | item :: cmds, delta, prev, curr =>
    if item.cmd = .stop then checkRest cmds (delta + 1) prev curr
    else
      match findCoord prev delta item.arg curr with
      | [] => false
      | c :: rest =>
        if prev.pos + delta = c.pos ∧ item.arg = c.order then checkRest cmds 1 c (c :: rest) else false

/-- The command argument of a phrase that must be the whole section, the character `=`. -/
def eqArg : ℕ := 61

/-- With `=` the phrase must have the length of the section. -/
def Fits (cmdArg seclen n : ℕ) : Prop := cmdArg = eqArg → n + 1 = seclen

instance (cmdArg seclen n : ℕ) : Decidable (Fits cmdArg seclen n) :=
  inferInstanceAs (Decidable (cmdArg = eqArg → n + 1 = seclen))

/-- `CheckOnePhrase` for the phrase `cmdBeg :: cmds`. -/
def checkOnePhrase (cmdBeg : UdmStackItem) (cmds : List UdmStackItem) (cmdArg seclen : ℕ) : List UdmCoord2 → Bool
  | [] => false
  | first :: coords =>
    if cmdBeg.arg = first.order ∧ checkRest cmds 1 first coords = true ∧ Fits cmdArg seclen (cmds.length + 1) then true
    else checkOnePhrase cmdBeg cmds cmdArg seclen coords

/-! ## What a phrase is -/

/-- The coords of a section, in the order of their positions. -/
def SortedByPos (coords : List UdmCoord2) : Prop := coords.Pairwise fun a b => a.pos ≤ b.pos

/-- The phrase occurs at `p`: every word that is no stop word stands at its offset. -/
def OccursAt (phrase : List UdmStackItem) (coords : List UdmCoord2) (p : ℕ) : Prop :=
  ∀ i item, phrase[i]? = some item → item.cmd ≠ .stop → ⟨p + i, item.arg⟩ ∈ coords

/-- No coord stands at the place of a stop word between the words of the phrase. -/
def GapsFree (phrase : List UdmStackItem) (coords : List UdmCoord2) (p : ℕ) : Prop :=
  ∀ i item, phrase[i]? = some item → item.cmd = .stop → (∃ w ∈ phrase.drop (i + 1), w.cmd ≠ .stop) →
    ∀ c ∈ coords, c.pos ≠ p + i

/-- What the walk asks of the coords after a word at `p`, `delta` positions before the next command. -/
def Follows (coords : List UdmCoord2) : List UdmStackItem → ℕ → ℕ → Prop
  | [], _, _ => True
  | item :: cmds, delta, p =>
    if item.cmd = .stop then Follows coords cmds (delta + 1) p
    else (∀ c ∈ coords, p < c.pos → p + delta ≤ c.pos) ∧ ⟨p + delta, item.arg⟩ ∈ coords ∧
      Follows coords cmds 1 (p + delta)

/-! ## The walk -/

/-- A list of coords goes on at `curr` after the position `p`: all later coords are still there. -/
structure Ahead (coords curr : List UdmCoord2) (p : ℕ) : Prop where
  sorted : SortedByPos curr
  /-- They are coords of the section, -/
  mem : ∀ c ∈ curr, c ∈ coords
  /-- not before `p`, -/
  le : ∀ c ∈ curr, p ≤ c.pos
  /-- and all that are after `p`. -/
  later : ∀ c ∈ coords, p < c.pos → c ∈ curr

theorem findCoord_append (prev : UdmCoord2) (delta arg : ℕ) (curr : List UdmCoord2) :
    ∃ skipped, curr = skipped ++ findCoord prev delta arg curr ∧
      ∀ c ∈ skipped, c.pos = prev.pos ∨ c.pos = prev.pos + delta ∧ c.order ≠ arg := by
  refine ⟨_, List.takeWhile_append_dropWhile.symm, fun c hc => ?_⟩
  have hskip := List.mem_takeWhile_imp hc
  simp only [Bool.or_eq_true, Bool.and_eq_true, beq_iff_eq, bne_iff_ne] at hskip
  exact hskip.imp Eq.symm fun h => ⟨h.1.symm, h.2⟩

variable {prev c : UdmCoord2} {delta arg cmdArg seclen p : ℕ} {curr rest pre coords : List UdmCoord2}
variable {cmdBeg item : UdmStackItem} {cmds phrase : List UdmStackItem}

theorem not_skipped_of_findCoord (hfind : findCoord prev delta arg curr = c :: rest) :
    c.pos ≠ prev.pos ∧ (c.pos = prev.pos + delta → c.order = arg) := by
  have hnot := List.head?_dropWhile_not
    (fun c : UdmCoord2 => prev.pos == c.pos || prev.pos + delta == c.pos && c.order != arg) curr
  rw [← findCoord, hfind, List.head?_cons] at hnot
  simp only [Bool.or_eq_false_iff, Bool.and_eq_false_iff, beq_eq_false_iff_ne, bne_eq_false_iff_eq] at hnot
  exact ⟨hnot.1.symm, fun h => hnot.2.resolve_left (not_not_intro h.symm)⟩

theorem Ahead.of_findCoord (h : Ahead coords curr prev.pos) (hfind : findCoord prev delta arg curr = c :: rest)
    (hpos : prev.pos + delta = c.pos) :
    (∀ d ∈ coords, prev.pos < d.pos → c.pos ≤ d.pos) ∧ Ahead coords (c :: rest) c.pos := by
  obtain ⟨skipped, hcurr, hskipped⟩ := findCoord_append prev delta arg curr
  rw [hfind] at hcurr
  have hsorted : SortedByPos (c :: rest) := (List.pairwise_append.mp (hcurr ▸ h.sorted)).2.1
  have hle : ∀ d ∈ c :: rest, c.pos ≤ d.pos := by
    intro d hd
    rcases List.mem_cons.mp hd with rfl | hd
    · exact le_rfl
    · exact List.rel_of_pairwise_cons hsorted hd
  -- a coord after `prev` is one of those skipped in the right place, or is not before the one found
  have hcases : ∀ d ∈ coords, prev.pos < d.pos → d.pos = c.pos ∨ d ∈ c :: rest := by
    intro d hd hlt
    rcases List.mem_append.mp (hcurr ▸ h.later d hd hlt) with hd | hd
    · rcases hskipped d hd with heq | heq
      · omega
      · exact .inl (by omega)
    · exact .inr hd
  refine ⟨fun d hd hlt => ?_, hsorted, fun d hd => h.mem d ?_, hle, fun d hd hlt => ?_⟩
  · rcases hcases d hd hlt with heq | hd
    · exact heq.ge
    · exact hle d hd
  · rw [hcurr]
    exact List.mem_append_right _ hd
  · rcases hcases d hd (by omega) with heq | hd
    · omega
    · exact hd

theorem Ahead.findCoord_eq (hdelta : 0 < delta)
    (h : Ahead coords curr prev.pos) (hfree : ∀ d ∈ coords, prev.pos < d.pos → prev.pos + delta ≤ d.pos)
    (hmem : ⟨prev.pos + delta, arg⟩ ∈ coords) :
    ∃ rest, findCoord prev delta arg curr = ⟨prev.pos + delta, arg⟩ :: rest := by
  obtain ⟨skipped, hcurr, hskipped⟩ := findCoord_append prev delta arg curr
  have hcoord : (⟨prev.pos + delta, arg⟩ : UdmCoord2) ∈ findCoord prev delta arg curr := by
    have hlater := h.later _ hmem (Nat.lt_add_of_pos_right hdelta)
    rw [hcurr] at hlater
    refine (List.mem_append.mp hlater).resolve_left fun hskip => ?_
    rcases hskipped _ hskip with heq | heq
    · exact absurd heq (by simp only; omega)
    · exact heq.2 rfl
  obtain ⟨c, rest, hfind⟩ := List.exists_cons_of_ne_nil (List.ne_nil_of_mem hcoord)
  rw [hfind] at hcoord hcurr ⊢
  obtain ⟨hne, horder⟩ := not_skipped_of_findCoord hfind
  have hc : c ∈ curr := hcurr ▸ List.mem_append_right _ List.mem_cons_self
  have hlt : prev.pos < c.pos := lt_of_le_of_ne (h.le c hc) hne.symm
  have hpos : c.pos = prev.pos + delta := by
    refine le_antisymm ?_ (hfree c (h.mem c hc) hlt)
    rcases List.mem_cons.mp hcoord with heq | hrest
    · exact le_of_eq (congrArg UdmCoord2.pos heq).symm
    · have hsorted : SortedByPos (c :: rest) := (List.pairwise_append.mp (hcurr ▸ h.sorted)).2.1
      exact List.rel_of_pairwise_cons hsorted hrest
  refine ⟨rest, ?_⟩
  rw [← hpos, ← horder hpos]

theorem checkRest_iff {coords : List UdmCoord2} {cmds : List UdmStackItem} {delta : ℕ} (hdelta : 0 < delta)
    {prev : UdmCoord2} {curr : List UdmCoord2} (h : Ahead coords curr prev.pos) :
    checkRest cmds delta prev curr = true ↔ Follows coords cmds delta prev.pos := by
  induction cmds generalizing delta prev curr with
  | nil => simp only [checkRest, Follows]
  | cons item cmds ih =>
    rw [checkRest, Follows]
    by_cases hstop : item.cmd = .stop
    · rw [if_pos hstop, if_pos hstop]
      exact ih (Nat.succ_pos delta) h
    · rw [if_neg hstop, if_neg hstop]
      constructor
      · intro hcheck
        split at hcheck
        · contradiction
        · rename_i c rest hfind
          split_ifs at hcheck with hc
          obtain ⟨hfree, hahead⟩ := h.of_findCoord hfind hc.1
          rw [hc.1]
          refine ⟨hfree, ?_, (ih one_pos hahead).mp hcheck⟩
          rw [hc.2]
          exact hahead.mem c List.mem_cons_self
      · rintro ⟨hfree, hmem, hfollows⟩
        obtain ⟨rest, hfind⟩ := h.findCoord_eq hdelta hfree hmem
        have hahead := (h.of_findCoord hfind rfl).2
        rw [hfind]
        simp only [and_self, if_true]
        exact (ih one_pos hahead).mpr hfollows

/-! ## The answer -/

theorem occursAt_nil (coords : List UdmCoord2) (p : ℕ) : OccursAt [] coords p :=
  fun _ _ hitem => nomatch hitem

theorem occursAt_cons :
    OccursAt (item :: phrase) coords p ↔
      (item.cmd ≠ .stop → ⟨p, item.arg⟩ ∈ coords) ∧ OccursAt phrase coords (p + 1) := by
  constructor
  · refine fun h => ⟨h 0 item rfl, fun i item' hitem hstop => ?_⟩
    rw [Nat.add_right_comm]
    exact h (i + 1) item' hitem hstop
  · rintro ⟨h0, h⟩ (_ | i) item' hitem hstop
    · obtain rfl : item = item' := Option.some.inj hitem
      exact h0 hstop
    · rw [← Nat.add_assoc, Nat.add_right_comm]
      exact h i item' hitem hstop

theorem gapsFree_cons :
    GapsFree (item :: phrase) coords p ↔
      (item.cmd = .stop → (∃ w ∈ phrase, w.cmd ≠ .stop) → ∀ c ∈ coords, c.pos ≠ p) ∧
        GapsFree phrase coords (p + 1) := by
  constructor
  · refine fun h => ⟨h 0 item rfl, fun i item' hitem hstop hword => ?_⟩
    rw [Nat.add_right_comm]
    exact h (i + 1) item' hitem hstop hword
  · rintro ⟨h0, h⟩ (_ | i) item' hitem hstop hword
    · obtain rfl : item = item' := Option.some.inj hitem
      exact h0 hstop hword
    · rw [← Nat.add_assoc, Nat.add_right_comm]
      exact h i item' hitem hstop hword

theorem follows_iff (coords : List UdmCoord2) (cmds : List UdmStackItem) (hdelta : 0 < delta) (p : ℕ) :
    Follows coords cmds delta p ↔ OccursAt cmds coords (p + delta) ∧ GapsFree cmds coords (p + delta) ∧
      ((∃ w ∈ cmds, w.cmd ≠ .stop) → ∀ c ∈ coords, p < c.pos → p + delta ≤ c.pos) := by
  induction cmds generalizing delta p with
  | nil => simp [Follows, OccursAt, GapsFree]
  | cons item cmds ih =>
    rw [Follows, occursAt_cons, gapsFree_cons]
    by_cases hstop : item.cmd = .stop
    · rw [if_pos hstop, ih (show 0 < delta + 1 from Nat.succ_pos delta)]
      have hword : (∃ w ∈ item :: cmds, w.cmd ≠ .stop) ↔ ∃ w ∈ cmds, w.cmd ≠ .stop := by
        simp only [List.mem_cons, exists_eq_or_imp, hstop, ne_eq, not_true_eq_false, false_or]
      -- a gap that is one longer is a gap with nothing at its last place
      have hgap : (∀ c ∈ coords, p < c.pos → p + (delta + 1) ≤ c.pos) ↔
          (∀ c ∈ coords, p < c.pos → p + delta ≤ c.pos) ∧ ∀ c ∈ coords, c.pos ≠ p + delta := by
        constructor
        · refine fun h => ⟨fun c hc hlt => ?_, fun c hc heq => ?_⟩
          · have := h c hc hlt
            omega
          · have := h c hc (by omega)
            omega
        · rintro ⟨hle, hne⟩ c hc hlt
          have := hle c hc hlt
          have := hne c hc
          omega
      rw [hword, hgap, ← Nat.add_assoc]
      simp only [hstop, ne_eq, not_true_eq_false, false_implies, true_and, true_implies, imp_and]
      tauto
    · rw [if_neg hstop, ih one_pos]
      have hword : ∃ w ∈ item :: cmds, w.cmd ≠ .stop := ⟨item, List.mem_cons_self, hstop⟩
      have hone : (∃ w ∈ cmds, w.cmd ≠ .stop) → ∀ c ∈ coords, p + delta < c.pos → p + delta + 1 ≤ c.pos :=
        fun _ c _ hlt => hlt
      simp only [hstop, ne_eq, not_false_eq_true, true_implies, false_implies, true_and, hword]
      tauto

theorem follows_one_iff (hbeg : cmdBeg.cmd ≠ .stop) (hmem : ⟨p, cmdBeg.arg⟩ ∈ coords) :
    Follows coords cmds 1 p ↔ OccursAt (cmdBeg :: cmds) coords p ∧ GapsFree (cmdBeg :: cmds) coords p := by
  rw [follows_iff coords cmds one_pos, occursAt_cons, gapsFree_cons]
  have hone : (∃ w ∈ cmds, w.cmd ≠ .stop) → ∀ c ∈ coords, p < c.pos → p + 1 ≤ c.pos := fun _ c _ hlt => hlt
  tauto

theorem SortedByPos.ahead {first : UdmCoord2}
    (hs : SortedByPos (pre ++ first :: coords)) : Ahead (pre ++ first :: coords) coords first.pos := by
  obtain ⟨-, hcons, hpre⟩ := List.pairwise_append.mp hs
  obtain ⟨hle, hsorted⟩ := List.pairwise_cons.mp hcons
  refine ⟨hsorted, fun c hc => List.mem_append_right _ (List.mem_cons_of_mem _ hc), hle, fun c hc hlt => ?_⟩
  rcases List.mem_append.mp hc with hc | hc
  · exact absurd (hpre c hc first List.mem_cons_self) (Nat.not_le.mpr hlt)
  · rcases List.mem_cons.mp hc with rfl | hc
    · exact absurd hlt (lt_irrefl _)
    · exact hc

theorem checkOnePhrase_suffix
    (hs : SortedByPos (pre ++ coords)) :
    checkOnePhrase cmdBeg cmds cmdArg seclen coords = true ↔ Fits cmdArg seclen (cmds.length + 1) ∧
      ∃ p, ⟨p, cmdBeg.arg⟩ ∈ coords ∧ Follows (pre ++ coords) cmds 1 p := by
  induction coords generalizing pre with
  | nil => simp [checkOnePhrase]
  | cons first coords ih =>
    have hcheck := @checkRest_iff _ cmds _ one_pos _ _ hs.ahead
    rw [checkOnePhrase]
    have happend : pre ++ first :: coords = (pre ++ [first]) ++ coords := by
      rw [List.append_assoc, List.singleton_append]
    split_ifs with hfirst
    · refine iff_of_true rfl ⟨hfirst.2.2, first.pos, ?_, hcheck.mp hfirst.2.1⟩
      rw [hfirst.1]
      exact List.mem_cons_self
    · rw [ih (happend ▸ hs), ← happend]
      refine and_congr_right fun hfits => exists_congr fun p => and_congr_left fun hfollows => ?_
      refine ⟨List.mem_cons_of_mem first, fun hmem => (List.mem_cons.mp hmem).resolve_left ?_⟩
      rintro rfl
      exact hfirst ⟨rfl, hcheck.mpr hfollows, hfits⟩

/-- **What the check finds**: a place where the phrase occurs and its gaps are free. -/
theorem checkOnePhrase_iff (hbeg : cmdBeg.cmd ≠ .stop)
    (hs : SortedByPos coords) :
    checkOnePhrase cmdBeg cmds cmdArg seclen coords = true ↔ Fits cmdArg seclen (cmds.length + 1) ∧
      ∃ p, OccursAt (cmdBeg :: cmds) coords p ∧ GapsFree (cmdBeg :: cmds) coords p := by
  have hnil : SortedByPos ([] ++ coords) := hs
  rw [checkOnePhrase_suffix hnil]
  refine and_congr_right fun _ => exists_congr fun p => ?_
  constructor
  · rintro ⟨hmem, hfollows⟩
    exact (follows_one_iff hbeg hmem).mp hfollows
  · rintro ⟨hoccurs, hfree⟩
    have hmem : ⟨p, cmdBeg.arg⟩ ∈ coords := (occursAt_cons.mp hoccurs).1 hbeg
    exact ⟨hmem, (follows_one_iff hbeg hmem).mpr ⟨hoccurs, hfree⟩⟩

/-- The check is exact: it finds a phrase if and only if the phrase occurs. -/
def PhraseExact (cmdBeg : UdmStackItem) (cmds : List UdmStackItem) (cmdArg seclen : ℕ) (coords : List UdmCoord2) :
    Prop :=
  checkOnePhrase cmdBeg cmds cmdArg seclen coords = true ↔ ∃ p, OccursAt (cmdBeg :: cmds) coords p

/-- **When the check of a phrase is exact**: if the phrase occurs, then it occurs somewhere without a word of the query
in the place of its stop words, and, for `=`, has the length of the section. -/
theorem phraseExact_iff {cmdBeg : UdmStackItem} (hbeg : cmdBeg.cmd ≠ .stop) (cmds : List UdmStackItem)
    (cmdArg seclen : ℕ) {coords : List UdmCoord2} (hs : SortedByPos coords) :
    PhraseExact cmdBeg cmds cmdArg seclen coords ↔
      ((∃ p, OccursAt (cmdBeg :: cmds) coords p) → Fits cmdArg seclen (cmds.length + 1) ∧
        ∃ p, OccursAt (cmdBeg :: cmds) coords p ∧ GapsFree (cmdBeg :: cmds) coords p) := by
  rw [PhraseExact, checkOnePhrase_iff hbeg hs]
  exact ⟨fun h => h.mpr, fun h => ⟨fun ⟨_, p, hp⟩ => ⟨p, hp.1⟩, h⟩⟩

theorem phraseExact_dog_bird :
    PhraseExact ⟨.word, 0⟩ [⟨.word, 1⟩] 0 0 [⟨1, 0⟩, ⟨2, 1⟩] ↔
      ((∃ p, OccursAt [⟨.word, 0⟩, ⟨.word, 1⟩] [⟨1, 0⟩, ⟨2, 1⟩] p) → Fits 0 0 2 ∧
        ∃ p, OccursAt [⟨.word, 0⟩, ⟨.word, 1⟩] [⟨1, 0⟩, ⟨2, 1⟩] p ∧
          GapsFree [⟨.word, 0⟩, ⟨.word, 1⟩] [⟨1, 0⟩, ⟨2, 1⟩] p) :=
  phraseExact_iff StackCmd.noConfusion [⟨.word, 1⟩] 0 0 (by simp [SortedByPos])

/-- "dog the bird" in a section with dog, cat and bird, when cat is another word of the query. -/
theorem not_phraseExact :
    ¬PhraseExact ⟨.word, 1⟩ [⟨.stop, 2⟩, ⟨.word, 2⟩] 0 0 [⟨1, 1⟩, ⟨2, 0⟩, ⟨3, 2⟩] := by
  have hoccurs : OccursAt [⟨.word, 1⟩, ⟨.stop, 2⟩, ⟨.word, 2⟩] [⟨1, 1⟩, ⟨2, 0⟩, ⟨3, 2⟩] 1 := by
    refine occursAt_cons.mpr ⟨fun _ => by decide, occursAt_cons.mpr ⟨fun h => absurd rfl h, ?_⟩⟩
    exact occursAt_cons.mpr ⟨fun _ => by decide, occursAt_nil _ _⟩
  exact fun h => absurd (h.mpr ⟨1, hoccurs⟩) (by decide)

end MnoGoSearch.Score
