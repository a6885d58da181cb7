import MnoGoSearch.Lib.Compaction
import MnoGoSearch.Lib.Sorting
import Mathlib.Data.List.Nodup
import Mathlib.Data.Prod.Lex

/-!
# Words of several parts

A query item such as `well-known` is searched part by part (`UdmFindMultiWordSQL`): the part `i` has the number
`wordnum + i`, and the coords of all parts are sorted by document, section and position. `UdmURLCRDListMergeMultiWord`
(`coords.c`) then keeps the places where the parts stand one after the other. It looks at coords that are neighbours in
the list, and writes the place into the list without the length of the section.

`mergeMultiWord_right_iff` says when the result is right: if the coords of every place are neighbours, and the coord
that is overwritten happens to have the length of the right section.
-/

namespace MnoGoSearch.Score

open Lib.Sorting Lib.Compaction

/-- `UDM_URL_CRD`. -/
structure UdmUrlCrd where
  urlId : ℤ
  /-- The length of the section. -/
  seclen : ℕ
  /-- The position in the section. -/
  pos : ℕ
  num : ℕ
  secno : ℕ
  deriving DecidableEq, Repr

/-- The keys of `cmpurlid`. -/
def crdKey (c : UdmUrlCrd) : ℤ ×ₗ ℕ ×ₗ ℕ := toLex (c.urlId, toLex (c.secno, c.pos))

/-- The order of `cmpurlid`. -/
def CrdLe (s1 s2 : UdmUrlCrd) : Prop := crdKey s1 ≤ crdKey s2

instance : DecidableRel CrdLe := fun s1 s2 => inferInstanceAs (Decidable (crdKey s1 ≤ crdKey s2))

/-- No coord. -/
def emptyCrd : UdmUrlCrd := ⟨0, 0, 0, 0, 0⟩

/-- The coord `i` places in front of `From` belongs to the part `i` places in front of its part. -/
def stands (Prev From : UdmUrlCrd) (i : ℕ) : Bool :=
  Prev.urlId == From.urlId && From.secno == Prev.secno && From.pos == Prev.pos + i && From.num == Prev.num + i

/-- All parts stand in front of the last one, which is `nparts - 1` places behind `k`. -/
def matchesAt (nparts : ℕ) (A : ℕ → UdmUrlCrd) (k : ℕ) : Bool :=
  (List.range' 1 (nparts - 1)).all fun i => stands (A (k + (nparts - 1) - i)) (A (k + (nparts - 1))) i

/-- What is written over the coord `To`; its `seclen` stays. -/
def placeOf (wordnum nparts : ℕ) (A : ℕ → UdmUrlCrd) (k : ℕ) (To : UdmUrlCrd) : UdmUrlCrd :=
  let From := A (k + (nparts - 1))
  { To with urlId := From.urlId, pos := From.pos + 1 - nparts, secno := From.secno, num := wordnum }

/-- `UdmURLCRDListMergeMultiWord`. -/
def udmURLCRDListMergeMultiWord (Phrase : List UdmUrlCrd) (wordnum nparts : ℕ) : List UdmUrlCrd :=
  -- If one part, keep Phrase unchanged
  if nparts < 2 then Phrase
  -- Nothing found
  else if Phrase.length < nparts then []
  else
    let s := compact (matchesAt nparts) (placeOf wordnum nparts) (fun i => Phrase.getD i emptyCrd)
      (Phrase.length - (nparts - 1))
    (List.range s.2).map s.1

/-- `UdmMultiWordMergeCoords` on the coords of all parts. -/
def udmMultiWordMergeCoords (S : QSort CrdLe) (coords : List UdmUrlCrd) (wordnum nparts : ℕ) : List UdmUrlCrd :=
  udmURLCRDListMergeMultiWord (S.sort coords) wordnum nparts

/-! ### What is searched -/

/-- The coords of the parts of an item. -/
structure PartCoords (wordnum nparts : ℕ) (coords : List UdmUrlCrd) : Prop where
  pos : 0 < nparts
  /-- They belong to the parts. -/
  num : ∀ c ∈ coords, wordnum ≤ c.num ∧ c.num < wordnum + nparts
  /-- A part stands once at a place. -/
  nodup : (coords.map fun c => (c.urlId, c.secno, c.pos, c.num)).Nodup
  /-- A section has one length. -/
  seclen : ∀ c ∈ coords, ∀ d ∈ coords, c.urlId = d.urlId → c.secno = d.secno → c.seclen = d.seclen

/-- The place of a coord. -/
def crdPlace (c : UdmUrlCrd) : ℤ × ℕ × ℕ := (c.urlId, c.secno, c.pos)

/-- The part `i` stands `i` places behind `p`, for every part. -/
def Occurs (wordnum nparts : ℕ) (coords : List UdmUrlCrd) (p : ℤ × ℕ × ℕ) : Prop :=
  ∀ i < nparts, ∃ c ∈ coords, crdPlace c = (p.1, p.2.1, p.2.2 + i) ∧ c.num = wordnum + i

/-- Every place once, with the length of its section. -/
def RightPlaces (wordnum nparts : ℕ) (coords R : List UdmUrlCrd) : Prop :=
  (R.map crdPlace).Nodup ∧ (∀ p, p ∈ R.map crdPlace ↔ Occurs wordnum nparts coords p) ∧
    ∀ r ∈ R, ∀ c ∈ coords, c.urlId = r.urlId → c.secno = r.secno → r.seclen = c.seclen

/-- The parts of a place are neighbours in the list, from `k` on. -/
def OccursFrom (wordnum nparts : ℕ) (L : List UdmUrlCrd) (p : ℤ × ℕ × ℕ) (k : ℕ) : Prop :=
  ∀ i < nparts, ∃ c, L[k + i]? = some c ∧ crdPlace c = (p.1, p.2.1, p.2.2 + i) ∧ c.num = wordnum + i

/-- Where neighbours in the list are the parts of a place. -/
def placeStarts (nparts : ℕ) (L : List UdmUrlCrd) : List ℕ :=
  starts (matchesAt nparts) (fun i => L.getD i emptyCrd) (L.length - (nparts - 1))

/-! ### Neighbours in the list -/

variable {wordnum nparts k : ℕ} {coords L : List UdmUrlCrd} {p : ℤ × ℕ × ℕ}

theorem stands_iff {c d : UdmUrlCrd} {i : ℕ} :
    stands c d i = true ↔ c.urlId = d.urlId ∧ d.secno = c.secno ∧ d.pos = c.pos + i ∧ d.num = c.num + i := by
  simp [stands, and_assoc]

theorem matchesAt_iff {A : ℕ → UdmUrlCrd} :
    matchesAt nparts A k = true ↔ ∀ i < nparts, stands (A (k + i)) (A (k + (nparts - 1))) (nparts - 1 - i) = true := by
  rw [matchesAt, List.all_eq_true]
  constructor
  · intro h i hi
    by_cases hlast : i = nparts - 1
    · -- the last part is the one that the others are compared with
      rw [hlast, stands_iff]
      omega
    · have hback := h (nparts - 1 - i) (List.mem_range'_1.mpr ⟨by omega, by omega⟩)
      rwa [show k + (nparts - 1) - (nparts - 1 - i) = k + i by omega] at hback
  · intro h i hi
    have hi := List.mem_range'_1.mp hi
    have hback := h (nparts - 1 - i) (by omega)
    rwa [show k + (nparts - 1 - i) = k + (nparts - 1) - i by omega,
      show nparts - 1 - (nparts - 1 - i) = i by omega] at hback

theorem local_matchesAt (wordnum nparts : ℕ) : Local (matchesAt nparts) (placeOf wordnum nparts) (nparts - 1) := by
  intro A B k h
  have hlast := h (k + (nparts - 1)) (Nat.le_add_right _ _) (Nat.le_refl _)
  constructor
  · rw [Bool.eq_iff_iff, matchesAt_iff, matchesAt_iff, hlast]
    refine forall₂_congr fun i hi => ?_
    rw [h (k + i) (Nat.le_add_right _ _) (by omega)]
  · funext To
    rw [placeOf, placeOf, hlast]

theorem getD_of_lt (hk : k < L.length) : L[k]? = some (L.getD k emptyCrd) := by
  rw [List.getD_eq_getElem?_getD, List.getElem?_eq_getElem hk, Option.getD_some]

theorem getD_mem (hk : k < L.length) : L.getD k emptyCrd ∈ L := List.mem_of_getElem? (getD_of_lt hk)

theorem PartCoords.perm (hp : PartCoords wordnum nparts coords) (hL : L.Perm coords) : PartCoords wordnum nparts L where
  pos := hp.pos
  num c hc := hp.num c (hL.mem_iff.mp hc)
  nodup := (hL.map _).nodup_iff.mpr hp.nodup
  seclen c hc d hd := hp.seclen c (hL.mem_iff.mp hc) d (hL.mem_iff.mp hd)

theorem mem_placeStarts (hp : PartCoords wordnum nparts L) :
    k ∈ placeStarts nparts L ↔ OccursFrom wordnum nparts L (crdPlace (L.getD k emptyCrd)) k := by
  have hpos := hp.pos
  rw [placeStarts, starts, List.mem_filter, List.mem_range, matchesAt_iff]
  simp only [stands_iff]
  constructor
  · rintro ⟨hk, hmatch⟩ i hi
    obtain ⟨hurl0, hsec0, hpos0, hnum0⟩ := hmatch 0 hpos
    obtain ⟨hurl, hsec, hposi, hnumi⟩ := hmatch i hi
    have hfirst := hp.num _ (getD_mem (L := L) (k := k) (by omega))
    have hlast := hp.num _ (getD_mem (L := L) (k := k + (nparts - 1)) (by omega))
    rw [Nat.add_zero] at hurl0 hsec0 hpos0 hnum0
    refine ⟨_, getD_of_lt (by omega), ?_, by omega⟩
    have hposk : (L.getD (k + i) emptyCrd).pos = (L.getD k emptyCrd).pos + i := by omega
    rw [crdPlace, crdPlace, hurl, hurl0, ← hsec, hsec0, hposk]
  · intro h
    have hlen : ∀ i < nparts, k + i < L.length := by
      intro i hi
      obtain ⟨c, hc, -⟩ := h i hi
      exact (List.getElem?_eq_some_iff.mp hc).1
    have hcrd : ∀ i < nparts, (L.getD (k + i) emptyCrd).urlId = (L.getD k emptyCrd).urlId ∧
        (L.getD (k + i) emptyCrd).secno = (L.getD k emptyCrd).secno ∧
        (L.getD (k + i) emptyCrd).pos = (L.getD k emptyCrd).pos + i ∧
        (L.getD (k + i) emptyCrd).num = wordnum + i := by
      intro i hi
      obtain ⟨c, hc, hplace, hnum⟩ := h i hi
      obtain rfl := Option.some.inj ((getD_of_lt (hlen i hi)).symm.trans hc)
      simp only [crdPlace, Prod.mk.injEq] at hplace
      exact ⟨hplace.1, hplace.2.1, hplace.2.2, hnum⟩
    refine ⟨by have := hlen (nparts - 1) (by omega); omega, fun i hi => ?_⟩
    obtain ⟨hurl, hsec, hposi, hnumi⟩ := hcrd i hi
    obtain ⟨hurll, hsecl, hposl, hnuml⟩ := hcrd (nparts - 1) (by omega)
    exact ⟨hurl.trans hurll.symm, hsecl.trans hsec.symm, by omega, by omega⟩

theorem OccursFrom.crdPlace_eq (hpos : 0 < nparts) (h : OccursFrom wordnum nparts L p k) :
    L[k]? = some (L.getD k emptyCrd) ∧ crdPlace (L.getD k emptyCrd) = p ∧ (L.getD k emptyCrd).num = wordnum := by
  obtain ⟨c, hc, hplace, hnum⟩ := h 0 hpos
  rw [Nat.add_zero] at hc hplace hnum
  rw [List.getD_eq_getElem?_getD, hc, Option.getD_some]
  exact ⟨rfl, hplace, hnum⟩

/-! ### The result -/

theorem udmURLCRDListMergeMultiWord_eq (hp : PartCoords wordnum nparts L) :
    udmURLCRDListMergeMultiWord L wordnum nparts =
      (placeStarts nparts L).mapIdx fun j k =>
        placeOf wordnum nparts (fun i => L.getD i emptyCrd) k (L.getD j emptyCrd) := by
  have hpos := hp.pos
  rw [udmURLCRDListMergeMultiWord]
  split
  · -- one part: its coords are the places
    obtain rfl : nparts = 1 := by omega
    have hall : placeStarts 1 L = List.range L.length := List.filter_true _
    rw [hall]
    apply List.ext_getElem?
    intro j
    rw [List.getElem?_mapIdx]
    by_cases hj : j < L.length
    · have hnum := hp.num _ (getD_mem hj)
      rw [getD_of_lt hj, List.getElem?_range hj, Option.map_some]
      have hnum : (L.getD j emptyCrd).num = wordnum := by omega
      rw [placeOf, ← hnum]
      rfl
    · rw [List.getElem?_eq_none (by omega), List.getElem?_eq_none (by simp; omega), Option.map_none]
  · split
    · rename_i hlen
      have hnone : placeStarts nparts L = [] := by
        rw [placeStarts, show L.length - (nparts - 1) = 0 by omega]
        rfl
      rw [hnone]
      rfl
    · obtain ⟨hto, -, hdone⟩ := compact_eq (local_matchesAt wordnum nparts) (fun i => L.getD i emptyCrd)
        (L.length - (nparts - 1))
      rw [← placeStarts] at hto hdone
      apply List.ext_getElem?
      intro j
      rw [List.getElem?_mapIdx]
      simp only [hto]
      cases hj : (placeStarts nparts L)[j]? with
      | none =>
        have := List.getElem?_eq_none_iff.mp hj
        rw [List.getElem?_eq_none (by simpa using this), Option.map_none]
      | some k =>
        have hlt := (List.getElem?_eq_some_iff.mp hj).1
        rw [List.getElem?_map, List.getElem?_range hlt, Option.map_some, Option.map_some, hdone j k hj]

theorem crdPlace_placeOf (hp : PartCoords wordnum nparts L) (hk : k ∈ placeStarts nparts L) (To : UdmUrlCrd) :
    crdPlace (placeOf wordnum nparts (fun i => L.getD i emptyCrd) k To) = crdPlace (L.getD k emptyCrd) := by
  have hpos := hp.pos
  obtain ⟨c, hc, hplace, -⟩ := (mem_placeStarts hp).mp hk (nparts - 1) (by omega)
  have hget : L.getD (k + (nparts - 1)) emptyCrd = c := by rw [List.getD_eq_getElem?_getD, hc, Option.getD_some]
  simp only [crdPlace, Prod.mk.injEq] at hplace
  simp only [placeOf, crdPlace, hget, Prod.mk.injEq]
  exact ⟨hplace.1, hplace.2.1, by omega⟩

theorem map_crdPlace_eq (hp : PartCoords wordnum nparts L) :
    (udmURLCRDListMergeMultiWord L wordnum nparts).map crdPlace =
      (placeStarts nparts L).map fun k => crdPlace (L.getD k emptyCrd) := by
  rw [udmURLCRDListMergeMultiWord_eq hp]
  apply List.ext_getElem?
  intro j
  rw [List.getElem?_map, List.getElem?_mapIdx, List.getElem?_map]
  cases hj : (placeStarts nparts L)[j]? with
  | none => rfl
  | some k =>
    rw [Option.map_some, Option.map_some, Option.map_some, crdPlace_placeOf hp (List.mem_of_getElem? hj)]

theorem nodup_places (hp : PartCoords wordnum nparts L) :
    ((placeStarts nparts L).map fun k => crdPlace (L.getD k emptyCrd)).Nodup := by
  have hpos := hp.pos
  refine List.Nodup.map_on (fun k hk k' hk' heq => ?_) (List.nodup_range.filter _)
  obtain ⟨hget, -, hnum⟩ := ((mem_placeStarts hp).mp hk).crdPlace_eq hpos
  obtain ⟨hget', -, hnum'⟩ := ((mem_placeStarts hp).mp hk').crdPlace_eq hpos
  have hlt : k < L.length := (List.getElem?_eq_some_iff.mp hget).1
  refine (List.getElem?_inj (by simpa using hlt) hp.nodup).mp ?_
  simp only [crdPlace, Prod.mk.injEq] at heq
  rw [List.getElem?_map, List.getElem?_map, hget, hget', Option.map_some, Option.map_some, heq.1, heq.2.1, heq.2.2, hnum,
    hnum']

theorem mem_places_iff (hp : PartCoords wordnum nparts L) (p : ℤ × ℕ × ℕ) :
    p ∈ (placeStarts nparts L).map (fun k => crdPlace (L.getD k emptyCrd)) ↔ ∃ k, OccursFrom wordnum nparts L p k := by
  have hpos := hp.pos
  rw [List.mem_map]
  constructor
  · rintro ⟨k, hk, rfl⟩
    exact ⟨k, (mem_placeStarts hp).mp hk⟩
  · rintro ⟨k, hk⟩
    obtain ⟨-, hplace, -⟩ := hk.crdPlace_eq hpos
    exact ⟨k, (mem_placeStarts hp).mpr (hplace.symm ▸ hk), hplace⟩

theorem OccursFrom.occurs (hL : L.Perm coords) (h : OccursFrom wordnum nparts L p k) :
    Occurs wordnum nparts coords p := by
  intro i hi
  obtain ⟨c, hc, hplace, hnum⟩ := h i hi
  exact ⟨c, hL.mem_iff.mp (List.mem_of_getElem? hc), hplace, hnum⟩

theorem seclen_iff (hp : PartCoords wordnum nparts L) (hL : L.Perm coords) :
    (∀ r ∈ udmURLCRDListMergeMultiWord L wordnum nparts, ∀ c ∈ coords, c.urlId = r.urlId → c.secno = r.secno →
      r.seclen = c.seclen) ↔
      ∀ j k, (placeStarts nparts L)[j]? = some k → (L.getD j emptyCrd).seclen = (L.getD k emptyCrd).seclen := by
  have hpos := hp.pos
  have hplaceOf : ∀ {k}, k ∈ placeStarts nparts L → ∀ To,
      (placeOf wordnum nparts (fun i => L.getD i emptyCrd) k To).urlId = (L.getD k emptyCrd).urlId ∧
        (placeOf wordnum nparts (fun i => L.getD i emptyCrd) k To).secno = (L.getD k emptyCrd).secno := by
    intro k hk To
    have hplace := crdPlace_placeOf hp hk To
    simp only [crdPlace, Prod.mk.injEq] at hplace
    exact ⟨hplace.1, hplace.2.1⟩
  have hmem : ∀ {k}, k ∈ placeStarts nparts L → L.getD k emptyCrd ∈ L := fun hk =>
    List.mem_of_getElem? (((mem_placeStarts hp).mp hk).crdPlace_eq hpos).1
  rw [udmURLCRDListMergeMultiWord_eq hp]
  constructor
  · intro h j k hj
    have hk := List.mem_of_getElem? hj
    have hr := List.mem_of_getElem? (l := (placeStarts nparts L).mapIdx fun j k =>
        placeOf wordnum nparts (fun i => L.getD i emptyCrd) k (L.getD j emptyCrd))
      (by rw [List.getElem?_mapIdx, hj, Option.map_some])
    exact h _ hr _ (hL.mem_iff.mp (hmem hk)) (hplaceOf hk _).1.symm (hplaceOf hk _).2.symm
  · intro h r hr c hc hurl hsec
    obtain ⟨j, hj⟩ := List.mem_iff_getElem?.mp hr
    rw [List.getElem?_mapIdx, Option.map_eq_some_iff] at hj
    obtain ⟨k, hjk, rfl⟩ := hj
    have hk := List.mem_of_getElem? hjk
    rw [(hplaceOf hk _).1] at hurl
    rw [(hplaceOf hk _).2] at hsec
    exact (h j k hjk).trans (hp.seclen _ (hmem hk) _ (hL.mem_iff.mpr hc) hurl.symm hsec.symm)

/-- **When the places are right**: if and only if the parts of each place are neighbours in the sorted list, and the
coord that the place is written over, the first of the list for the first place and so on, has the length of its
section. -/
theorem mergeMultiWord_right_iff (S : QSort CrdLe) (hp : PartCoords wordnum nparts coords) :
    RightPlaces wordnum nparts coords (udmMultiWordMergeCoords S coords wordnum nparts) ↔
      (∀ p, Occurs wordnum nparts coords p → ∃ k, OccursFrom wordnum nparts (S.sort coords) p k) ∧
        ∀ j k, (placeStarts nparts (S.sort coords))[j]? = some k →
          ((S.sort coords).getD j emptyCrd).seclen = ((S.sort coords).getD k emptyCrd).seclen := by
  have hL := S.perm coords
  have hpL := hp.perm hL
  rw [RightPlaces, udmMultiWordMergeCoords, map_crdPlace_eq hpL, seclen_iff hpL hL]
  simp only [mem_places_iff hpL]
  constructor
  · rintro ⟨-, hall, hseclen⟩
    exact ⟨fun p h => (hall p).mpr h, hseclen⟩
  · rintro ⟨hall, hseclen⟩
    exact ⟨nodup_places hpL, fun p => ⟨fun ⟨k, hk⟩ => hk.occurs hL, hall p⟩, hseclen⟩

/-- A sorting function. -/
def crdSort : QSort CrdLe := insertionSort CrdLe (fun _ _ _ h h' => le_trans h h') fun _ _ => le_total _ _

/-- The parts of `well-known`: a document with the first part only, in a section of 10 words, and one with both, in a
section of 20. -/
def wellKnown : List UdmUrlCrd := [⟨1, 10, 5, 0, 1⟩, ⟨2, 20, 1, 0, 1⟩, ⟨2, 20, 2, 1, 1⟩]

theorem partCoords_wellKnown : PartCoords 0 2 wellKnown where
  pos := by decide
  num := by decide
  nodup := by decide
  seclen := by decide

theorem mergeMultiWord_right_wellKnown :
    RightPlaces 0 2 wellKnown (udmMultiWordMergeCoords crdSort wellKnown 0 2) ↔
      (∀ p, Occurs 0 2 wellKnown p → ∃ k, OccursFrom 0 2 (crdSort.sort wellKnown) p k) ∧
        ∀ j k, (placeStarts 2 (crdSort.sort wellKnown))[j]? = some k →
          ((crdSort.sort wellKnown).getD j emptyCrd).seclen = ((crdSort.sort wellKnown).getD k emptyCrd).seclen :=
  mergeMultiWord_right_iff crdSort partCoords_wellKnown

/-- The place in the second document gets the length of the section of the first one. -/
theorem not_mergeMultiWord_right : ¬∀ (S : QSort CrdLe) (wordnum nparts : ℕ) (coords : List UdmUrlCrd),
    PartCoords wordnum nparts coords →
      RightPlaces wordnum nparts coords (udmMultiWordMergeCoords S coords wordnum nparts) := by
  intro h
  have hresult : udmMultiWordMergeCoords crdSort wellKnown 0 2 = [⟨2, 10, 1, 0, 1⟩] := by decide
  obtain ⟨-, -, hseclen⟩ := h crdSort 0 2 wellKnown partCoords_wellKnown
  rw [hresult] at hseclen
  have hlen := hseclen ⟨2, 10, 1, 0, 1⟩ List.mem_cons_self ⟨2, 20, 1, 0, 1⟩ (by decide) rfl rfl
  exact absurd hlen (by decide)

end MnoGoSearch.Score
