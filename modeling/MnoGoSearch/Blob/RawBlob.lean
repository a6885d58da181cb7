import MnoGoSearch.Blob.Bdicti
import MnoGoSearch.Score.MultiWord

/-!
# Searching table `bdicti` itself

`UdmFindWordRawBlobInternal` (`dbmode-rawblob.c`) finds a word in the records of `bdicti` that have not been converted.
It goes through a column as the conversion does (`dbmode-blob.c`), with one difference: the number of a section is read
behind its coordinates instead of in front of them. There is always a NUL byte (`rawWords_eq`), and so each coord gets
the section 0, and the section that a search asks for and its weight are those of section 0.

`rawAgrees_iff` says when the raw search finds what a search finds after the conversion: only if neither finds
anything.
-/

namespace MnoGoSearch.Blob

open Lib.PrefixCode Lib.Runs Limits Words Score

/-! ### The source -/

mutual

/-- The loop over the words of a column: the sections that it visits, each with its word, the byte that is taken for
its number and the string of its coordinates. -/
def rawWords (s : List UInt8) : List (CString × UInt8 × CString) :=
  if _hs : s = [] then []
  else
    match _hrest : CString.skip s with
    | [] => []
    | _ :: rest => rawSections (CString.take s) rest
  termination_by s.length
  decreasing_by
    have hlt := CString.length_skip_lt _hs
    rw [_hrest, List.length_cons] at hlt
    omega

/-- The loop over the sections of a word, behind a section number. The byte where the coordinates end is the NUL
behind the value if the column ends there. -/
def rawSections (word : CString) (s : List UInt8) : List (CString × UInt8 × CString) :=
  (word, (s.dropWhile (· ≠ 0)).headD 0, CString.take s) ::
    if _hs : s = [] then []
    else
      match _hrest : CString.skip s with
      | [] => []
      | c :: rest => if c = 0 then rawWords rest else rawSections word rest
  termination_by s.length
  decreasing_by
    all_goals
      have hlt := CString.length_skip_lt _hs
      rw [_hrest, List.length_cons] at hlt
      omega

end

/-- `UdmCoordListMultiUnpack`, behind the coords that are in the list already. Where there are none, and none has been
unpacked, it takes the section length from in front of the list: nothing is said then. -/
def unpackInto (saveSectionSize : Bool) (CoordTemplate : UdmUrlCrd) (CoordList : List UdmUrlCrd)
    (intag : List UInt8) : Option (List UdmUrlCrd) :=
  let crds := (scan udmCoordGet intag.length intag).map fun crd => crd.getD 0
  let Coords := CoordList ++ (sums 0 crds).map fun last => { CoordTemplate with pos := last % 2 ^ 32, seclen := 0 }
  if saveSectionSize then
    Coords.getLast?.map fun Crd =>
      Coords.dropLast.mapIdx fun i C => if i < CoordList.length then C else { C with seclen := Crd.pos }
  else some Coords

/-- `args->Word`: a word that is asked for. -/
structure QueryWord where
  word : CString
  /-- The section to search in; 0 for all. -/
  secno : ℕ
  order : ℕ

section Search

variable (udmStrHash32 : CString → ℕ) (saveSectionSize : Bool) (wf : UInt8 → ℕ) (urls : UdmURLIdList)
  (noindex : UInt8 → Bool) (urlList : List ℤ)

/-- What is done with a section. -/
def rawSection (Word : QueryWord) (urlId : ℤ) (CoordList : List UdmUrlCrd) (r : CString × UInt8 × CString) :
    Option (List UdmUrlCrd) :=
  if (Word.secno = 0 ∨ Word.secno = r.2.1.toNat) ∧ strcmp Word.word r.1 = .eq ∧ wf r.2.1 ≠ 0 then
    unpackInto saveSectionSize ⟨urlId, 0, 0, Word.order, r.2.1.toNat⟩ CoordList r.2.2.val
  else some CoordList

/-- What is done with a row: the column of the word. -/
def rawRow (Word : QueryWord) (CoordList : List UdmUrlCrd) (row : ℤ × List (List UInt8)) : Option (List UdmUrlCrd) :=
  if udmURLIdListAllows urls row.1 then
    (rawWords (row.2.getD (udmStrHash32 Word.word &&& 0x1f) [])).foldlM (rawSection saveSectionSize wf Word row.1)
      CoordList
  else some CoordList

/-- `UdmFindWordRawBlobInternal`: the coords before they are sorted. -/
def udmFindWordRawBlobInternal (rows : List (ℤ × List (List UInt8))) (Word : QueryWord) : Option (List UdmUrlCrd) :=
  if urls.empty then some []
  else rows.foldlM (rawRow udmStrHash32 saveSectionSize wf urls Word) []

/-- The coords of a string of coordinates. -/
def coordsWith (T : UdmUrlCrd) (intag : List UInt8) : List UdmUrlCrd :=
  (udmCoordListMultiUnpack saveSectionSize intag).map fun c => { T with pos := c.1, seclen := c.2 }

/-- The conversion of all columns. -/
def convertedWords (rows : List (ℤ × List (List UInt8))) : List UdmBlobCacheWord :=
  (List.range 32).flatMap fun t =>
    (udmBlob2BlobConvertOneColumn udmStrHash32 noindex urlList (rows.map fun row => (row.1, row.2.getD t []))).map
      Prod.snd

/-- The coords of a converted word, if a search asks for it. -/
def wordCoords (Word : QueryWord) (W : UdmBlobCacheWord) : List UdmUrlCrd :=
  if strcmp Word.word W.word = .eq ∧ (Word.secno = 0 ∨ Word.secno = W.secno.toNat) ∧ wf W.secno ≠ 0 ∧
      udmURLIdListAllows urls W.urlId then
    coordsWith saveSectionSize ⟨W.urlId, 0, 0, Word.order, W.secno.toNat⟩ W.intags
  else []

/-- The search among the converted words: `UdmFindWordBlobFromTable` and `UdmBlobAddCoords` for a full match. -/
def findWordConverted (words : List UdmBlobCacheWord) (Word : QueryWord) : List UdmUrlCrd :=
  if urls.empty then [] else words.flatMap (wordCoords saveSectionSize wf urls Word)

end Search

/-! ### The number of a section -/

/-- **The byte behind the coordinates is NUL.** -/
theorem headD_dropWhile (s : List UInt8) : (s.dropWhile (· ≠ 0)).headD 0 = 0 := by
  induction s with
  | nil => rfl
  | cons c s ih =>
    rw [List.dropWhile_cons]
    split
    · exact ih
    · rename_i hc
      simpa using hc

theorem convertWords_step (s : List UInt8) :
    convertWords s =
      match CString.skip s with
      | [] => []
      | secno :: rest => convertSections (CString.take s) secno rest := by
  rw [convertWords]
  split
  · rename_i hnil
    rw [hnil]
    rfl
  · split <;> rename_i hrest <;> rw [hrest]

theorem convertSections_step (word : CString) (secno : UInt8) (s : List UInt8) :
    convertSections word secno s = (word, secno, CString.take s) ::
      match CString.skip s with
      | [] => []
      | c :: rest => if c = 0 then convertWords rest else convertSections word c rest := by
  rw [convertSections]
  congr 1
  split
  · rename_i hnil
    rw [hnil]
    rfl
  · split <;> rename_i hrest <;> rw [hrest]

theorem rawWords_step (s : List UInt8) :
    rawWords s =
      match CString.skip s with
      | [] => []
      | _ :: rest => rawSections (CString.take s) rest := by
  rw [rawWords]
  split
  · rename_i hnil
    rw [hnil]
    rfl
  · split <;> rename_i hrest <;> rw [hrest]

theorem rawSections_step (word : CString) (s : List UInt8) :
    rawSections word s = (word, 0, CString.take s) ::
      match CString.skip s with
      | [] => []
      | c :: rest => if c = 0 then rawWords rest else rawSections word rest := by
  rw [rawSections, headD_dropWhile]
  congr 1
  split
  · rename_i hnil
    rw [hnil]
    rfl
  · split <;> rename_i hrest <;> rw [hrest]

/-- What the raw search makes of a section. -/
def withoutSecno (r : CString × UInt8 × CString) : CString × UInt8 × CString := (r.1, 0, r.2.2)

theorem rawWords_rawSections_eq (n : ℕ) :
    (∀ s : List UInt8, s.length < n → rawWords s = (convertWords s).map withoutSecno) ∧
      ∀ (word : CString) (secno : UInt8) (s : List UInt8), s.length < n →
        rawSections word s = (convertSections word secno s).map withoutSecno := by
  induction n with
  | zero => exact ⟨fun s hs => absurd hs (Nat.not_lt_zero _), fun _ _ s hs => absurd hs (Nat.not_lt_zero _)⟩
  | succ n ih =>
    obtain ⟨ihwords, ihsections⟩ := ih
    have hrest : ∀ {s rest : List UInt8} {c : UInt8}, s.length < n + 1 → CString.skip s = c :: rest →
        rest.length < n := by
      intro s rest c hs hskip
      have hne : s ≠ [] := by
        rintro rfl
        exact absurd hskip (by simp [CString.skip])
      have hlt := CString.length_skip_lt hne
      rw [hskip, List.length_cons] at hlt
      omega
    constructor
    · intro s hs
      rw [rawWords_step, convertWords_step]
      cases hskip : CString.skip s with
      | nil => rfl
      | cons secno rest => exact ihsections _ secno rest (hrest hs hskip)
    · intro word secno s hs
      rw [rawSections_step, convertSections_step, List.map_cons]
      congr 1
      cases hskip : CString.skip s with
      | nil => rfl
      | cons c rest =>
        simp only
        split
        · exact ihwords rest (hrest hs hskip)
        · exact ihsections word c rest (hrest hs hskip)

/-- **The raw search goes through a column as the conversion does**, whatever its bytes are, and takes 0 for the number
of every section. -/
theorem rawWords_eq (s : List UInt8) : rawWords s = (convertWords s).map withoutSecno :=
  (rawWords_rawSections_eq (s.length + 1)).1 s (Nat.lt_succ_self _)

/-! ### Records -/

/-- A section record of a column: the differences of positions are positive, and can be written. -/
structure SectionRecord where
  word : CString
  secno : UInt8
  /-- The coordinates, with the one of the section length. -/
  coords : List ℕ
  word_ne : word ≠ CString.empty
  /-- Section 0 has no words in the index. -/
  secno_ne : secno ≠ 0
  coords_ne : coords ≠ []
  coords_pos : ∀ c ∈ coords, 0 < c
  coords_valid : ∀ c ∈ coords, CoordValid c

/-- The string of the coordinates. -/
def SectionRecord.intag (r : SectionRecord) : CString :=
  ⟨r.coords.flatMap udmCoordPut, zero_notMem_flatMap r.coords_pos⟩

/-- A column of section records. -/
def columnBytes (rs : List SectionRecord) : List UInt8 :=
  groupBytes CString.empty (rs.map fun r => (r.word, r.secno, r.intag.val))

theorem convertWords_columnBytes (rs : List SectionRecord) :
    convertWords (columnBytes rs) = rs.map fun r => (r.word, r.secno, r.intag) := by
  have hread : ∀ rs : List SectionRecord, readGroups (rs.map fun r => (r.word, r.secno, r.intag.val)) =
      rs.map fun r => (r.word, r.secno, r.intag) := by
    intro rs
    induction rs with
    | nil => rfl
    | cons r rs ih =>
      have hsec : ∀ g ∈ rs.map fun r => ((r.word, r.secno, r.intag.val) : Group), g.2.1 ≠ 0 := by
        intro g hg
        obtain ⟨V, -, rfl⟩ := List.mem_map.mp hg
        exact V.secno_ne
      rw [List.map_cons, readGroups_cons_of_notMem r.word_ne hsec, ih, List.map_cons]
  rw [columnBytes, convertWords_eq_readGroups, hread]
  intro g hg
  obtain ⟨r, -, rfl⟩ := List.mem_map.mp hg
  exact r.word_ne

/-- A record of `bdicti`: a document with its columns. -/
structure BdictiRecord where
  urlId : ℤ
  columns : List (List SectionRecord)

/-- The row of the table. -/
def BdictiRecord.row (d : BdictiRecord) : ℤ × List (List UInt8) := (d.urlId, d.columns.map columnBytes)

/-- A record as `UdmStoreWordsBlob` makes it, of a document that is converted. -/
structure BdictiRecord.Stored (udmStrHash32 : CString → ℕ) (urlList : List ℤ) (d : BdictiRecord) : Prop where
  /-- Documents have positive numbers. -/
  urlId_ne : d.urlId ≠ 0
  /-- The conversion takes the document. -/
  found : udmURLDataListSearch urlList d.urlId = true
  length : d.columns.length = 32
  /-- A word goes to the column of its hash. -/
  placed : ∀ t rs, d.columns[t]? = some rs → ∀ r ∈ rs, udmStrHash32 r.word &&& 0x1f = t

/-! ### Coords -/

section Search

variable {udmStrHash32 : CString → ℕ} {saveSectionSize : Bool} {wf : UInt8 → ℕ} {urls : UdmURLIdList}
  {noindex : UInt8 → Bool} {urlList : List ℤ}

theorem sums_ne_nil {p : ℕ} {l : List ℕ} (h : l ≠ []) : sums p l ≠ [] := by
  cases l with
  | nil => exact absurd rfl h
  | cons d l => exact List.cons_ne_nil _ _

theorem mapIdx_append_ite {α : Type} (l l' : List α) (f : α → α) :
    ((l ++ l').mapIdx fun i C => if i < l.length then C else f C) = l ++ l'.map f := by
  apply List.ext_getElem?
  intro i
  rw [List.getElem?_mapIdx]
  rcases Nat.lt_or_ge i l.length with h | h
  · rw [List.getElem?_append_left h, List.getElem?_append_left h]
    simp [h]
  · rw [List.getElem?_append_right h, List.getElem?_append_right h, List.getElem?_map]
    simp [Nat.not_lt.mpr h]

theorem unpackInto_flatMap {coords : List ℕ} (hcoords : coords ≠ []) (hvalid : ∀ c ∈ coords, CoordValid c)
    (T : UdmUrlCrd) (CoordList : List UdmUrlCrd) :
    unpackInto saveSectionSize T CoordList (coords.flatMap udmCoordPut) =
      some (CoordList ++ coordsWith saveSectionSize T (coords.flatMap udmCoordPut)) := by
  have hwith : coordsWith saveSectionSize T (coords.flatMap udmCoordPut) = _ :=
    congrArg (List.map fun c : ℕ × ℕ => ({ T with pos := c.1, seclen := c.2 } : UdmUrlCrd))
      (udmCoordListMultiUnpack_flatMap saveSectionSize hvalid)
  have hne := @sums_ne_nil 0 _ hcoords
  rw [hwith]
  unfold unpackInto
  simp only [scan_udmCoordGet hvalid, List.map_map, Function.comp_def, Option.getD_some, List.map_id']
  cases saveSectionSize with
  | false => simp
  | true =>
    obtain ⟨P, x, hP⟩ : ∃ P x, sums 0 coords = P ++ [x] :=
      ⟨_, _, (List.dropLast_append_getLast hne).symm⟩
    simp only [if_true, hP, List.map_append, List.map_cons, List.map_nil, ← List.append_assoc,
      List.getLast?_concat, List.dropLast_concat, Option.map_some, List.getLastD_concat]
    rw [mapIdx_append_ite]
    simp

theorem unpackInto_intag (r : SectionRecord) (T : UdmUrlCrd) (CoordList : List UdmUrlCrd) :
    unpackInto saveSectionSize T CoordList r.intag.val =
      some (CoordList ++ coordsWith saveSectionSize T r.intag.val) :=
  unpackInto_flatMap r.coords_ne r.coords_valid T CoordList

theorem coordsWith_eq_nil_iff (r : SectionRecord) (T : UdmUrlCrd) :
    coordsWith saveSectionSize T r.intag.val = [] ↔ saveSectionSize = true ∧ r.coords.length = 1 := by
  have hlen := List.length_pos_iff.mpr r.coords_ne
  have hunpack : udmCoordListMultiUnpack saveSectionSize r.intag.val = _ :=
    udmCoordListMultiUnpack_flatMap saveSectionSize r.coords_valid
  rw [coordsWith, hunpack, ← List.length_eq_zero_iff]
  cases saveSectionSize with
  | false => simp [r.coords_ne]
  | true =>
    simp only [if_true, List.length_map, List.length_dropLast, length_sums, true_and]
    omega

/-! ### What the searches find -/

theorem foldlM_append {α β : Type} {f : List β → α → Option (List β)} {g : α → List β} {l : List α}
    (h : ∀ a ∈ l, ∀ acc, f acc a = some (acc ++ g a)) (acc : List β) : l.foldlM f acc = some (acc ++ l.flatMap g) := by
  induction l generalizing acc with
  | nil => rw [List.flatMap_nil, List.append_nil]; rfl
  | cons a l ih =>
    obtain ⟨ha, hl⟩ := List.forall_mem_cons.mp h
    rw [List.foldlM_cons, ha, Option.bind_eq_bind, Option.bind_some, ih hl, List.flatMap_cons, List.append_assoc]

/-- The raw search looks for this word, and gives it section 0. -/
def RawWanted (wf : UInt8 → ℕ) (Word : QueryWord) (r : SectionRecord) : Prop :=
  Word.secno = 0 ∧ Word.word = r.word ∧ wf 0 ≠ 0

/-- A search after the conversion looks for this word in this section. -/
def ConvertedWanted (wf : UInt8 → ℕ) (noindex : UInt8 → Bool) (Word : QueryWord) (r : SectionRecord) : Prop :=
  noindex r.secno = false ∧ Word.word = r.word ∧ (Word.secno = 0 ∨ Word.secno = r.secno.toNat) ∧ wf r.secno ≠ 0

instance (Word : QueryWord) (r : SectionRecord) : Decidable (RawWanted wf Word r) :=
  inferInstanceAs (Decidable (_ ∧ _ ∧ _))

instance (Word : QueryWord) (r : SectionRecord) : Decidable (ConvertedWanted wf noindex Word r) :=
  inferInstanceAs (Decidable (_ ∧ _ ∧ _ ∧ _))

/-- The column of a word. -/
def BdictiRecord.column (d : BdictiRecord) (t : ℕ) : List SectionRecord := d.columns.getD t []

theorem BdictiRecord.row_getD (d : BdictiRecord) (t : ℕ) : d.row.2.getD t [] = columnBytes (d.column t) := by
  exact @List.getD_map _ _ d.columns [] t columnBytes

/-- What the raw search finds. -/
def rawFound (udmStrHash32 : CString → ℕ) (saveSectionSize : Bool) (wf : UInt8 → ℕ) (urls : UdmURLIdList)
    (docs : List BdictiRecord) (Word : QueryWord) : List UdmUrlCrd :=
  docs.flatMap fun d =>
    (d.column (udmStrHash32 Word.word &&& 0x1f)).flatMap fun r =>
      if udmURLIdListAllows urls d.urlId ∧ RawWanted wf Word r then
        coordsWith saveSectionSize ⟨d.urlId, 0, 0, Word.order, 0⟩ r.intag.val
      else []

theorem udmFindWordRawBlobInternal_rows (hurls : urls.empty = false) (docs : List BdictiRecord) (Word : QueryWord) :
    udmFindWordRawBlobInternal udmStrHash32 saveSectionSize wf urls (docs.map BdictiRecord.row) Word =
      some (rawFound udmStrHash32 saveSectionSize wf urls docs Word) := by
  rw [udmFindWordRawBlobInternal, hurls, if_neg Bool.false_ne_true, List.foldlM_map]
  refine foldlM_append (fun d _ acc => ?_) []
  rw [rawRow, show d.row.1 = d.urlId from rfl]
  by_cases hallows : udmURLIdListAllows urls d.urlId = true
  · rw [if_pos hallows, BdictiRecord.row_getD, rawWords_eq, convertWords_columnBytes, List.map_map, List.foldlM_map]
    refine foldlM_append (fun r _ acc => ?_) acc
    have hiff : ((Word.secno = 0 ∨ Word.secno = (0 : UInt8).toNat) ∧ strcmp Word.word r.word = .eq ∧ wf 0 ≠ 0) ↔
        RawWanted wf Word r := by
      rw [strcmp_eq_eq, RawWanted, UInt8.toNat_zero, or_self]
    by_cases h : RawWanted wf Word r
    · rw [if_pos ⟨hallows, h⟩, ← unpackInto_intag]
      exact if_pos (hiff.mpr h)
    · rw [if_neg (fun hand => h hand.2), List.append_nil]
      exact if_neg (mt hiff.mp h)
  · rw [if_neg hallows]
    simp [hallows]

/-- What a search after the conversion finds. -/
def convertedFound (saveSectionSize : Bool) (wf : UInt8 → ℕ) (urls : UdmURLIdList) (noindex : UInt8 → Bool)
    (docs : List BdictiRecord) (Word : QueryWord) : List UdmUrlCrd :=
  (List.range 32).flatMap fun t => docs.flatMap fun d => (d.column t).flatMap fun r =>
    if udmURLIdListAllows urls d.urlId ∧ ConvertedWanted wf noindex Word r then
      coordsWith saveSectionSize ⟨d.urlId, 0, 0, Word.order, r.secno.toNat⟩ r.intag.val
    else []

theorem wordCoords_add (d : BdictiRecord) (hd : d.Stored udmStrHash32 urlList) (Word : QueryWord) (r : SectionRecord) :
    (udmBlobCacheAdd2 d.urlId r.secno r.word (udmCoordLen r.intag.val) r.intag.val).flatMap
        (wordCoords saveSectionSize wf urls Word) =
      if udmURLIdListAllows urls d.urlId ∧ Word.word = r.word ∧ (Word.secno = 0 ∨ Word.secno = r.secno.toNat) ∧
          wf r.secno ≠ 0 then
        coordsWith saveSectionSize ⟨d.urlId, 0, 0, Word.order, r.secno.toNat⟩ r.intag.val
      else [] := by
  have hlen : udmCoordLen r.intag.val = r.coords.length := udmCoordLen_flatMap r.coords_valid
  have hne : r.coords.length ≠ 0 := mt List.length_eq_zero_iff.mp r.coords_ne
  have hadd : ¬(d.urlId = 0 ∨ r.secno = 0 ∨ udmCoordLen r.intag.val = 0) := by
    rw [hlen]
    exact not_or.mpr ⟨hd.urlId_ne, not_or.mpr ⟨r.secno_ne, hne⟩⟩
  rw [udmBlobCacheAdd2, if_neg hadd, List.flatMap_singleton, wordCoords]
  simp only [strcmp_eq_eq]
  congr 1
  rw [eq_iff_iff]
  tauto

theorem findWordConverted_rows (hurls : urls.empty = false) {docs : List BdictiRecord}
    (hdocs : ∀ d ∈ docs, d.Stored udmStrHash32 urlList) (Word : QueryWord) :
    findWordConverted saveSectionSize wf urls
        (convertedWords udmStrHash32 noindex urlList (docs.map BdictiRecord.row)) Word =
      convertedFound saveSectionSize wf urls noindex docs Word := by
  rw [findWordConverted, hurls, if_neg Bool.false_ne_true, convertedWords, convertedFound, List.flatMap_assoc]
  refine List.flatMap_congr fun t _ => ?_
  rw [udmBlob2BlobConvertOneColumn, List.map_map, List.flatMap_map, List.flatMap_map, List.flatMap_assoc]
  refine List.flatMap_congr fun d hd => ?_
  have hfound : udmURLDataListSearch urlList d.row.1 = true := (hdocs d hd).found
  simp only [Function.comp, hfound, Bool.not_true, Bool.false_eq_true, if_false, BdictiRecord.row_getD,
    convertWords_columnBytes, List.flatMap_map, List.flatMap_assoc]
  refine List.flatMap_congr fun r _ => ?_
  by_cases hindex : noindex r.secno = true
  · have hnot : ¬ConvertedWanted wf noindex Word r := fun h => absurd (h.1.symm.trans hindex) (by decide)
    rw [if_pos hindex, if_neg (fun hand => hnot hand.2)]
    rfl
  · rw [if_neg hindex, List.flatMap_map]
    have hindex' : noindex r.secno = false := Bool.eq_false_iff.mpr hindex
    refine (wordCoords_add d (hdocs d hd) Word r).trans ?_
    simp only [ConvertedWanted, hindex', true_and]

/-- All section records of a document. -/
def BdictiRecord.records (d : BdictiRecord) : List SectionRecord := d.columns.flatten

theorem BdictiRecord.mem_records_of_mem_column {d : BdictiRecord} {t : ℕ} {r : SectionRecord} (h : r ∈ d.column t) :
    r ∈ d.records := by
  rw [column, List.getD_eq_getElem?_getD] at h
  cases ht : d.columns[t]? with
  | none =>
    rw [ht] at h
    exact absurd h List.not_mem_nil
  | some rs =>
    rw [ht] at h
    exact List.mem_flatten.mpr ⟨rs, List.mem_of_getElem? ht, h⟩

theorem BdictiRecord.Stored.mem_column {d : BdictiRecord} (hd : d.Stored udmStrHash32 urlList) {r : SectionRecord}
    (h : r ∈ d.records) : udmStrHash32 r.word &&& 0x1f < 32 ∧ r ∈ d.column (udmStrHash32 r.word &&& 0x1f) := by
  obtain ⟨rs, hrs, hr⟩ := List.mem_flatten.mp h
  obtain ⟨t, ht⟩ := List.mem_iff_getElem?.mp hrs
  have hlt := (List.getElem?_eq_some_iff.mp ht).1
  rw [hd.placed t rs ht r hr, BdictiRecord.column, List.getD_eq_getElem?_getD, ht]
  exact ⟨hd.length ▸ hlt, hr⟩

/-- Something is unpacked: with `SaveSectionSize` the last coordinate is the section length. -/
def SectionRecord.HasCoords (saveSectionSize : Bool) (r : SectionRecord) : Prop :=
  saveSectionSize = true → r.coords.length ≠ 1

theorem SectionRecord.coordsWith_eq_nil_iff (r : SectionRecord) (T : UdmUrlCrd) :
    coordsWith saveSectionSize T r.intag.val = [] ↔ ¬r.HasCoords saveSectionSize := by
  rw [Blob.coordsWith_eq_nil_iff, HasCoords]
  tauto

theorem rawFound_eq_nil_iff {docs : List BdictiRecord} (hdocs : ∀ d ∈ docs, d.Stored udmStrHash32 urlList)
    (Word : QueryWord) :
    rawFound udmStrHash32 saveSectionSize wf urls docs Word = [] ↔
      ∀ d ∈ docs, udmURLIdListAllows urls d.urlId = true → ∀ r ∈ d.records, r.HasCoords saveSectionSize →
        ¬RawWanted wf Word r := by
  rw [rawFound, List.flatMap_eq_nil_iff]
  refine forall₂_congr fun d hd => ?_
  rw [List.flatMap_eq_nil_iff]
  constructor
  · intro h hallows r hr hcoords hwanted
    have hcol := ((hdocs d hd).mem_column hr).2
    rw [← hwanted.2.1] at hcol
    have hnil := h r hcol
    rw [if_pos ⟨hallows, hwanted⟩, r.coordsWith_eq_nil_iff] at hnil
    exact hnil hcoords
  · intro h r hr
    split
    · rename_i hand
      rw [r.coordsWith_eq_nil_iff]
      exact fun hcoords => h hand.1 r (d.mem_records_of_mem_column hr) hcoords hand.2
    · rfl

theorem convertedFound_eq_nil_iff {docs : List BdictiRecord} (hdocs : ∀ d ∈ docs, d.Stored udmStrHash32 urlList)
    (Word : QueryWord) :
    convertedFound saveSectionSize wf urls noindex docs Word = [] ↔
      ∀ d ∈ docs, udmURLIdListAllows urls d.urlId = true → ∀ r ∈ d.records, r.HasCoords saveSectionSize →
        ¬ConvertedWanted wf noindex Word r := by
  rw [convertedFound, List.flatMap_eq_nil_iff]
  constructor
  · intro h d hd hallows r hr hcoords hwanted
    obtain ⟨hlt, hcol⟩ := (hdocs d hd).mem_column hr
    have hnil := List.flatMap_eq_nil_iff.mp (List.flatMap_eq_nil_iff.mp (h _ (List.mem_range.mpr hlt)) d hd) r hcol
    rw [if_pos ⟨hallows, hwanted⟩, r.coordsWith_eq_nil_iff] at hnil
    exact hnil hcoords
  · intro h t _
    refine List.flatMap_eq_nil_iff.mpr fun d hd => List.flatMap_eq_nil_iff.mpr fun r hr => ?_
    split
    · rename_i hand
      rw [r.coordsWith_eq_nil_iff]
      exact fun hcoords => h d hd hand.1 r (d.mem_records_of_mem_column hr) hcoords hand.2
    · rfl

theorem secno_of_mem_coordsWith {T c : UdmUrlCrd} {intag : List UInt8} (h : c ∈ coordsWith saveSectionSize T intag) :
    c.secno = T.secno := by
  obtain ⟨p, -, rfl⟩ := List.mem_map.mp h
  rfl

theorem secno_of_mem_rawFound {docs : List BdictiRecord} {Word : QueryWord} {c : UdmUrlCrd}
    (h : c ∈ rawFound udmStrHash32 saveSectionSize wf urls docs Word) : c.secno = 0 := by
  obtain ⟨d, -, hd⟩ := List.mem_flatMap.mp h
  obtain ⟨r, -, hr⟩ := List.mem_flatMap.mp hd
  split at hr
  · exact secno_of_mem_coordsWith hr
  · exact absurd hr List.not_mem_nil

theorem secno_of_mem_convertedFound {docs : List BdictiRecord} {Word : QueryWord} {c : UdmUrlCrd}
    (h : c ∈ convertedFound saveSectionSize wf urls noindex docs Word) : c.secno ≠ 0 := by
  obtain ⟨t, -, ht⟩ := List.mem_flatMap.mp h
  obtain ⟨d, -, hd⟩ := List.mem_flatMap.mp ht
  obtain ⟨r, -, hr⟩ := List.mem_flatMap.mp hd
  split at hr
  · rw [secno_of_mem_coordsWith hr]
    exact fun h0 => r.secno_ne (UInt8.toNat_inj.mp h0)
  · exact absurd hr List.not_mem_nil

end Search

/-- The raw search finds for the words of a query what a search finds after the conversion, each coord as often. -/
def RawAgrees (udmStrHash32 : CString → ℕ) (saveSectionSize : Bool) (wf : UInt8 → ℕ) (urls : UdmURLIdList)
    (noindex : UInt8 → Bool) (urlList : List ℤ) (docs : List BdictiRecord) (query : List QueryWord) : Prop :=
  let rows := docs.map BdictiRecord.row
  ∃ found : QueryWord → List UdmUrlCrd,
    (∀ Word ∈ query, udmFindWordRawBlobInternal udmStrHash32 saveSectionSize wf urls rows Word = some (found Word)) ∧
      (query.flatMap found).Perm
        (query.flatMap (findWordConverted saveSectionSize wf urls (convertedWords udmStrHash32 noindex urlList rows)))

/-- **When the searches agree**: only if neither finds anything. -/
theorem rawAgrees_iff {udmStrHash32 : CString → ℕ} {saveSectionSize : Bool} {wf : UInt8 → ℕ} {urls : UdmURLIdList}
    {noindex : UInt8 → Bool} {urlList : List ℤ} {docs : List BdictiRecord}
    (hdocs : ∀ d ∈ docs, d.Stored udmStrHash32 urlList) (query : List QueryWord) :
    RawAgrees udmStrHash32 saveSectionSize wf urls noindex urlList docs query ↔
      (urls.empty = false → ∀ Word ∈ query, ∀ d ∈ docs, udmURLIdListAllows urls d.urlId = true →
        ∀ r ∈ d.records, r.HasCoords saveSectionSize → ¬RawWanted wf Word r ∧ ¬ConvertedWanted wf noindex Word r) := by
  unfold RawAgrees
  cases hurls : urls.empty with
  | true =>
    simp only [Bool.true_eq_false, false_implies, iff_true]
    refine ⟨fun _ => [], fun Word _ => by rw [udmFindWordRawBlobInternal, if_pos hurls], ?_⟩
    have hnil : ∀ words, findWordConverted saveSectionSize wf urls words = fun _ => [] := fun words =>
      funext fun Word => by rw [findWordConverted, if_pos hurls]
    rw [hnil]
  | false =>
    simp only [true_implies]
    have hraw := fun Word => @udmFindWordRawBlobInternal_rows udmStrHash32 saveSectionSize wf urls hurls docs Word
    have hconv := funext fun Word =>
      @findWordConverted_rows udmStrHash32 saveSectionSize wf urls noindex urlList hurls docs hdocs Word
    simp only [hraw]
    rw [hconv]
    constructor
    · rintro ⟨found, hfound, hperm⟩
      have hzero : ∀ c ∈ query.flatMap found, c.secno = 0 := by
        intro c hc
        obtain ⟨Word, hWord, hmem⟩ := List.mem_flatMap.mp hc
        rw [← Option.some.inj (hfound Word hWord)] at hmem
        exact secno_of_mem_rawFound hmem
      have hnonzero : ∀ c ∈ query.flatMap found, c.secno ≠ 0 := by
        intro c hc
        obtain ⟨Word, -, hmem⟩ := List.mem_flatMap.mp (hperm.mem_iff.mp hc)
        exact secno_of_mem_convertedFound hmem
      have hnil : query.flatMap found = [] :=
        List.eq_nil_iff_forall_not_mem.mpr fun c hc => hnonzero c hc (hzero c hc)
      rw [hnil, List.nil_perm, List.flatMap_eq_nil_iff] at hperm
      intro Word hWord d hd hallows r hr hcoords
      have hrawnil := List.flatMap_eq_nil_iff.mp hnil Word hWord
      rw [← Option.some.inj (hfound Word hWord)] at hrawnil
      exact ⟨(rawFound_eq_nil_iff hdocs Word).mp hrawnil d hd hallows r hr hcoords,
        (convertedFound_eq_nil_iff hdocs Word).mp (hperm Word hWord) d hd hallows r hr hcoords⟩
    · intro h
      refine ⟨_, fun Word _ => rfl, ?_⟩
      have hrawnil : query.flatMap (rawFound udmStrHash32 saveSectionSize wf urls docs) = [] :=
        List.flatMap_eq_nil_iff.mpr fun Word hWord =>
          (rawFound_eq_nil_iff hdocs Word).mpr fun d hd hallows r hr hcoords =>
            (h Word hWord d hd hallows r hr hcoords).1
      have hconvnil : query.flatMap (convertedFound saveSectionSize wf urls noindex docs) = [] :=
        List.flatMap_eq_nil_iff.mpr fun Word hWord =>
          (convertedFound_eq_nil_iff hdocs Word).mpr fun d hd hallows r hr hcoords =>
            (h Word hWord d hd hallows r hr hcoords).2
      rw [hrawnil, hconvnil]

/-- The word `a` once in section 1, and the section ends there. -/
def recordA : SectionRecord :=
  ⟨wordA, 1, [1, 1], by simp [wordA, CString.empty], by decide, by decide, by decide,
    by simp [CoordValid]⟩

/-- A document with this word. -/
def docA : BdictiRecord := ⟨7, [recordA] :: List.replicate 31 []⟩

theorem stored_docA : docA.Stored (fun _ => 0) [7] := by
  refine ⟨by decide, by decide, rfl, fun t rs ht r hr => ?_⟩
  cases t with
  | zero => rfl
  | succ t =>
    have hrs := List.mem_of_getElem? (l := List.replicate 31 ([] : List SectionRecord)) ht
    rw [List.eq_of_mem_replicate hrs] at hr
    exact absurd hr List.not_mem_nil

/-- No limit. -/
def noUrls : UdmURLIdList := { empty := false, exclude := false, urls := [] }

/-- The word is not found with a section in the raw search, and so the searches do not agree about this document. -/
theorem rawAgrees_iff_docA :
    RawAgrees (fun _ => 0) true (fun _ => 1) noUrls (fun _ => false) [7] [docA] [⟨wordA, 0, 1⟩] ↔
      (noUrls.empty = false → ∀ Word ∈ [(⟨wordA, 0, 1⟩ : QueryWord)], ∀ d ∈ [docA],
        udmURLIdListAllows noUrls d.urlId = true → ∀ r ∈ d.records, r.HasCoords true →
          ¬RawWanted (fun _ => 1) Word r ∧ ¬ConvertedWanted (fun _ => 1) (fun _ => false) Word r) :=
  rawAgrees_iff (by simpa using stored_docA) [⟨wordA, 0, 1⟩]

/-- The searches do not always agree. -/
theorem not_forall_rawAgrees :
    ¬∀ (udmStrHash32 : CString → ℕ) (saveSectionSize : Bool) (wf : UInt8 → ℕ) (urls : UdmURLIdList)
        (noindex : UInt8 → Bool) (urlList : List ℤ) (docs : List BdictiRecord) (query : List QueryWord),
      (∀ d ∈ docs, d.Stored udmStrHash32 urlList) →
        RawAgrees udmStrHash32 saveSectionSize wf urls noindex urlList docs query := by
  intro h
  have hdocs : ∀ d ∈ [docA], d.Stored (fun _ => 0) [7] := by simpa using stored_docA
  obtain ⟨found, hfound, hperm⟩ := h (fun _ => 0) true (fun _ => 1) noUrls (fun _ => false) [7] [docA]
    [⟨wordA, 0, 1⟩] hdocs
  have hraw := hfound ⟨wordA, 0, 1⟩ (by simp)
  rw [udmFindWordRawBlobInternal_rows rfl, Option.some.injEq] at hraw
  -- the coord at position 1 in section 0, with the length 2
  have hmem : (⟨7, 2, 1, 1, 0⟩ : UdmUrlCrd) ∈ found ⟨wordA, 0, 1⟩ := by
    rw [← hraw]
    decide +kernel
  obtain ⟨Word, -, hconv⟩ := List.mem_flatMap.mp (hperm.mem_iff.mp (List.mem_flatMap.mpr ⟨_, by simp, hmem⟩))
  rw [findWordConverted_rows rfl hdocs] at hconv
  exact secno_of_mem_convertedFound hconv rfl

end MnoGoSearch.Blob
