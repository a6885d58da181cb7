import MnoGoSearch.Blob.Bdicti
import MnoGoSearch.Blob.UnpackRecords
import MnoGoSearch.Lib.SortProcedure
import Mathlib.Data.List.Induction

/-!
# Converting to the new searching table

`UdmBlob2BlobV2ConvertWords` (`dbmode-blob.c`) converts the rows of table `bdicti`. The coordinates of a word go to the
caches as they are, or as a summary if they are many; besides, the words of each section are laid out by their
positions in a table, and the pairs of words that stand close to each other go to the caches also. The table is used
again for the next row, after `UdmWordListListReset` (`word.c`), which resets the sections 0 to 254: section 255 is left
as it is.

`rowLocal` says that the postings of a row do not depend on the rows before it, as long as none of those has words in
section 255.
-/

namespace MnoGoSearch.Blob

open Lib.Sorting Words

/-! ## The source -/

/-- `UDM_WORDPAIR_PARAM`. -/
structure UdmWordpairParam where
  /-- The greatest distance of two words, if one of them is rare. -/
  maxdist : ℕ
  /-- The greatest distance of two frequent words. -/
  maxdistOften : ℕ
  /-- A word with so many coordinates is frequent. -/
  ncoordslimit : ℕ
  mode : ℤ

/-- What does not change during the conversion. -/
structure ConvertArgs where
  udmStrHash32 : CString → ℕ
  udmCRC32UpdateStr : ℕ → CString → ℕ
  udmSort : SortProc
  /-- The sections that go to `bdicti` only. -/
  noindex : UInt8 → Bool
  /-- The documents that are converted. -/
  urlList : List ℤ
  /-- The parameters of the pairs. -/
  prm : UdmWordpairParam

/-- A posting, and the number of the cache it is added to. -/
abbrev CacheAdd := ℕ × UdmBlobCacheWord

/-- `UdmBlobCacheAdd`, to the cache of the word. -/
def udmBlobCacheAdd (c : ConvertArgs) (urlId : ℤ) (secno : UInt8) (word : CString) (nintags : ℕ) (intag : List UInt8) :
    List CacheAdd :=
  (udmBlobCacheAdd2 urlId secno word nintags intag).map fun w => (c.udmStrHash32 word >>> 8 &&& 0xff, w)

/-! ### The table of words -/

/-- `UDM_WORD` in the table, where it has a word. -/
structure TableWord where
  word : CString
  /-- The first position of the word. -/
  pos : ℕ
  secno : UInt8
  /-- The number of the coordinates of the word, at most 255. -/
  hash : ℕ

/-- `UDM_WORDLIST`. An element whose pointer `word` is `NULL` is nothing. -/
structure UdmWordList where
  /-- The number of elements in use. -/
  nwords : ℕ
  /-- The elements by position. -/
  Word : ℕ → Option TableWord

/-- A list without words. -/
def UdmWordList.init : UdmWordList := ⟨0, fun _ => none⟩

/-- `UDM_WORDLISTLIST`: a list for each section. -/
abbrev UdmWordListList := UInt8 → UdmWordList

/-- `UdmWordListAddAtPosition`. -/
def udmWordListAddAtPosition (WL : UdmWordList) (pos : ℕ) (W : TableWord) : UdmWordList :=
  ⟨max WL.nwords (pos + 1), fun i => if i = pos then some W else WL.Word i⟩

/-- `UdmWordListReset`: the words are freed. -/
def udmWordListReset (WL : UdmWordList) : UdmWordList :=
  ⟨0, fun i => if i < WL.nwords then none else WL.Word i⟩

/-- `UdmWordListListReset`. -/
def udmWordListListReset (WLL : UdmWordListList) : UdmWordListList := fun i =>
  if i.toNat < 255 then udmWordListReset (WLL i) else WLL i

/-! ### The words of a row -/

/-- `udm_coord_statistics`: the length of the coordinates, and how many they are. The value `crd` is assigned when a
number has been scanned; a comparison of it before that is not defined. -/
def udmCoordStatistics : ℕ → Option ℕ → List UInt8 → Option (ℕ × ℕ)
  | 0, _, _ => some (0, 0)
  | fuel + 1, crd, s =>
    match udmCoordGet s with
    | none => some (0, 0)
    | some (v, tmp) =>
      match v.or crd with
      | none => none
      | some 0 => some (0, 0)
      | some (crd + 1) => (udmCoordStatistics fuel (some (crd + 1)) (s.drop tmp)).map fun r => (r.1 + tmp, r.2 + 1)

/-- An occurrence list in a column: the word, the section, and the rest of the column from the coordinates on, with the
length and the number of the coordinates. -/
structure SectionEntry where
  word : CString
  secno : UInt8
  s : List UInt8
  coordLen : ℕ
  ncoords : ℕ

/-- The loops over the words of a column and over the sections of a word, of which `word` is the one that is being
read. -/
def sectionEntries : ℕ → Option CString → List UInt8 → Option (List SectionEntry)
  | 0, _, _ => some []
  | fuel + 1, none, s =>
    match CString.skip s with
    | [] => some []
    | rest => sectionEntries fuel (some (CString.take s)) rest
  | _ + 1, some _, [] => some []
  | fuel + 1, some word, secno :: s =>
    (udmCoordStatistics s.length none s).bind fun (coordLen, ncoords) =>
      -- the byte at the end of the section is skipped, whatever it is; a NUL byte after it ends the word
      (match s.drop (coordLen + 1) with
        | [] => some []
        | c :: rest => if c = 0 then sectionEntries fuel none rest else sectionEntries fuel (some word) (c :: rest)).map
        fun more => ⟨word, secno, s, coordLen, ncoords⟩ :: more

/-- `UDM_WORD_STAT`, and where `UdmBlobCoordsToWordList` is. -/
structure UdmWordStat where
  minpos : ℕ
  maxpos : ℕ
  seclen : ℕ
  ncoords : ℕ
  pos : ℕ

/-- The loop of `UdmBlobCoordsToWordList`. The position of the iteration before is put into the list, so that the
length of the section is not. A number that is not assigned, and a failed assertion, leave nothing. -/
def coordsToWordList (word : CString) (secno : UInt8) (hash : ℕ) :
    ℕ → List UInt8 → UdmWordStat → UdmWordList → Option (UdmWordStat × UdmWordList)
  | 0, _, st, WL => some (st, WL)
  | fuel + 1, s, st, WL =>
    if s.headD 0 = 0 then some (st, WL)
    else
      match udmCoordGet s with
      | none => some (st, WL)
      | some (none, _) => none
      | some (some delta, nbytes) =>
        let st := if st.ncoords = 0 then { st with minpos := delta, maxpos := delta, seclen := delta } else st
        if st.ncoords ≠ 0 ∧ st.pos = 0 then none
        else
          let WL := if st.ncoords = 0 then WL else udmWordListAddAtPosition WL st.pos ⟨word, st.minpos, secno, hash⟩
          let pos := st.pos + delta
          coordsToWordList word secno hash fuel (s.drop nbytes)
            { st with pos := pos, maxpos := st.seclen, seclen := pos % 2 ^ 32, ncoords := st.ncoords + 1 } WL

/-- `UdmBlobCoordsToWordList`. The marker of the section length is not counted. -/
def udmBlobCoordsToWordList (WL : UdmWordList) (e : SectionEntry) : Option (UdmWordStat × UdmWordList) :=
  (coordsToWordList e.word e.secno (min e.ncoords 255) e.s.length e.s ⟨0, 0, 0, 0, 0⟩ WL).map fun r =>
    ({ r.1 with ncoords := r.1.ncoords - 1 }, r.2)

/-- The difference of two numbers of 32 bits. -/
def sub32 (a b : ℕ) : ℕ := (a + 2 ^ 32 - b) % 2 ^ 32

/-- `UdmBlobPackWordStat`: the bytes, and the number of values for the cache. Nothing, if there are no coordinates to
divide by, or the assertion fails. -/
def udmBlobPackWordStat (st : UdmWordStat) : Option (List UInt8 × ℕ) :=
  if st.ncoords = 0 then none
  else if st.seclen / st.ncoords < 256 then some (udmCoordPut (st.seclen / st.ncoords), 1)
  else
    let values :=
      if st.ncoords = 1 then [st.minpos, sub32 st.seclen st.maxpos, st.ncoords]
      else [st.minpos, sub32 st.maxpos st.minpos, sub32 st.seclen st.maxpos, st.ncoords]
    if st.ncoords = 1 ∧ st.minpos ≠ st.maxpos then none
    else some (if values.any fun v => (udmCoordPut v).isEmpty then [] else values.flatMap udmCoordPut, values.length)

/-- What is done with an occurrence list: its words are put into the table, its coordinates or a summary of them into a
cache. -/
def convertEntry (c : ConvertArgs) (urlId : ℤ) (e : SectionEntry) (WLL : UdmWordListList) :
    Option (List CacheAdd × UdmWordListList) :=
  if c.noindex e.secno then some ([], WLL)
  else
    (udmBlobCoordsToWordList (WLL e.secno) e).bind fun (st, WL) =>
      let WLL := fun i => if i = e.secno then WL else WLL i
      if st.ncoords < c.prm.ncoordslimit then
        some (udmBlobCacheAdd c urlId e.secno e.word (st.ncoords + 1) (e.s.take e.coordLen), WLL)
      else
        (udmBlobPackWordStat st).map fun (buf, nintags) =>
          (udmBlobCacheAdd c urlId e.secno e.word nintags buf, WLL)

/-- One occurrence list after another. -/
def convertEntries (c : ConvertArgs) (urlId : ℤ) :
    List SectionEntry → UdmWordListList → Option (List CacheAdd × UdmWordListList)
  | [], WLL => some ([], WLL)
  | e :: es, WLL =>
    (convertEntry c urlId e WLL).bind fun r => (convertEntries c urlId es r.2).map fun r' => (r.1 ++ r'.1, r'.2)

/-- `UdmBlob2BlobV2ConvertOneColumn`, for one column after another. -/
def convertColumns (c : ConvertArgs) (urlId : ℤ) :
    List (List UInt8) → UdmWordListList → Option (List CacheAdd × UdmWordListList)
  | [], WLL => some ([], WLL)
  | column :: columns, WLL =>
    (sectionEntries column.length none column).bind fun es =>
      (convertEntries c urlId es WLL).bind fun r =>
        (convertColumns c urlId columns r.2).map fun r' => (r.1 ++ r'.1, r'.2)

/-! ### The pairs of a row -/

/-- `UDM_WORDPAIR`. -/
structure UdmWordPair where
  word0offset : ℕ
  word1offset : ℕ
  diff : ℕ
  deriving DecidableEq

/-- `UdmPairIsRare2`. -/
def udmPairIsRare2 (W0 W1 : TableWord) (prm : UdmWordpairParam) : Bool :=
  W0.hash ≤ prm.ncoordslimit && W1.hash ≤ prm.ncoordslimit

/-- `UdmPairIsFrequent2`. -/
def udmPairIsFrequent2 (W0 W1 : TableWord) (prm : UdmWordpairParam) : Bool :=
  W0.hash > prm.ncoordslimit && W1.hash > prm.ncoordslimit

/-- `UdmGoodPair`. -/
def udmGoodPair (W0 W1 : TableWord) (diff : ℕ) (prm : UdmWordpairParam) : Bool :=
  if udmPairIsRare2 W0 W1 prm then false
  else if udmPairIsFrequent2 W0 W1 prm then prm.maxdistOften ≥ diff
  else prm.maxdist ≥ diff

/-- The pair of the words at two positions, if it is a good one; nothing, if the assertion fails. -/
def pairAt (WL : UdmWordList) (prm : UdmWordpairParam) (i j : ℕ) : Option (List UdmWordPair) :=
  match WL.Word i, WL.Word (i + j) with
  | some W0, some W1 =>
    if !udmGoodPair W0 W1 j prm then some []
    else if W0.secno = W1.secno then some [⟨W0.pos, W1.pos, j⟩]
    else none
  | _, _ => some []

/-- `UdmWordListToWordPairList`. -/
def udmWordListToWordPairList (WL : UdmWordList) (prm : UdmWordpairParam) : Option (List UdmWordPair) :=
  ((List.range (WL.nwords - 1)).mapM fun i =>
    ((List.range' 1 (min prm.maxdist (WL.nwords - 1 - i))).mapM fun j => pairAt WL prm i j).map List.flatten).map
    List.flatten

/-- `cmp_wordpair_by_words_pos_diff` is not positive. -/
def wordPairLe (w1 w2 : UdmWordPair) : Bool :=
  w1.word0offset < w2.word0offset ||
    w1.word0offset = w2.word0offset &&
      (w1.word1offset < w2.word1offset || w1.word1offset = w2.word1offset && w1.diff ≤ w2.diff)

/-- What `udm_snprintf` leaves in a string of this size. -/
def snprintfString (size : ℕ) (text : List UInt8) : CString := CString.take (text.take (size - 1))

/-- The two low bytes of a number. -/
def lowBytes (crc32 : ℕ) : List UInt8 := [.ofNat (crc32 % 256), .ofNat (crc32 / 256 % 256)]

/-- The rests of two words behind their first characters, as `udm_snprintf` prints them into a buffer of 256 bytes,
with the NUL; nothing, if a word has no character, or the text is longer than the buffer. -/
def pairRest (W0 W1 : TableWord) (delimiter : UInt8) : Option (List UInt8) :=
  match W0.word.val, W1.word.val with
  | _ :: s0, _ :: s1 => if s0.length + s1.length + 2 ≤ 256 then some (s0 ++ delimiter :: s1 ++ [0]) else none
  | _, _ => none

/-- The key of a pair and its bytes, in the different modes. -/
def pairKey (c : ConvertArgs) (W0 W1 : TableWord) : Option (CString × List UInt8) :=
  let delimiter : UInt8 := if udmPairIsFrequent2 W0 W1 c.prm then 0x2b else 0x2d
  let w0 := W0.word.val
  let w1 := W1.word.val
  match c.prm.mode with
  | 1 => (pairRest W0 W1 0x2d).map fun rest => (snprintfString 128 (w0.take 1 ++ 0x2d :: w1.take 1), rest)
  | 2 => (pairRest W0 W1 delimiter).map fun rest => (snprintfString 128 (w0.take 1 ++ delimiter :: w1.take 1), rest)
  | 3 => some (snprintfString 128 (w0 ++ delimiter :: w1), [])
  | 4 =>
    let crc32 := c.udmCRC32UpdateStr (c.udmCRC32UpdateStr 0 W0.word) W1.word
    some (CString.take [w0.headD 0, 0x2d, w1.headD 0], lowBytes crc32)
  | _ => some (snprintfString 128 (w0 ++ 0x2d :: w1), [])

/-- `UdmBlobCacheAddPair`; nothing, if there is no word at one of the positions. -/
def udmBlobCacheAddPair (c : ConvertArgs) (urlId : ℤ) (secno : UInt8) (WL : UdmWordList) (P : UdmWordPair) :
    Option (List CacheAdd) :=
  match WL.Word P.word0offset, WL.Word P.word1offset with
  | some W0, some W1 => (pairKey c W0 W1).map fun (key, buf) => udmBlobCacheAdd c urlId secno key P.diff buf
  | _, _ => none

/-- The first pair of each group of pairs of the same words. They are in the order of their distances, so that the
first one has the least. -/
def groupHeads : Option UdmWordPair → List UdmWordPair → List UdmWordPair
  | _, [] => []
  | none, P :: l => P :: groupHeads (some P) l
  | some P, E :: l =>
    if P.word0offset ≠ E.word0offset ∨ P.word1offset ≠ E.word1offset then E :: groupHeads (some E) l
    else groupHeads (some P) l

/-- `UdmBlob2BlobV2ConvertDistancesForSection`. -/
def convertDistancesForSection (c : ConvertArgs) (urlId : ℤ) (WL : UdmWordList) (secno : UInt8) :
    Option (List CacheAdd) :=
  if WL.nwords = 0 then some []
  else
    (udmWordListToWordPairList WL c.prm).bind fun PL =>
      ((groupHeads none (c.udmSort.sort wordPairLe PL)).mapM fun P => udmBlobCacheAddPair c urlId secno WL P).map
        List.flatten

/-- `UdmBlob2BlobV2ConvertDistances`. -/
def convertDistances (c : ConvertArgs) (urlId : ℤ) (WLL : UdmWordListList) : Option (List CacheAdd) :=
  ((List.range 256).mapM fun i => convertDistancesForSection c urlId (WLL (.ofNat i)) (.ofNat i)).map List.flatten

/-! ### The loop over the rows -/

/-- A row of table `bdicti`. -/
structure IntagRow where
  urlId : ℤ
  /-- The columns `intag00` to `intag1F`. -/
  columns : List (List UInt8)

/-- One row in `UdmBlob2BlobV2ConvertWords`: its postings, and the table for the next row. -/
def convertRow (c : ConvertArgs) (WLL : UdmWordListList) (row : IntagRow) :
    Option (List CacheAdd × UdmWordListList) :=
  if !udmURLDataListSearch c.urlList row.urlId then some ([], WLL)
  else
    (convertColumns c row.urlId row.columns WLL).bind fun r =>
      (convertDistances c row.urlId r.2).map fun pairs => (r.1 ++ pairs, udmWordListListReset r.2)

/-- The table after `UdmWordListListInit` and these rows. -/
def afterRows (c : ConvertArgs) (rows : List IntagRow) : Option UdmWordListList :=
  rows.foldlM (fun WLL row => (convertRow c WLL row).map Prod.snd) fun _ => .init

/-! ## What is wanted -/

/-- **The postings of a row after these rows and after those**, if the conversion comes to the row. -/
def RowLocal (c : ConvertArgs) (rows1 rows2 : List IntagRow) (row : IntagRow) : Prop :=
  ∀ WLL1 WLL2, afterRows c rows1 = some WLL1 → afterRows c rows2 = some WLL2 →
    (convertRow c WLL1 row).map Prod.fst = (convertRow c WLL2 row).map Prod.fst

/-- A row that puts no words into section 255: if it is converted, its occurrence lists there have not more than one
number, which is the length of the section. -/
def Avoids255 (c : ConvertArgs) (row : IntagRow) : Prop :=
  udmURLDataListSearch c.urlList row.urlId = true → c.noindex 255 = false →
    ∀ column ∈ row.columns, ∀ es, sectionEntries column.length none column = some es →
      ∀ e ∈ es, e.secno = 255 → e.ncoords ≤ 1

/-! ## The table between two rows -/

/-- Behind the elements in use there are no words. -/
def UdmWordList.Tidy (WL : UdmWordList) : Prop := ∀ i, WL.nwords ≤ i → WL.Word i = none

theorem tidy_init : UdmWordList.init.Tidy := fun _ _ => rfl

variable {WL WL' : UdmWordList} {fuel : ℕ} {s : List UInt8} {WLL : UdmWordListList}

theorem UdmWordList.Tidy.add (h : WL.Tidy) (pos : ℕ) (W : TableWord) : (udmWordListAddAtPosition WL pos W).Tidy := by
  intro i hi
  obtain ⟨hn, hpos⟩ := max_le_iff.1 hi
  have hne : i ≠ pos := by omega
  rw [udmWordListAddAtPosition]
  exact (if_neg hne).trans (h i hn)

theorem udmWordListReset_of_tidy (h : WL.Tidy) : udmWordListReset WL = .init := by
  refine congrArg (UdmWordList.mk 0) (funext fun i => ?_)
  by_cases hi : i < WL.nwords
  · exact if_pos hi
  · exact (if_neg hi).trans (h i (Nat.le_of_not_lt hi))

/-- What a row leaves in the table: all lists are tidy, and section 255 is empty. -/
structure Ready (WLL : UdmWordListList) : Prop where
  tidy : ∀ i, (WLL i).Tidy
  last : WLL 255 = .init

theorem ready_init : Ready fun _ => .init := ⟨fun _ => tidy_init, rfl⟩

theorem Ready.reset (h : Ready WLL) : udmWordListListReset WLL = fun _ => .init := by
  funext i
  rw [udmWordListListReset]
  split
  case isTrue => exact udmWordListReset_of_tidy (h.tidy i)
  case isFalse hi =>
    have hlt := i.toNat_lt
    have h255 : i = 255 := UInt8.toNat_inj.1 (show i.toNat = 255 by omega)
    rw [h255, h.last]

/-! ### Occurrence lists -/

theorem coordsToWordList_tidy {word : CString} {secno : UInt8} {hash : ℕ} {st st' : UdmWordStat}
    (hrun : coordsToWordList word secno hash fuel s st WL = some (st', WL')) (h : WL.Tidy) :
    WL'.Tidy := by
  induction fuel generalizing s st WL with
  | zero =>
    cases hrun
    exact h
  | succ fuel ih =>
    rw [coordsToWordList] at hrun
    split at hrun
    · cases hrun
      exact h
    · split at hrun
      · cases hrun
        exact h
      · cases hrun
      · rename_i delta nbytes _
        dsimp only at hrun
        generalize (if st.ncoords = 0 then { st with minpos := delta, maxpos := delta, seclen := delta } else st) = t
          at hrun
        split at hrun
        · cases hrun
        · refine ih hrun ?_
          split
          · exact h
          · exact h.add _ _

theorem udmCoordGet_ne_zero {delta nbytes : ℕ} (h : udmCoordGet s = some (some delta, nbytes))
    (hs : s.headD 0 ≠ 0) : delta ≠ 0 := by
  rintro rfl
  obtain ⟨-, hbytes, -⟩ := udmCoordGet_some h
  have hone : nbytes = 1 := hbytes
  subst hone
  cases s with
  | nil => exact hs rfl
  | cons c s =>
    by_cases hc : c < 0x80
    · rw [udmCoordGet_cons_lt hc, Option.some_inj, Prod.mk.injEq, Option.some_inj] at h
      exact hs (UInt8.toNat_inj.1 h.1)
    · -- a longer number has more bytes
      change (if c < 0x80 then _ else _) = some (some 0, 1) at h
      rw [if_neg hc] at h
      repeat' split at h
      all_goals simp at h

theorem udmCoordStatistics_pos {k nbytes : ℕ} (h : udmCoordGet s = some (some (k + 1), nbytes))
    (fuel : ℕ) (crd : Option ℕ) :
    udmCoordStatistics (fuel + 1) crd s =
      (udmCoordStatistics fuel (some (k + 1)) (s.drop nbytes)).map fun r => (r.1 + nbytes, r.2 + 1) := by
  rw [udmCoordStatistics, h]
  rfl

theorem two_le_of_statistics {d1 d2 n1 n2 coordLen ncoords : ℕ}
    (hstat : udmCoordStatistics s.length none s = some (coordLen, ncoords))
    (h1 : udmCoordGet s = some (some d1, n1)) (hs1 : s.headD 0 ≠ 0)
    (h2 : udmCoordGet (s.drop n1) = some (some d2, n2)) (hs2 : (s.drop n1).headD 0 ≠ 0) : 2 ≤ ncoords := by
  obtain ⟨k1, rfl⟩ := Nat.exists_eq_succ_of_ne_zero (udmCoordGet_ne_zero h1 hs1)
  obtain ⟨k2, rfl⟩ := Nat.exists_eq_succ_of_ne_zero (udmCoordGet_ne_zero h2 hs2)
  obtain ⟨hv1, hn1, hle1⟩ := udmCoordGet_some h1
  obtain ⟨hv2, hn2, hle2⟩ := udmCoordGet_some h2
  have hpos1 := List.length_pos_iff.2 (coordCode.ne_nil hv1)
  have hpos2 := List.length_pos_iff.2 (coordCode.ne_nil hv2)
  rw [List.length_drop] at hle2
  obtain ⟨fuel, hfuel⟩ : ∃ fuel, s.length = fuel + 2 := ⟨s.length - 2, by omega⟩
  rw [hfuel, udmCoordStatistics_pos h1, udmCoordStatistics_pos h2, Option.map_map, Option.map_eq_some_iff] at hstat
  obtain ⟨r, -, hr⟩ := hstat
  have hcount : r.2 + 1 + 1 = ncoords := congrArg Prod.snd hr
  omega

theorem udmBlobCoordsToWordList_one {e : SectionEntry} {st : UdmWordStat}
    (hstat : udmCoordStatistics e.s.length none e.s = some (e.coordLen, e.ncoords)) (hone : e.ncoords ≤ 1)
    (hrun : udmBlobCoordsToWordList WL e = some (st, WL')) : WL' = WL := by
  rw [udmBlobCoordsToWordList, Option.map_eq_some_iff] at hrun
  obtain ⟨⟨st1, WL1⟩, hrun, heq⟩ := hrun
  obtain ⟨-, rfl⟩ := Prod.mk.inj heq
  generalize e.s.length = fuel at hrun
  cases fuel with
  | zero =>
    cases hrun
    rfl
  | succ fuel =>
    rw [coordsToWordList] at hrun
    split at hrun
    · cases hrun
      rfl
    rename_i hs1
    split at hrun
    · cases hrun
      rfl
    · cases hrun
    rename_i d1 n1 h1
    simp only [if_true, ne_eq, not_true_eq_false, false_and, if_false] at hrun
    -- the second number would be the first position in the table
    cases fuel with
    | zero =>
      cases hrun
      rfl
    | succ fuel =>
      rw [coordsToWordList] at hrun
      split at hrun
      · cases hrun
        rfl
      rename_i hs2
      split at hrun
      · cases hrun
        rfl
      · cases hrun
      rename_i d2 n2 h2
      have := two_le_of_statistics hstat h1 hs1 h2 hs2
      omega

theorem statistics_of_mem {word : Option CString} {es : List SectionEntry} (h : sectionEntries fuel word s = some es) :
    ∀ e ∈ es, udmCoordStatistics e.s.length none e.s = some (e.coordLen, e.ncoords) := by
  induction fuel generalizing word s es with
  | zero =>
    cases h
    exact fun e he => absurd he List.not_mem_nil
  | succ fuel ih =>
    cases word with
    | none =>
      rw [sectionEntries] at h
      split at h
      · cases h
        exact fun e he => absurd he List.not_mem_nil
      · exact ih h
    | some word =>
      cases s with
      | nil =>
        cases h
        exact fun e he => absurd he List.not_mem_nil
      | cons secno s =>
        rw [sectionEntries, Option.bind_eq_some_iff] at h
        obtain ⟨⟨coordLen, ncoords⟩, hstat, h⟩ := h
        rw [Option.map_eq_some_iff] at h
        obtain ⟨more, hmore, rfl⟩ := h
        refine List.forall_mem_cons.2 ⟨hstat, ?_⟩
        split at hmore
        · cases hmore
          exact fun e he => absurd he List.not_mem_nil
        · split at hmore
          · exact ih hmore
          · exact ih hmore

/-! ### Rows -/

section

variable {c : ConvertArgs} {urlId : ℤ} {WLL WLL' : UdmWordListList} {out : List CacheAdd}

theorem Ready.convertEntry {e : SectionEntry} (h : Ready WLL)
    (hstat : udmCoordStatistics e.s.length none e.s = some (e.coordLen, e.ncoords))
    (h255 : c.noindex 255 = false → e.secno = 255 → e.ncoords ≤ 1)
    (hrun : Blob.convertEntry c urlId e WLL = some (out, WLL')) : Ready WLL' := by
  rw [Blob.convertEntry] at hrun
  split at hrun
  · cases hrun
    exact h
  rename_i hindex
  rw [Option.bind_eq_some_iff] at hrun
  obtain ⟨⟨st, WL⟩, hwords, hrun⟩ := hrun
  have hWLL : WLL' = fun i => if i = e.secno then WL else WLL i := by
    dsimp only at hrun
    split at hrun
    · exact (congrArg Prod.snd (Option.some_inj.1 hrun)).symm
    · obtain ⟨r, -, hr⟩ := Option.map_eq_some_iff.1 hrun
      exact (congrArg Prod.snd hr).symm
  have htidy : WL.Tidy := by
    rw [udmBlobCoordsToWordList, Option.map_eq_some_iff] at hwords
    obtain ⟨⟨st1, WL1⟩, hrun1, heq⟩ := hwords
    obtain ⟨-, rfl⟩ := Prod.mk.inj heq
    exact coordsToWordList_tidy hrun1 (h.tidy e.secno)
  subst hWLL
  refine ⟨fun i => ?_, ?_⟩
  · split
    · exact htidy
    · exact h.tidy i
  · split
    case isTrue h255' =>
      rw [← h255'] at hindex hwords
      rw [udmBlobCoordsToWordList_one hstat (h255 (Bool.not_eq_true _ ▸ hindex) h255'.symm) hwords]
      exact h.last
    case isFalse => exact h.last

theorem Ready.convertEntries {es : List SectionEntry} (h : Ready WLL)
    (hstat : ∀ e ∈ es, udmCoordStatistics e.s.length none e.s = some (e.coordLen, e.ncoords))
    (h255 : c.noindex 255 = false → ∀ e ∈ es, e.secno = 255 → e.ncoords ≤ 1)
    (hrun : Blob.convertEntries c urlId es WLL = some (out, WLL')) : Ready WLL' := by
  induction es generalizing WLL out with
  | nil =>
    cases hrun
    exact h
  | cons e es ih =>
    rw [Blob.convertEntries, Option.bind_eq_some_iff] at hrun
    obtain ⟨⟨out1, WLL1⟩, hentry, hrun⟩ := hrun
    obtain ⟨⟨out2, WLL2⟩, hmore, heq⟩ := Option.map_eq_some_iff.1 hrun
    obtain ⟨-, rfl⟩ := Prod.mk.inj heq
    have h1 := h.convertEntry (hstat e List.mem_cons_self) (fun hi => h255 hi e List.mem_cons_self) hentry
    exact ih h1 (fun e' he' => hstat e' (List.mem_cons_of_mem _ he'))
      (fun hi e' he' => h255 hi e' (List.mem_cons_of_mem _ he')) hmore

theorem Ready.convertColumns {columns : List (List UInt8)} (h : Ready WLL)
    (h255 : c.noindex 255 = false → ∀ column ∈ columns, ∀ es, sectionEntries column.length none column = some es →
      ∀ e ∈ es, e.secno = 255 → e.ncoords ≤ 1)
    (hrun : Blob.convertColumns c urlId columns WLL = some (out, WLL')) : Ready WLL' := by
  induction columns generalizing WLL out with
  | nil =>
    cases hrun
    exact h
  | cons column columns ih =>
    rw [Blob.convertColumns, Option.bind_eq_some_iff] at hrun
    obtain ⟨es, hes, hrun⟩ := hrun
    rw [Option.bind_eq_some_iff] at hrun
    obtain ⟨⟨out1, WLL1⟩, hentries, hrun⟩ := hrun
    obtain ⟨⟨out2, WLL2⟩, hmore, heq⟩ := Option.map_eq_some_iff.1 hrun
    obtain ⟨-, rfl⟩ := Prod.mk.inj heq
    have h1 := h.convertEntries (statistics_of_mem hes) (fun hi => h255 hi column List.mem_cons_self es hes) hentries
    exact ih h1 (fun hi column' hcol => h255 hi column' (List.mem_cons_of_mem _ hcol)) hmore

/-- **A row without words in section 255 leaves an empty table.** -/
theorem convertRow_table {row : IntagRow} (hrow : Avoids255 c row)
    (hrun : convertRow c (fun _ => .init) row = some (out, WLL')) : WLL' = fun _ => .init := by
  rw [convertRow] at hrun
  split at hrun
  · exact (congrArg Prod.snd (Option.some_inj.1 hrun)).symm
  rename_i hfound
  rw [Option.bind_eq_some_iff] at hrun
  obtain ⟨⟨out1, WLL1⟩, hcolumns, hrun⟩ := hrun
  obtain ⟨pairs, -, heq⟩ := Option.map_eq_some_iff.1 hrun
  obtain ⟨-, rfl⟩ := Prod.mk.inj heq
  have hfound' : udmURLDataListSearch c.urlList row.urlId = true := by simpa using hfound
  exact (ready_init.convertColumns (hrow hfound') hcolumns).reset

end

/-- **Rows without words in section 255 leave an empty table.** -/
theorem afterRows_table {c : ConvertArgs} {rows : List IntagRow} (hrows : ∀ row ∈ rows, Avoids255 c row)
    (hrun : afterRows c rows = some WLL) : WLL = fun _ => .init := by
  induction rows using List.reverseRecOn generalizing WLL with
  | nil => exact (Option.some_inj.1 hrun).symm
  | append_singleton rows row ih =>
    rw [afterRows, List.foldlM_append, Option.bind_eq_bind, Option.bind_eq_some_iff] at hrun
    obtain ⟨WLL1, hbefore, hrow⟩ := hrun
    have h1 := ih (fun r hr => hrows r (List.mem_append_left _ hr)) hbefore
    subst h1
    rw [List.foldlM_cons, Option.bind_eq_bind, Option.bind_eq_some_iff] at hrow
    obtain ⟨WLL2, hconv, hnil⟩ := hrow
    obtain ⟨⟨out, WLL3⟩, hconv3, rfl⟩ := Option.map_eq_some_iff.1 hconv
    rw [← Option.some_inj.1 hnil]
    exact convertRow_table (hrows row (List.mem_append_right _ List.mem_cons_self)) hconv3

/-- **The postings of a row do not depend on the rows before it**, unless one of those puts words into section 255. -/
theorem rowLocal (c : ConvertArgs) {rows1 rows2 : List IntagRow} (h1 : ∀ row ∈ rows1, Avoids255 c row)
    (h2 : ∀ row ∈ rows2, Avoids255 c row) (row : IntagRow) : RowLocal c rows1 rows2 row := by
  intro WLL1 WLL2 hrun1 hrun2
  rw [afterRows_table h1 hrun1, afterRows_table h2 hrun2]

/-- A conversion of the documents 1 and 2, in which a word with two coordinates is frequent. -/
def twoDocuments : ConvertArgs := ⟨fun _ => 0, fun _ _ => 0, .forward, fun _ => false, [1, 2], ⟨2, 1, 1, 4⟩⟩

/-- The word `a` at the first two positions of this section. -/
def rowInSection (secno : UInt8) : IntagRow := ⟨1, [[0x61, 0, secno, 1, 1, 1, 0]]⟩

/-- Words in section 254 are forgotten. -/
theorem rowLocal_section_254 : RowLocal twoDocuments [rowInSection 254] [] ⟨2, [[]]⟩ := by
  refine rowLocal twoDocuments (fun row hrow _ _ column hcol es hes e he h255 => ?_) (fun row hrow => ?_) ⟨2, [[]]⟩
  · rw [List.mem_singleton.1 hrow] at hcol
    rw [List.mem_singleton.1 hcol] at hes
    have hmem : ∀ e ∈ (sectionEntries 7 none [0x61, 0, 254, 1, 1, 1, 0]).getD [], e.secno ≠ 255 := by decide
    exact absurd h255 (hmem e (by rwa [show sectionEntries 7 none [0x61, 0, 254, 1, 1, 1, 0] = some es from hes]))
  · exact absurd hrow List.not_mem_nil

/-- The pair of the words of section 255 is found again in an empty row. -/
theorem not_rowLocal_section_255 : ¬ RowLocal twoDocuments [rowInSection 255] [] ⟨2, [[]]⟩ := by
  intro h
  have hone : ((afterRows twoDocuments [rowInSection 255]).bind fun WLL =>
      (convertRow twoDocuments WLL ⟨2, [[]]⟩).map fun r => r.1.length) = some 1 := by decide +kernel
  obtain ⟨WLL, hWLL, hrow⟩ := Option.bind_eq_some_iff.1 hone
  have hlen := congrArg (Option.map List.length) (h WLL _ hWLL rfl)
  rw [Option.map_map, show Option.map (List.length ∘ Prod.fst) (convertRow twoDocuments WLL ⟨2, [[]]⟩) = some 1
    from hrow] at hlen
  exact absurd hlen (by decide +kernel)

end MnoGoSearch.Blob
