import MnoGoSearch.Blob.CoordCode
import MnoGoSearch.Blob.LiveIndex
import MnoGoSearch.Lib.Runs
import MnoGoSearch.Words.WordList
import Mathlib

/-!
# Records of table `bdicti`

The words of a document are packed into the columns `intag00` to `intag1F` of table
`bdicti`, a word into the column given by its hash. A column is read back when the records
are converted to table `bdict` (`dbmode-blob.c`):

* `Coord` is a number, as in `CoordCode`
* `SectionRecord ::= Secno Coord Coord*`
* `WordRecord ::= Word NL SectionRecord (NL SectionRecord)*`
* `WordList ::= WordRecord (NL NL WordRecord)*`

where `NL` is a NUL byte, and with `SaveSectionSize` the last coordinate of a section record
leads to the length of the section. `udmBlob2BlobConvertOneColumn_encode_iff` says when the
conversion finds what was packed: unless a section is so long that the last coordinate cannot
be written.
-/

namespace MnoGoSearch.Blob

open Lib.PrefixCode Lib.Runs Words

/-! ### Packing -/

/-- The order in which the words of a column are sorted. -/
def swbcmp (w1 w2 : UdmWord) : Ordering :=
  (strcmp w1.word w2.word).then ((cmp w1.secno w2.secno).then (cmp w1.pos w2.pos))

/-- The section length as `udm_coord_put` gets it: the difference of two `size_t` is put into
an `int`, a negative one is a large number. -/
def seclenArg (seclen : ℕ) : ℕ :=
  let n := seclen % 2 ^ 32
  if n < 2 ^ 31 then n else n + (2 ^ 64 - 2 ^ 32)

/-- After this occurrence nothing follows, or another word or section. -/
def endOfSection (W : UdmWord) : List UdmWord → Bool
  | [] => true
  | V :: _ => W.word ≠ V.word || W.secno ≠ V.secno

/-- The loop over the words of a column. `wordpos` has the number of words of each section;
the arguments after it are `prev_word`, `prev_secno` and `prev_pos`. -/
def encodeWords (wordpos : UInt8 → ℕ) (saveSectionSize : Bool) : CString → UInt8 → ℕ → List UdmWord → List UInt8
  | _, _, _, [] => []
  | prevWord, prevSecno, prevPos, W :: rest =>
    let newWord := W.word ≠ prevWord
    let wordBytes := if newWord then (if prevWord ≠ CString.empty then [0, 0] else []) ++ W.word.val else []
    let prevSecno := if newWord then 0 else prevSecno
    let prevPos := if newWord then 0 else prevPos
    let secnoBytes := if W.secno ≠ prevSecno then [0, W.secno] else []
    let prevPos := if W.secno ≠ prevSecno then 0 else prevPos
    let coord := udmCoordPut (W.pos - prevPos)
    let seclen :=
      if saveSectionSize && endOfSection W rest then udmCoordPut (seclenArg (wordpos W.secno + 1 - W.pos)) else []
    wordBytes ++ secnoBytes ++ coord ++ seclen ++ encodeWords wordpos saveSectionSize W.word W.secno W.pos rest

/-- `UdmBlobEncodeBdictiRecord`: the columns, one for each list of words. -/
def udmBlobEncodeBdictiRecord (wordpos : UInt8 → ℕ) (saveSectionSize : Bool) (wordList : List (List UdmWord)) :
    List (List UInt8) :=
  wordList.map fun words => encodeWords wordpos saveSectionSize CString.empty 0 0 words

/-! ### Converting -/

/-- `UDM_BLOB_CACHE_WORD`. -/
structure UdmBlobCacheWord where
  word : CString
  secno : UInt8
  urlId : ℤ
  /-- How many coordinates there are. -/
  nintags : ℕ
  intags : List UInt8

mutual

/-- The loop over the words of a column: the sections that it visits, each with its word and
the string of its coordinates. -/
def convertWords (s : List UInt8) : List (CString × UInt8 × CString) :=
  if _hs : s = [] then []
  else
    match _hrest : CString.skip s with
    | [] => []
    | secno :: rest => convertSections (CString.take s) secno rest
  termination_by s.length
  decreasing_by
    have hlt := CString.length_skip_lt _hs
    rw [_hrest, List.length_cons] at hlt
    omega

/-- The loop over the sections of a word, at a section number. A NUL byte after the section
ends the word. -/
def convertSections (word : CString) (secno : UInt8) (s : List UInt8) : List (CString × UInt8 × CString) :=
  (word, secno, CString.take s) ::
    if _hs : s = [] then []
    else
      match _hrest : CString.skip s with
      | [] => []
      | c :: rest => if c = 0 then convertWords rest else convertSections word c rest
  termination_by s.length
  decreasing_by
    all_goals
      have hlt := CString.length_skip_lt _hs
      rw [_hrest, List.length_cons] at hlt
      omega

end

/-- `UdmBlobCacheAdd2` with the checks of `UdmBlobCacheCheckValue`. -/
def udmBlobCacheAdd2 (urlId : ℤ) (secno : UInt8) (word : CString) (nintags : ℕ) (intag : List UInt8) :
    List UdmBlobCacheWord :=
  if urlId = 0 ∨ secno = 0 ∨ nintags = 0 then [] else [⟨word, secno, urlId, nintags, intag⟩]

/-- `UdmBlob2BlobConvertOneColumn`: what is added to the caches, each with the number of its
cache. `noindex` are the sections that go to `bdicti` only, `urlList` are the documents to be
converted, a row has the document and the column. -/
def udmBlob2BlobConvertOneColumn (udmStrHash32 : CString → ℕ) (noindex : UInt8 → Bool) (urlList : List ℤ)
    (rows : List (ℤ × List UInt8)) : List (ℕ × UdmBlobCacheWord) :=
  rows.flatMap fun row =>
    if !udmURLDataListSearch urlList row.1 then []
    else
      (convertWords row.2).flatMap fun r =>
        let wordSeed := udmStrHash32 r.1 >>> 8 &&& 0xff
        if noindex r.2.1 then []
        else (udmBlobCacheAdd2 row.1 r.2.1 r.1 (udmCoordLen r.2.2.val) r.2.2.val).map fun w => (wordSeed, w)

/-! ### The groups of a column -/

/-- The coordinates of the occurrences of one word in one section, after a position. -/
def intagOf (wordpos : UInt8 → ℕ) (saveSectionSize : Bool) : ℕ → List UdmWord → List UInt8
  | _, [] => []
  | p, W :: g =>
    udmCoordPut (W.pos - p) ++
      (if saveSectionSize && g.isEmpty then udmCoordPut (seclenArg (wordpos W.secno + 1 - W.pos)) else []) ++
      intagOf wordpos saveSectionSize W.pos g

/-- A section record: the word, the section, the coordinates. -/
abbrev Group := CString × UInt8 × List UInt8

/-- A run of occurrences of one word in one section as a section record. -/
def groupOf (wordpos : UInt8 → ℕ) (saveSectionSize : Bool) : List UdmWord → Group
  | [] => (CString.empty, 0, [])
  | W :: g => (W.word, W.secno, intagOf wordpos saveSectionSize 0 (W :: g))

/-- Section records as they are laid out after a word. -/
@[grind =] def groupBytes : CString → List Group → List UInt8
  | _, [] => []
  | prevWord, g :: gs =>
    (if g.1 ≠ prevWord then (if prevWord ≠ CString.empty then [0, 0] else []) ++ g.1.val else []) ++
      [0, g.2.1] ++ g.2.2 ++ groupBytes g.1 gs

/-- What comes before the coordinates of a section record: the word when it is another one,
and the section when the word or the section is another one. -/
def groupHead (prevWord : CString) (prevSecno : UInt8) (word : CString) (secno : UInt8) : List UInt8 :=
  (if word ≠ prevWord then (if prevWord ≠ CString.empty then [0, 0] else []) ++ word.val else []) ++
    if word ≠ prevWord ∨ secno ≠ prevSecno then [0, secno] else []

theorem encodeWords_cons (wordpos : UInt8 → ℕ) (saveSectionSize : Bool) (prevWord : CString) (prevSecno : UInt8)
    (prevPos : ℕ) (W : UdmWord) (rest : List UdmWord) (hsec : W.secno ≠ 0) :
    encodeWords wordpos saveSectionSize prevWord prevSecno prevPos (W :: rest) =
      groupHead prevWord prevSecno W.word W.secno ++
        udmCoordPut (W.pos - if W.word ≠ prevWord ∨ W.secno ≠ prevSecno then 0 else prevPos) ++
        (if saveSectionSize && endOfSection W rest then udmCoordPut (seclenArg (wordpos W.secno + 1 - W.pos))
          else []) ++
        encodeWords wordpos saveSectionSize W.word W.secno W.pos rest := by
  rw [encodeWords]
  by_cases hword : W.word = prevWord
  · by_cases hsecno : W.secno = prevSecno <;> simp [groupHead, hword, hsecno]
  · simp [groupHead, hword, hsec]

theorem key_eq_iff (V W : UdmWord) : V.key = W.key ↔ V.word = W.word ∧ V.secno = W.secno := by
  simp [UdmWord.key]

theorem encodeWords_eq (wordpos : UInt8 → ℕ) (saveSectionSize : Bool) (prevWord : CString) (prevSecno : UInt8)
    (prevPos : ℕ) {W : UdmWord} {rest g : List UdmWord} {gs : List (List UdmWord)}
    (hsec : ∀ V ∈ W :: rest, V.secno ≠ 0) (hruns : runs UdmWord.key (W :: rest) = (W :: g) :: gs) :
    encodeWords wordpos saveSectionSize prevWord prevSecno prevPos (W :: rest) =
      groupHead prevWord prevSecno W.word W.secno ++
        intagOf wordpos saveSectionSize (if W.word ≠ prevWord ∨ W.secno ≠ prevSecno then 0 else prevPos) (W :: g) ++
        groupBytes W.word (gs.map (groupOf wordpos saveSectionSize)) := by
  induction rest generalizing W g gs prevWord prevSecno prevPos with
  | nil =>
    simp only [runs, push, List.cons.injEq] at hruns
    obtain ⟨⟨-, rfl⟩, rfl⟩ := hruns
    rw [encodeWords_cons _ _ _ _ _ _ _ (hsec W (by simp))]
    simp [intagOf, groupBytes, encodeWords, endOfSection]
  | cons V rest ih =>
    obtain ⟨g', gs', hg'⟩ := exists_runs_cons UdmWord.key V rest
    have hV := hg' V rfl
    have hrest := ih W.word W.secno W.pos (fun U hU => hsec U (by simp [hU])) hV
    rw [encodeWords_cons _ _ _ _ _ _ _ (hsec W (by simp)), hrest]
    rw [runs, hV, push] at hruns
    by_cases hkey : W.key = V.key
    · -- the next occurrence is in the same section record
      rw [if_pos hkey, List.cons.injEq, List.cons.injEq] at hruns
      obtain ⟨⟨-, rfl⟩, rfl⟩ := hruns
      obtain ⟨hword, hsecno⟩ := (key_eq_iff W V).mp hkey
      simp [intagOf, groupHead, endOfSection, hword, hsecno]
    · -- the next occurrence begins another section record
      rw [if_neg hkey, List.cons.injEq, List.cons.injEq] at hruns
      obtain ⟨⟨-, rfl⟩, rfl⟩ := hruns
      have hne : W.word ≠ V.word ∨ W.secno ≠ V.secno := by
        rw [key_eq_iff] at hkey
        exact Decidable.not_and_iff_or_not.mp hkey
      have hne' : V.word ≠ W.word ∨ V.secno ≠ W.secno := hne.imp Ne.symm Ne.symm
      have hlast : endOfSection W (V :: rest) = true := by simpa [endOfSection] using hne
      simp only [hlast, hne', if_true, Bool.and_true, intagOf, List.isEmpty_nil, List.map_cons, groupOf, groupBytes,
        groupHead, List.append_assoc, List.append_nil]

/-! ### Reading a column -/

/-- The loop over the sections, begun at the first of these section records. -/
def readGroups : List Group → List (CString × UInt8 × CString)
  | [] => []
  | g :: gs => convertSections g.1 g.2.1 (g.2.2 ++ groupBytes g.1 gs)

theorem readGroups_cons (g : Group) (gs : List Group) :
    ∃ rest, readGroups (g :: gs) = (g.1, g.2.1, CString.take (g.2.2 ++ groupBytes g.1 gs)) :: rest := by
  rw [readGroups, convertSections]
  exact ⟨_, rfl⟩

theorem convertWords_groupBytes (word : CString) (secno : UInt8) (s : List UInt8) :
    convertWords (word.val ++ 0 :: secno :: s) = convertSections word secno s := by
  have hne : word.val ++ 0 :: secno :: s ≠ [] := by simp
  rw [convertWords, dif_neg hne]
  split
  · rename_i hrest
    rw [CString.skip_append] at hrest
    simp at hrest
  · rename_i secno' rest hrest
    rw [CString.skip_append, List.cons.injEq] at hrest
    obtain ⟨rfl, rfl⟩ := hrest
    rw [CString.take_append]

theorem readGroups_cons_of_notMem {word : CString} {secno : UInt8} {intag : CString} {gs : List Group}
    (hword : word ≠ CString.empty) (hgs : ∀ g ∈ gs, g.2.1 ≠ 0) :
    readGroups ((word, secno, intag.val) :: gs) = (word, secno, intag) :: readGroups gs := by
  rw [readGroups, convertSections]
  cases gs with
  | nil =>
    rw [groupBytes, List.append_nil, CString.take_val]
    congr 1
    split
    · rfl
    · split
      · rfl
      · rename_i c rest hrest
        rw [CString.skip_val] at hrest
        exact absurd hrest (by simp)
  | cons g gs =>
    have hsec := hgs g (by simp)
    by_cases hsame : g.1 = word
    · -- the next section of the same word
      have hbytes : intag.val ++ groupBytes word (g :: gs) =
          intag.val ++ 0 :: g.2.1 :: (g.2.2 ++ groupBytes g.1 gs) := by
        simp [groupBytes, hsame]
      rw [hbytes, CString.take_append, dif_neg (by simp)]
      congr 1
      split
      · rename_i hrest
        rw [CString.skip_append] at hrest
        simp at hrest
      · rename_i c rest hrest
        rw [CString.skip_append, List.cons.injEq] at hrest
        obtain ⟨rfl, rfl⟩ := hrest
        rw [if_neg hsec, readGroups, hsame]
    · -- the next word
      have hbytes : intag.val ++ groupBytes word (g :: gs) =
          intag.val ++ 0 :: 0 :: (g.1.val ++ 0 :: g.2.1 :: (g.2.2 ++ groupBytes g.1 gs)) := by
        simp [groupBytes, hsame, hword]
      rw [hbytes, CString.take_append, dif_neg (by simp)]
      congr 1
      split
      · rename_i hrest
        rw [CString.skip_append] at hrest
        simp at hrest
      · rename_i c rest hrest
        rw [CString.skip_append, List.cons.injEq] at hrest
        obtain ⟨rfl, rfl⟩ := hrest
        rw [if_pos rfl, convertWords_groupBytes, readGroups]

theorem convertWords_eq_readGroups {gs : List Group} (hgs : ∀ g ∈ gs, g.1 ≠ CString.empty) :
    convertWords (groupBytes CString.empty gs) = readGroups gs := by
  cases gs with
  | nil =>
    rw [groupBytes, convertWords, dif_pos rfl]
    rfl
  | cons g gs =>
    have hg := hgs g (by simp)
    rw [readGroups, ← convertWords_groupBytes]
    simp [groupBytes, hg]

theorem groupBytes_eq_nil_or {word : CString} (hword : word ≠ CString.empty) (gs : List Group) :
    groupBytes word gs = [] ∨ ∃ rest, groupBytes word gs = 0 :: rest := by
  cases gs with
  | nil => exact Or.inl rfl
  | cons g gs =>
    right
    by_cases hsame : g.1 = word
    · exact ⟨_, by simp [groupBytes, hsame]; rfl⟩
    · exact ⟨_, by simp [groupBytes, hsame, hword]; rfl⟩

/-! ### The coordinates of a section record -/

/-- The occurrences of one word in one section, as they are packed together. -/
structure IsGroup (W : UdmWord) (g : List UdmWord) : Prop where
  /-- They are sorted by position. -/
  sorted : (0 :: (W :: g).map UdmWord.pos).Pairwise (· < ·)
  /-- They have the word and the section of the first one. -/
  key : ∀ V ∈ W :: g, V.key = W.key

/-- The last position. -/
def lastPos (W : UdmWord) (g : List UdmWord) : ℕ := ((W :: g).map UdmWord.pos).getLast (by simp)

/-- The coordinate of the section length is not written, or is lost as the end of the
coordinates. -/
def seclenCoords (seclen : ℕ) : List ℕ :=
  if seclenArg seclen ≠ 0 ∧ seclenArg seclen < 0x200000 then [seclenArg seclen] else []

/-- The coordinates that are read. -/
def coordsOf (wordpos : UInt8 → ℕ) (saveSectionSize : Bool) (W : UdmWord) (g : List UdmWord) : List ℕ :=
  deltas 0 ((W :: g).map UdmWord.pos) ++
    if saveSectionSize then seclenCoords (wordpos W.secno + 1 - lastPos W g) else []

theorem intagOf_eq (wordpos : UInt8 → ℕ) (saveSectionSize : Bool) (p : ℕ) {W : UdmWord} {g : List UdmWord}
    (hkey : ∀ V ∈ g, V.key = W.key) :
    intagOf wordpos saveSectionSize p (W :: g) = (deltas p ((W :: g).map UdmWord.pos)).flatMap udmCoordPut ++
      if saveSectionSize then udmCoordPut (seclenArg (wordpos W.secno + 1 - lastPos W g)) else [] := by
  induction g generalizing p W with
  | nil => cases saveSectionSize <;> simp [intagOf, deltas, lastPos]
  | cons V g ih =>
    have hV := (key_eq_iff V W).mp (hkey V (by simp))
    have hg : ∀ U ∈ g, U.key = V.key := fun U hU => (hkey U (by simp [hU])).trans (hkey V (by simp)).symm
    have hlast : lastPos W (V :: g) = lastPos V g := by simp [lastPos]
    rw [intagOf, ih W.pos hg, hlast, hV.2]
    simp [deltas]

theorem IsGroup.coords {W : UdmWord} {g : List UdmWord} (h : IsGroup W g) {d : ℕ}
    (hd : d ∈ deltas 0 ((W :: g).map UdmWord.pos)) : 0 < d ∧ CoordValid d := by
  obtain ⟨hpos, x, hx, hle⟩ := mem_deltas h.sorted hd
  obtain ⟨V, hV, rfl⟩ := List.mem_map.mp hx
  have := V.pos_le
  exact ⟨hpos, by unfold CoordValid; omega⟩

theorem IsGroup.mem_coordsOf {W : UdmWord} {g : List UdmWord} (h : IsGroup W g) (wordpos : UInt8 → ℕ)
    (saveSectionSize : Bool) {d : ℕ} (hd : d ∈ coordsOf wordpos saveSectionSize W g) : 0 < d ∧ CoordValid d := by
  rw [coordsOf, List.mem_append] at hd
  obtain hd | hd := hd
  · exact h.coords hd
  · cases saveSectionSize with
    | false => simp at hd
    | true =>
      simp only [if_true, seclenCoords] at hd
      split at hd
      · rename_i hwc
        rw [List.mem_singleton.mp hd]
        exact ⟨Nat.pos_of_ne_zero hwc.1, hwc.2⟩
      · simp at hd

/-- The string of the coordinates that are read. -/
def IsGroup.string {W : UdmWord} {g : List UdmWord} (h : IsGroup W g) (wordpos : UInt8 → ℕ)
    (saveSectionSize : Bool) : CString :=
  ⟨(coordsOf wordpos saveSectionSize W g).flatMap udmCoordPut,
    zero_notMem_flatMap fun _ hd => (h.mem_coordsOf wordpos saveSectionSize hd).1⟩

theorem udmCoordPut_seclenArg (seclen : ℕ) :
    udmCoordPut (seclenArg seclen) =
      (seclenCoords seclen).flatMap udmCoordPut ++ if seclenArg seclen = 0 then [0] else [] := by
  unfold seclenCoords
  by_cases hzero : seclenArg seclen = 0
  · simp [hzero, udmCoordPut]
  · by_cases hvalid : seclenArg seclen < 0x200000
    · simp [hzero, hvalid]
    · have := udmCoordPut_of_not_valid hvalid
      simp [hzero, hvalid, this]

theorem IsGroup.take_intagOf {W : UdmWord} {g : List UdmWord} (h : IsGroup W g) (wordpos : UInt8 → ℕ)
    (saveSectionSize : Bool) {rest : List UInt8} (hrest : rest = [] ∨ ∃ r, rest = 0 :: r) :
    CString.take (intagOf wordpos saveSectionSize 0 (W :: g) ++ rest) = h.string wordpos saveSectionSize := by
  have hkey : ∀ V ∈ g, V.key = W.key := fun V hV => h.key V (by simp [hV])
  have hend : ∀ s : CString, CString.take (s.val ++ rest) = s := by
    intro s
    obtain rfl | ⟨r, rfl⟩ := hrest
    · rw [List.append_nil, CString.take_val]
    · exact CString.take_append s r
  rw [intagOf_eq _ _ _ hkey]
  cases saveSectionSize with
  | false => simpa [IsGroup.string, coordsOf] using hend (h.string wordpos false)
  | true =>
    simp only [if_true]
    rw [udmCoordPut_seclenArg]
    by_cases hzero : seclenArg (wordpos W.secno + 1 - lastPos W g) = 0
    · have := CString.take_append (h.string wordpos true) rest
      simpa [IsGroup.string, coordsOf, hzero] using this
    · simpa [IsGroup.string, coordsOf, hzero] using hend (h.string wordpos true)

/-- The section length of a group can be written. -/
def SeclenFits (wordpos : UInt8 → ℕ) (saveSectionSize : Bool) (W : UdmWord) (g : List UdmWord) : Prop :=
  saveSectionSize = true → wordpos W.secno + 1 - lastPos W g ≤ 0x1FFFFF

theorem seclenArg_of_le {seclen : ℕ} (h : seclen ≤ 0x1FFFFF) : seclenArg seclen = seclen := by
  unfold seclenArg
  rw [Nat.mod_eq_of_lt (by omega), if_pos (by omega)]

theorem IsGroup.string_eq_of_ne {W : UdmWord} {g : List UdmWord} (h : IsGroup W g) {wordpos : UInt8 → ℕ}
    {saveSectionSize : Bool} (hne : saveSectionSize = true → seclenArg (wordpos W.secno + 1 - lastPos W g) ≠ 0) :
    (h.string wordpos saveSectionSize).val = intagOf wordpos saveSectionSize 0 (W :: g) := by
  have hkey : ∀ V ∈ g, V.key = W.key := fun V hV => h.key V (by simp [hV])
  show (coordsOf wordpos saveSectionSize W g).flatMap udmCoordPut = _
  rw [intagOf_eq _ _ _ hkey, coordsOf]
  cases saveSectionSize with
  | false => simp
  | true =>
    simp only [if_true]
    rw [udmCoordPut_seclenArg, if_neg (hne rfl)]
    simp

theorem IsGroup.string_eq {W : UdmWord} {g : List UdmWord} (h : IsGroup W g) {wordpos : UInt8 → ℕ}
    {saveSectionSize : Bool} (hpos : lastPos W g ≤ wordpos W.secno) (hfits : SeclenFits wordpos saveSectionSize W g) :
    (h.string wordpos saveSectionSize).val = intagOf wordpos saveSectionSize 0 (W :: g) := by
  refine h.string_eq_of_ne fun hsave => ?_
  have harg := seclenArg_of_le (hfits hsave)
  rw [harg]
  omega

/-! ### What is found -/

/-- A group of occurrences as a search sees it. -/
structure Posting where
  word : CString
  secno : UInt8
  /-- The number of coordinates, with the one of the section length. -/
  nintags : ℕ
  /-- The positions, each with the length of the section. -/
  coords : List (ℕ × ℕ)

/-- The posting of a record in a cache. -/
def UdmBlobCacheWord.posting (saveSectionSize : Bool) (w : UdmBlobCacheWord) : Posting :=
  ⟨w.word, w.secno, w.nintags, udmCoordListMultiUnpack saveSectionSize w.intags⟩

/-- The posting of the occurrences of one word in one section. The length of a section is the
number of its words and one more. -/
def postingOf (wordpos : UInt8 → ℕ) (saveSectionSize : Bool) : List UdmWord → Posting
  | [] => ⟨CString.empty, 0, 0, []⟩
  | W :: g =>
    ⟨W.word, W.secno, (W :: g).length + if saveSectionSize then 1 else 0,
      (W :: g).map fun V => (V.pos, if saveSectionSize then wordpos W.secno + 1 else 0)⟩

theorem sum_deltas_lastPos {W : UdmWord} {g : List UdmWord} (h : IsGroup W g) :
    (deltas 0 ((W :: g).map UdmWord.pos)).sum = lastPos W g := by
  have hsum := sum_deltas (h.sorted.imp le_of_lt)
  rw [Nat.zero_add] at hsum
  rw [hsum, lastPos, List.getLast_cons (by simp)]

theorem lastPos_le (W : UdmWord) (g : List UdmWord) : lastPos W g ≤ 0x1FFFFF := by
  obtain ⟨V, -, hV⟩ := List.mem_map.mp (List.getLast_mem (l := (W :: g).map UdmWord.pos) (by simp))
  rw [lastPos, ← hV]
  exact V.pos_le

theorem map_mod_positions (l : List UdmWord) : (l.map UdmWord.pos).map (fun last => last % 2 ^ 32) = l.map UdmWord.pos := by
  rw [List.map_map]
  refine List.map_congr_left fun V _ => ?_
  have := V.pos_le
  exact Nat.mod_eq_of_lt (by omega)

/-- The coordinates that are read are the group when the section length can be written, and
only then: otherwise the last position or another number is taken for it. -/
theorem IsGroup.unpack_iff {W : UdmWord} {g : List UdmWord} (h : IsGroup W g) {wordpos : UInt8 → ℕ}
    {saveSectionSize : Bool} (hpos : lastPos W g ≤ wordpos W.secno) :
    udmCoordListMultiUnpack saveSectionSize (h.string wordpos saveSectionSize).val =
      (W :: g).map (fun V => (V.pos, if saveSectionSize then wordpos W.secno + 1 else 0)) ↔
        SeclenFits wordpos saveSectionSize W g := by
  show udmCoordListMultiUnpack saveSectionSize ((coordsOf wordpos saveSectionSize W g).flatMap udmCoordPut) = _ ↔ _
  have hsums := sums_deltas (h.sorted.imp le_of_lt)
  have hle := lastPos_le W g
  rw [udmCoordListMultiUnpack_flatMap _ fun _ hd => (h.mem_coordsOf wordpos saveSectionSize hd).2, coordsOf]
  cases saveSectionSize with
  | false =>
    simp only [Bool.false_eq_true, if_false, List.append_nil, hsums, map_mod_positions, SeclenFits, false_implies,
      iff_true]
    rw [List.map_map]
    rfl
  | true =>
    simp only [if_true, SeclenFits, true_implies]
    rw [sums_append, hsums, sum_deltas_lastPos h, Nat.zero_add, List.map_append, map_mod_positions]
    by_cases hcoord : seclenCoords (wordpos W.secno + 1 - lastPos W g) = []
    · -- the last position is taken for the section length: there is one coordinate less
      rw [hcoord]
      constructor
      · intro heq
        have hlen := congrArg List.length heq
        simp [sums] at hlen
      · intro hfits
        have harg := seclenArg_of_le hfits
        rw [seclenCoords, harg, if_pos ⟨by omega, by omega⟩] at hcoord
        simp at hcoord
    · obtain ⟨wc, hwc, hlt, hone⟩ : ∃ wc, seclenArg (wordpos W.secno + 1 - lastPos W g) = wc ∧ wc < 0x200000 ∧
          seclenCoords (wordpos W.secno + 1 - lastPos W g) = [wc] := by
        unfold seclenCoords at hcoord ⊢
        split at hcoord
        · rename_i hwc
          exact ⟨_, rfl, hwc.2, by rw [if_pos hwc]⟩
        · exact absurd rfl hcoord
      rw [hone]
      simp only [sums, List.map_cons, List.map_nil, List.dropLast_concat, List.getLastD_concat]
      rw [Nat.mod_eq_of_lt (by omega)]
      constructor
      · intro heq
        have hhead := congrArg List.head? heq
        simp only [List.head?_cons, Option.some.injEq, Prod.mk.injEq, true_and] at hhead
        omega
      · intro hfits
        have harg := seclenArg_of_le hfits
        have hlast : lastPos W g + wc = wordpos W.secno + 1 := by omega
        rw [List.map_map, hlast]
        rfl

section Conversion

variable (udmStrHash32 : CString → ℕ) (noindex : UInt8 → Bool) (urlList : List ℤ) (urlId : ℤ)
  (wordpos : UInt8 → ℕ) (saveSectionSize : Bool)

/-- The postings that the conversion of one column of a document adds to the caches. -/
def convertedPostings (column : List UInt8) : List Posting :=
  (udmBlob2BlobConvertOneColumn udmStrHash32 noindex urlList [(urlId, column)]).map
    fun add => add.2.posting saveSectionSize

/-- The posting of a section record. -/
def recordPosting (r : CString × UInt8 × CString) : List Posting :=
  if noindex r.2.1 then []
  else (udmBlobCacheAdd2 urlId r.2.1 r.1 (udmCoordLen r.2.2.val) r.2.2.val).map
    (UdmBlobCacheWord.posting saveSectionSize)

theorem convertedPostings_eq (hfound : udmURLDataListSearch urlList urlId = true) (column : List UInt8) :
    convertedPostings udmStrHash32 noindex urlList urlId saveSectionSize column =
      (convertWords column).flatMap (recordPosting noindex urlId saveSectionSize) := by
  simp only [convertedPostings, udmBlob2BlobConvertOneColumn, List.flatMap_cons, List.flatMap_nil, hfound,
    Bool.not_true, Bool.false_eq_true, if_false, List.append_nil, List.map_flatMap]
  congr 1
  funext r
  unfold recordPosting
  split
  · rfl
  · rw [List.map_map]
    rfl

/-- A run of occurrences that are packed together and converted. -/
def GoodRun : List UdmWord → Prop
  | [] => False
  | W :: g => IsGroup W g ∧ W.word ≠ CString.empty ∧ W.secno ≠ 0 ∧ noindex W.secno = false ∧
      lastPos W g ≤ wordpos W.secno

/-- The section length of a run can be written. -/
def RunFits : List UdmWord → Prop
  | [] => True
  | W :: g => SeclenFits wordpos saveSectionSize W g

variable {noindex urlId wordpos saveSectionSize}

theorem IsGroup.recordPosting_eq {W : UdmWord} {g : List UdmWord} (h : IsGroup W g) {noindex : UInt8 → Bool}
    {urlId : ℤ} {wordpos : UInt8 → ℕ} {saveSectionSize : Bool} (hurl : urlId ≠ 0)
    (hsec : W.secno ≠ 0) (hindex : noindex W.secno = false) :
    recordPosting noindex urlId saveSectionSize (W.word, W.secno, h.string wordpos saveSectionSize) =
      [⟨W.word, W.secno, (coordsOf wordpos saveSectionSize W g).length,
        udmCoordListMultiUnpack saveSectionSize (h.string wordpos saveSectionSize).val⟩] := by
  have hlen : udmCoordLen (h.string wordpos saveSectionSize).val = (coordsOf wordpos saveSectionSize W g).length :=
    udmCoordLen_flatMap fun _ hd => (h.mem_coordsOf wordpos saveSectionSize hd).2
  have hpos : (coordsOf wordpos saveSectionSize W g).length ≠ 0 := by
    simp [coordsOf]
  simp [recordPosting, hindex, udmBlobCacheAdd2, hurl, hsec, hlen, hpos, UdmBlobCacheWord.posting]

theorem length_coordsOf {W : UdmWord} {g : List UdmWord} (hpos : lastPos W g ≤ wordpos W.secno)
    (hfits : SeclenFits wordpos saveSectionSize W g) :
    (coordsOf wordpos saveSectionSize W g).length = (W :: g).length + if saveSectionSize then 1 else 0 := by
  cases saveSectionSize with
  | false => simp [coordsOf]
  | true =>
    have harg := seclenArg_of_le (hfits rfl)
    have hle := hfits rfl
    simp only [coordsOf, if_true, seclenCoords, harg]
    rw [if_pos ⟨by omega, by omega⟩]
    simp

theorem IsGroup.posting_iff {W : UdmWord} {g : List UdmWord} (h : IsGroup W g) {wordpos : UInt8 → ℕ}
    {saveSectionSize : Bool} (hpos : lastPos W g ≤ wordpos W.secno) :
    (⟨W.word, W.secno, (coordsOf wordpos saveSectionSize W g).length,
        udmCoordListMultiUnpack saveSectionSize (h.string wordpos saveSectionSize).val⟩ : Posting) =
      postingOf wordpos saveSectionSize (W :: g) ↔ SeclenFits wordpos saveSectionSize W g := by
  rw [postingOf, Posting.mk.injEq, h.unpack_iff hpos]
  constructor
  · exact fun heq => heq.2.2.2
  · exact fun hfits => ⟨rfl, rfl, length_coordsOf hpos hfits, hfits⟩

theorem secno_groupOf_ne_zero {gs : List (List UdmWord)} (hgs : ∀ g ∈ gs, GoodRun noindex wordpos g) {r : Group}
    (hr : r ∈ gs.map (groupOf wordpos saveSectionSize)) : r.2.1 ≠ 0 := by
  obtain ⟨x, hx, rfl⟩ := List.mem_map.mp hr
  have hgood := hgs x hx
  cases x with
  | nil => exact absurd hgood (by simp [GoodRun])
  | cons V x => exact hgood.2.2.1

theorem postings_readGroups_iff (hurl : urlId ≠ 0) {gs : List (List UdmWord)}
    (hgs : ∀ g ∈ gs, GoodRun noindex wordpos g) :
    (readGroups (gs.map (groupOf wordpos saveSectionSize))).flatMap (recordPosting noindex urlId saveSectionSize) =
      gs.map (postingOf wordpos saveSectionSize) ↔ ∀ g ∈ gs, RunFits wordpos saveSectionSize g := by
  induction gs with
  | nil => simp [readGroups]
  | cons g gs ih =>
    have hrest : ∀ g ∈ gs, GoodRun noindex wordpos g := fun x hx => hgs x (by simp [hx])
    have hg := hgs g (by simp)
    cases g with
    | nil => exact absurd hg (by simp [GoodRun])
    | cons W g =>
      obtain ⟨hgroup, hword, hsec, hindex, hpos⟩ := hg
      have hposting := @IsGroup.posting_iff W g hgroup wordpos saveSectionSize hpos
      have hrecord := @IsGroup.recordPosting_eq W g hgroup noindex urlId wordpos saveSectionSize hurl hsec hindex
      rw [List.map_cons, List.map_cons, List.forall_mem_cons]
      by_cases hfits : SeclenFits wordpos saveSectionSize W g
      · -- the record is read, and the loops are at the next one
        have hintag : groupOf wordpos saveSectionSize (W :: g) =
            (W.word, W.secno, (hgroup.string wordpos saveSectionSize).val) := by
          rw [groupOf, hgroup.string_eq hpos hfits]
        rw [hintag, readGroups_cons_of_notMem hword fun r hr => secno_groupOf_ne_zero hrest hr, List.flatMap_cons,
          hrecord, hposting.mpr hfits,
          List.singleton_append, List.cons.injEq, ih hrest]
        exact ⟨fun h => ⟨hfits, h.2⟩, fun h => ⟨rfl, h.2⟩⟩
      · -- the record is read wrongly
        obtain ⟨tail, htail⟩ := readGroups_cons (groupOf wordpos saveSectionSize (W :: g))
          (gs.map (groupOf wordpos saveSectionSize))
        have htake := hgroup.take_intagOf wordpos saveSectionSize
          (groupBytes_eq_nil_or hword (gs.map (groupOf wordpos saveSectionSize)))
        rw [htail, List.flatMap_cons]
        simp only [groupOf, htake]
        rw [hrecord, List.singleton_append, List.cons.injEq, hposting]
        exact ⟨fun h => absurd h.1 hfits, fun h => absurd h.1 hfits⟩

theorem map_readGroups {gs : List (List UdmWord)} (hgs : ∀ g ∈ gs, GoodRun noindex wordpos g)
    (hfits : ∀ g ∈ gs, RunFits wordpos saveSectionSize g) :
    (readGroups (gs.map (groupOf wordpos saveSectionSize))).map (fun r => (r.1, r.2.1, r.2.2.val)) =
      gs.map (groupOf wordpos saveSectionSize) := by
  induction gs with
  | nil => rfl
  | cons g gs ih =>
    have hrest : ∀ g ∈ gs, GoodRun noindex wordpos g := fun x hx => hgs x (by simp [hx])
    have hg := hgs g (by simp)
    cases g with
    | nil => exact absurd hg (by simp [GoodRun])
    | cons W g =>
      obtain ⟨hgroup, hword, -, -, hpos⟩ := hg
      have hfitsW : SeclenFits wordpos saveSectionSize W g := hfits (W :: g) (by simp)
      rw [List.map_cons, groupOf, ← hgroup.string_eq hpos hfitsW,
        readGroups_cons_of_notMem hword fun r hr => secno_groupOf_ne_zero hrest hr, List.map_cons,
        ih hrest fun x hx => hfits x (by simp [hx])]

end Conversion

/-- The condition under which all the section lengths of a column can be written. -/
def ColumnFits (wordpos : UInt8 → ℕ) (saveSectionSize : Bool) (words : List UdmWord) : Prop :=
  saveSectionSize = true → ∀ W ∈ words, (∀ V ∈ words, V.key = W.key → V.pos ≤ W.pos) →
    wordpos W.secno + 1 - W.pos ≤ 0x1FFFFF

theorem swbcmp_lt {w1 w2 : UdmWord} (h : swbcmp w1 w2 = .lt) :
    w1.key ≤ w2.key ∧ (w1.key = w2.key → w1.pos < w2.pos) := by
  rw [swbcmp, Ordering.then_eq_lt, Ordering.then_eq_lt] at h
  simp only [strcmp_eq_lt, strcmp_eq_eq, cmp_eq_lt_iff, cmp_eq_eq_iff] at h
  rw [key_eq_iff, UdmWord.key, UdmWord.key, Prod.Lex.toLex_le_toLex]
  obtain hword | ⟨hword, hsec | ⟨hsec, hpos⟩⟩ := h
  · exact ⟨Or.inl hword, fun heq => absurd heq.1 hword.ne⟩
  · exact ⟨Or.inr ⟨hword, hsec.le⟩, fun heq => absurd heq.2 hsec.ne⟩
  · exact ⟨Or.inr ⟨hword, hsec.le⟩, fun _ => hpos⟩

/-- The words of a column, as the indexer sorts them. -/
structure SortedColumn (wordpos : UInt8 → ℕ) (words : List UdmWord) : Prop where
  /-- By word, section and position. -/
  sorted : words.Pairwise fun w1 w2 => swbcmp w1 w2 = .lt
  word : ∀ W ∈ words, W.word ≠ CString.empty
  /-- Section 0 has no words in the index. -/
  secno : ∀ W ∈ words, W.secno ≠ 0
  pos : ∀ W ∈ words, 0 < W.pos
  /-- The counter of the section has given the position. -/
  wordpos : ∀ W ∈ words, W.pos ≤ wordpos W.secno

theorem SortedColumn.run {wordpos : UInt8 → ℕ} {words : List UdmWord} (h : SortedColumn wordpos words)
    {g : List UdmWord} (hg : g ∈ runs UdmWord.key words) :
    ∃ W g', g = W :: g' ∧ W ∈ words ∧ IsGroup W g' ∧ ∀ V, V ∈ g ↔ V ∈ words ∧ V.key = W.key := by
  have hkeys : words.Pairwise fun x y => x.key ≤ y.key := h.sorted.imp fun hlt => (swbcmp_lt hlt).1
  obtain ⟨V, hV, hrun⟩ := (mem_runs_iff UdmWord.key hkeys g).mp hg
  have hmem : ∀ U, U ∈ g ↔ U ∈ words ∧ U.key = V.key := by
    intro U
    simp [hrun]
  cases g with
  | nil => exact absurd ((hmem V).mpr ⟨hV, rfl⟩) (by simp)
  | cons W g' =>
    have hW := (hmem W).mp (by simp)
    refine ⟨W, g', rfl, hW.1, ⟨?_, fun U hU => ((hmem U).mp hU).2.trans hW.2.symm⟩, fun U => ?_⟩
    · -- within a run the order is that of the positions
      have hpair : (W :: g').Pairwise fun x y => x.pos < y.pos := by
        have hsub : (W :: g').Pairwise fun x y => swbcmp x y = .lt := hrun.symm ▸ h.sorted.filter _
        refine hsub.imp_of_mem fun {x y} hx hy hlt => (swbcmp_lt hlt).2 ?_
        exact ((hmem x).mp hx).2.trans ((hmem y).mp hy).2.symm
      rw [List.pairwise_cons, List.pairwise_map]
      refine ⟨fun p hp => ?_, hpair⟩
      obtain ⟨U, hU, rfl⟩ := List.mem_map.mp hp
      exact h.pos U ((hmem U).mp hU).1
    · rw [hmem, hW.2]

theorem IsGroup.le_lastPos {W : UdmWord} {g : List UdmWord} (h : IsGroup W g) {V : UdmWord} (hV : V ∈ W :: g) :
    V.pos ≤ lastPos W g := by
  have hsorted := (List.pairwise_cons.mp h.sorted).2
  have hmem : V.pos ∈ (W :: g).map UdmWord.pos := List.mem_map_of_mem hV
  exact (hsorted.imp le_of_lt).rel_getLast hmem

theorem exists_lastPos (W : UdmWord) (g : List UdmWord) : ∃ V ∈ W :: g, V.pos = lastPos W g :=
  List.mem_map.mp (List.getLast_mem (by simp))

theorem SortedColumn.goodRun {wordpos : UInt8 → ℕ} {words : List UdmWord} (h : SortedColumn wordpos words)
    {noindex : UInt8 → Bool} (hindex : ∀ W ∈ words, noindex W.secno = false) {g : List UdmWord}
    (hg : g ∈ runs UdmWord.key words) : GoodRun noindex wordpos g := by
  obtain ⟨W, g', rfl, hW, hgroup, hmem⟩ := h.run hg
  obtain ⟨V, hV, hpos⟩ := exists_lastPos W g'
  have hVW := (hmem V).mp hV
  refine ⟨hgroup, h.word W hW, h.secno W hW, hindex W hW, ?_⟩
  rw [← hpos, ← ((key_eq_iff V W).mp hVW.2).2]
  exact h.wordpos V hVW.1

theorem SortedColumn.forall_runFits_iff {wordpos : UInt8 → ℕ} {words : List UdmWord}
    (h : SortedColumn wordpos words) (saveSectionSize : Bool) :
    (∀ g ∈ runs UdmWord.key words, RunFits wordpos saveSectionSize g) ↔
      ColumnFits wordpos saveSectionSize words := by
  constructor
  · intro hruns hsave U hU hmax
    obtain ⟨g, hg, hUg⟩ : ∃ g ∈ runs UdmWord.key words, U ∈ g :=
      List.mem_flatten.mp ((flatten_runs UdmWord.key words).symm ▸ hU)
    have hfits := hruns g hg
    obtain ⟨W, g', rfl, -, hgroup, hmem⟩ := h.run hg
    have hkey := ((hmem U).mp hUg).2
    have hlast : lastPos W g' = U.pos := by
      obtain ⟨V, hV, hpos⟩ := exists_lastPos W g'
      have hle := hmax V ((hmem V).mp hV).1 (((hmem V).mp hV).2.trans hkey.symm)
      have hge := hgroup.le_lastPos hUg
      omega
    have hle : wordpos W.secno + 1 - lastPos W g' ≤ 0x1FFFFF := hfits hsave
    rwa [hlast, ← ((key_eq_iff U W).mp hkey).2] at hle
  · intro hcol g hg
    obtain ⟨W, g', rfl, -, hgroup, hmem⟩ := h.run hg
    intro hsave
    obtain ⟨V, hV, hpos⟩ := exists_lastPos W g'
    have hVW := (hmem V).mp hV
    have hle := hcol hsave V hVW.1 fun U hU hkey => hpos ▸ hgroup.le_lastPos ((hmem U).mpr ⟨hU, hkey.trans hVW.2⟩)
    rwa [hpos, ((key_eq_iff V W).mp hVW.2).2] at hle

theorem SortedColumn.encodeWords_eq {wordpos : UInt8 → ℕ} {words : List UdmWord} (h : SortedColumn wordpos words)
    (saveSectionSize : Bool) : encodeWords wordpos saveSectionSize CString.empty 0 0 words =
      groupBytes CString.empty ((runs UdmWord.key words).map (groupOf wordpos saveSectionSize)) := by
  cases words with
  | nil => rfl
  | cons W rest =>
    obtain ⟨g, gs, hruns⟩ := exists_runs_cons UdmWord.key W rest
    have hword := h.word W (by simp)
    rw [Blob.encodeWords_eq _ _ _ _ _ h.secno (hruns W rfl), hruns W rfl]
    simp [groupHead, hword, groupBytes, groupOf]

/-- What the conversion of a column finds is what was packed: the groups of its words, each
once, and no other bytes. -/
structure ColumnFound (wordpos : UInt8 → ℕ) (saveSectionSize : Bool) (words : List UdmWord) (column : List UInt8)
    (found : List Posting) : Prop where
  /-- The groups of the words. -/
  postings : found = (runs UdmWord.key words).map (postingOf wordpos saveSectionSize)
  /-- No word has two groups in one section. -/
  once : found.Pairwise fun p q => ¬ (p.word = q.word ∧ p.secno = q.secno)
  /-- The section records that are read are all the bytes. -/
  bytes : groupBytes CString.empty ((convertWords column).map fun r => (r.1, r.2.1, r.2.2.val)) = column

theorem SortedColumn.pairwise_postings {wordpos : UInt8 → ℕ} {words : List UdmWord}
    (h : SortedColumn wordpos words) (saveSectionSize : Bool) :
    ((runs UdmWord.key words).map (postingOf wordpos saveSectionSize)).Pairwise
      fun p q => ¬ (p.word = q.word ∧ p.secno = q.secno) := by
  have hkeys : words.Pairwise fun x y => x.key ≤ y.key := h.sorted.imp fun hlt => (swbcmp_lt hlt).1
  rw [List.pairwise_map]
  refine (pairwise_runs UdmWord.key hkeys).imp_of_mem fun {g g'} hg hg' hlt => ?_
  obtain ⟨W, r, rfl, -⟩ := h.run hg
  obtain ⟨V, r', rfl, -⟩ := h.run hg'
  intro heq
  have hkey := (key_eq_iff W V).mpr heq
  exact absurd hkey (hlt W (by simp) V (by simp)).ne

theorem columnFound_iff (udmStrHash32 : CString → ℕ) {noindex : UInt8 → Bool} {urlList : List ℤ} {urlId : ℤ}
    {wordpos : UInt8 → ℕ} (saveSectionSize : Bool) {words : List UdmWord} (hurl : urlId ≠ 0)
    (hfound : udmURLDataListSearch urlList urlId = true) (h : SortedColumn wordpos words)
    (hindex : ∀ W ∈ words, noindex W.secno = false) :
    let column := encodeWords wordpos saveSectionSize CString.empty 0 0 words
    ColumnFound wordpos saveSectionSize words column
        (convertedPostings udmStrHash32 noindex urlList urlId saveSectionSize column) ↔
      ColumnFits wordpos saveSectionSize words := by
  intro column
  have hgood : ∀ g ∈ runs UdmWord.key words, GoodRun noindex wordpos g := fun g hg => h.goodRun hindex hg
  have hwords : ∀ r ∈ (runs UdmWord.key words).map (groupOf wordpos saveSectionSize), r.1 ≠ CString.empty := by
    intro r hr
    obtain ⟨g, hg, rfl⟩ := List.mem_map.mp hr
    obtain ⟨W, g', rfl, hW, -⟩ := h.run hg
    exact h.word W hW
  have hread : convertWords column = readGroups ((runs UdmWord.key words).map (groupOf wordpos saveSectionSize)) := by
    rw [show column = _ from h.encodeWords_eq saveSectionSize, convertWords_eq_readGroups hwords]
  have hiff := @postings_readGroups_iff noindex urlId wordpos saveSectionSize hurl _ hgood
  rw [h.forall_runFits_iff] at hiff
  constructor
  · intro hcol
    have hpost := hcol.postings
    rw [convertedPostings_eq _ _ _ _ _ hfound, hread] at hpost
    exact hiff.mp hpost
  · intro hfits
    constructor
    · rw [convertedPostings_eq _ _ _ _ _ hfound, hread]
      exact hiff.mpr hfits
    · rw [convertedPostings_eq _ _ _ _ _ hfound, hread, hiff.mpr hfits]
      exact h.pairwise_postings saveSectionSize
    · rw [hread, map_readGroups hgood ((h.forall_runFits_iff saveSectionSize).mpr hfits)]
      exact (h.encodeWords_eq saveSectionSize).symm

/-- **Packing and converting a document.** The conversion finds in each column the groups of
its words exactly when, with `SaveSectionSize`, the way from the last position of every word
in every section to the section length is not longer than the largest coordinate. -/
theorem udmBlobEncodeBdictiRecord_found_iff (udmStrHash32 : CString → ℕ) {noindex : UInt8 → Bool}
    {urlList : List ℤ} {urlId : ℤ} {wordpos : UInt8 → ℕ} (saveSectionSize : Bool) {wordList : List (List UdmWord)}
    (hurl : urlId ≠ 0) (hfound : udmURLDataListSearch urlList urlId = true)
    (h : ∀ words ∈ wordList, SortedColumn wordpos words)
    (hindex : ∀ words ∈ wordList, ∀ W ∈ words, noindex W.secno = false) :
    List.Forall₂ (fun words column => ColumnFound wordpos saveSectionSize words column
        (convertedPostings udmStrHash32 noindex urlList urlId saveSectionSize column))
      wordList (udmBlobEncodeBdictiRecord wordpos saveSectionSize wordList) ↔
        ∀ words ∈ wordList, ColumnFits wordpos saveSectionSize words := by
  rw [udmBlobEncodeBdictiRecord, List.forall₂_map_right_iff, List.forall₂_same]
  constructor
  · intro hall words hw
    exact (columnFound_iff udmStrHash32 saveSectionSize hurl hfound (h words hw) (hindex words hw)).mp (hall words hw)
  · intro hall words hw
    exact (columnFound_iff udmStrHash32 saveSectionSize hurl hfound (h words hw) (hindex words hw)).mpr (hall words hw)

/-- The word `a`. -/
def wordA : CString := ⟨[0x61], zero_notMem_a⟩

/-- A word that occurs twice in a section of three words. -/
def twoOccurrences : List UdmWord := [⟨wordA, 1, 1, by decide⟩, ⟨wordA, 3, 1, by decide⟩]

theorem sortedColumn_twoOccurrences : SortedColumn (fun _ => 3) twoOccurrences := by
  constructor
  · simp [twoOccurrences, swbcmp, strcmp, cmp, cmpUsing]
  · simp [twoOccurrences, wordA, CString.empty]
  · simp [twoOccurrences]
  · simp [twoOccurrences]
  · simp [twoOccurrences]

/-- A document with one word, and 31 empty columns. -/
theorem udmBlobEncodeBdictiRecord_found_twoOccurrences :
    List.Forall₂ (fun words column => ColumnFound (fun _ => 3) true words column
        (convertedPostings (fun _ => 0) (fun _ => false) [7] 7 true column))
      (twoOccurrences :: List.replicate 31 [])
      (udmBlobEncodeBdictiRecord (fun _ => 3) true (twoOccurrences :: List.replicate 31 [])) ↔
        ∀ words ∈ twoOccurrences :: List.replicate 31 [], ColumnFits (fun _ => 3) true words := by
  refine udmBlobEncodeBdictiRecord_found_iff (fun _ => 0) true (by decide) (by decide) ?_ (by simp)
  intro words hw
  rw [List.mem_cons, List.mem_replicate] at hw
  obtain rfl | ⟨-, rfl⟩ := hw
  · exact sortedColumn_twoOccurrences
  · exact ⟨by simp, by simp, by simp, by simp, by simp⟩

/-- A word that occurs once, at the beginning of a section of three million words: the
section length is not written. -/
theorem udmBlobEncodeBdictiRecord_long_section :
    ¬ ∀ (udmStrHash32 : CString → ℕ) (noindex : UInt8 → Bool) (urlList : List ℤ) (urlId : ℤ) (wordpos : UInt8 → ℕ)
        (saveSectionSize : Bool) (wordList : List (List UdmWord)),
      urlId ≠ 0 → udmURLDataListSearch urlList urlId = true → (∀ words ∈ wordList, SortedColumn wordpos words) →
        (∀ words ∈ wordList, ∀ W ∈ words, noindex W.secno = false) →
          List.Forall₂ (fun words column => ColumnFound wordpos saveSectionSize words column
              (convertedPostings udmStrHash32 noindex urlList urlId saveSectionSize column))
            wordList (udmBlobEncodeBdictiRecord wordpos saveSectionSize wordList) := by
  intro h
  have hsorted : SortedColumn (fun _ => 3000000) [⟨wordA, 1, 1, by decide⟩] :=
    ⟨by simp, by simp [wordA, CString.empty], by simp, by simp, by simp⟩
  have hfound := h (fun _ => 0) (fun _ => false) [7] 7 (fun _ => 3000000) true [[⟨wordA, 1, 1, by decide⟩]]
    (by decide) (by decide) (by simpa using hsorted) (by simp)
  rw [udmBlobEncodeBdictiRecord, List.forall₂_map_right_iff, List.forall₂_same] at hfound
  have hfits := (columnFound_iff (fun _ => 0) true (by decide) (by decide) hsorted (by simp)).mp
    (hfound _ (by simp))
  have hle := hfits rfl ⟨wordA, 1, 1, by decide⟩ (by simp) (by simp)
  simp at hle

end MnoGoSearch.Blob
