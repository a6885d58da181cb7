import MnoGoSearch.Dict.Single
import MnoGoSearch.Blob.RawBlob
import Mathlib

/-!
# Words in many tables

In the mode `multi` (`dbmode-multi.c`, `wordcache.c`) the positions of a word in a section of a document are one row,
packed as coordinates; the hash of the word gives its table. The section length is the last coordinate of each row, and
a search takes it from there, row by row (`exists_udmFindWordMulti`).
-/

namespace MnoGoSearch.Dict

open Lib.PrefixCode Lib.Runs Lib.Sorting Words Score Limits Blob

/-! ### The tables -/

/-- `UDM_WORD_CACHE_WORD`. -/
structure UdmWordCacheWord where
  seed : ℕ
  secno : UInt8
  urlId : ℤ
  word : CString
  /-- Its position in the section. -/
  pos : ℕ

/-- What the words of one row have in common, in the order of `wccmpwrd`. -/
def UdmWordCacheWord.key (w : UdmWordCacheWord) : ℕ ×ₗ UInt8 ×ₗ ℤ ×ₗ CString :=
  toLex (w.seed, toLex (w.secno, toLex (w.urlId, w.word)))

theorem UdmWordCacheWord.key_eq_iff (v w : UdmWordCacheWord) :
    v.key = w.key ↔ v.seed = w.seed ∧ v.secno = w.secno ∧ v.urlId = w.urlId ∧ v.word = w.word := by
  simp only [UdmWordCacheWord.key, EmbeddingLike.apply_eq_iff_eq, Prod.mk.injEq]

/-- The order of `wccmpwrd`. -/
def WcLe (w1 w2 : UdmWordCacheWord) : Prop := toLex (w1.key, w1.pos) ≤ toLex (w2.key, w2.pos)

instance : DecidableRel WcLe := fun w1 w2 =>
  inferInstanceAs (Decidable (toLex (w1.key, w1.pos) ≤ toLex (w2.key, w2.pos)))

/-- `UdmWordCacheAdd`. -/
def cacheWord (udmStrHash32 : CString → ℕ) (urlId : ℤ) (W : UdmWord) : UdmWordCacheWord :=
  ⟨udmStrHash32 W.word &&& 0xff, W.secno, urlId, W.word, W.pos &&& 0x1FFFFF⟩

/-- The loop of `UdmMultiCachePutIntagUsingRaw`, behind the position `last`. -/
def putIntagLoop : ℕ → List ℕ → Option (List UInt8)
  | _, [] => some []
  | last, intag :: intags =>
    if intag < last then none
    else
      let buf := udmCoordPut (intag - last)
      if buf = [] then none else (putIntagLoop intag intags).map fun s => buf ++ s

/-- `UdmMultiCachePutIntagUsingRaw`; the other encodings write the same bytes in hexadecimal digits. -/
def udmMultiCachePutIntag (intags : List ℕ) : Option (List UInt8) :=
  if intags = [] then none else putIntagLoop 0 intags

/-- A row of a table. -/
structure MultiRow where
  seed : ℕ
  urlId : ℤ
  secno : UInt8
  word : CString
  intag : List UInt8

/-- A row of words that are next to each other in the sorted cache. Bound as a parameter, the coordinates end at a
NUL. -/
def multiRow (bind : Bool) : List UdmWordCacheWord → Option MultiRow
  | [] => none
  | w :: ws =>
    (udmMultiCachePutIntag ((w :: ws).map UdmWordCacheWord.pos)).map fun intag =>
      ⟨w.seed, w.urlId, w.secno, w.word, if bind then (CString.take intag).val else intag⟩

/-- `UdmWordCacheWrite`. -/
def udmWordCacheWrite (wcSort : QSort WcLe) (bind : Bool) (cache : List UdmWordCacheWord) : List MultiRow :=
  (runs UdmWordCacheWord.key (wcSort.sort cache)).filterMap (multiRow bind)

/-- `UdmStoreWordsMulti`, and the cache is written. -/
def udmStoreWordsMulti (wlSort : QSort WlLe) (wcSort : QSort WcLe) (udmStrHash32 : CString → ℕ) (bind : Bool)
    (saveSectionSize : Bool) (urlId : ℤ) (d : DocWords) : List MultiRow :=
  udmWordCacheWrite wcSort bind ((storedWords wlSort saveSectionSize d).map (cacheWord udmStrHash32 urlId))

/-! ### Searching -/

/-- One row in `UdmMultiAddCoords`. -/
def addRow (saveSectionSize : Bool) (wf : ℕ → ℕ) (Word : SearchWord) (CoordList : List UdmUrlCrd) (row : MultiRow) :
    Option (List UdmUrlCrd) :=
  if wf row.secno.toNat ≠ 0 then
    unpackInto saveSectionSize ⟨row.urlId, 0, 0, Word.order &&& 0xFF, row.secno.toNat⟩ CoordList row.intag
  else some CoordList

/-- `UdmMultiAddCoords`. -/
def udmMultiAddCoords (saveSectionSize : Bool) (wf : ℕ → ℕ) (urls : UdmURLIdList) (Word : SearchWord)
    (rows : List MultiRow) : Option (List UdmUrlCrd) :=
  (rows.foldlM (addRow saveSectionSize wf Word) []).map (udmApplyFastLimit urls)

/-- The tables to search in, from `tmin` to `tmax`. -/
def searchTables (udmStrHash32 : CString → ℕ) (Word : SearchWord) : List ℕ :=
  if Word.wordMatch ≠ .full then List.range 256 else [udmStrHash32 Word.word &&& 0xff]

/-- The rows of a table that the query gives. -/
def selectRows (Word : SearchWord) (tnum : ℕ) (rows : List MultiRow) : List MultiRow :=
  rows.filter fun row =>
    row.seed = tnum && (Word.cmparg row.word && (Word.secno = 0 || Word.secno = row.secno.toNat))

/-- `UdmFindWordMulti`: the coords of all tables. -/
def udmFindWordMulti (udmStrHash32 : CString → ℕ) (saveSectionSize : Bool) (wf : ℕ → ℕ) (urls : UdmURLIdList)
    (rows : List MultiRow) (Word : SearchWord) : Option (List UdmUrlCrd) :=
  (searchTables udmStrHash32 Word).foldlM
    (fun found tnum => (udmMultiAddCoords saveSectionSize wf urls Word (selectRows Word tnum rows)).map (found ++ ·)) []

/-! ### The coordinates of a row -/

theorem putIntagLoop_eq {p : ℕ} {l : List ℕ} (h : (p :: l).Pairwise (· ≤ ·)) (hl : ∀ x ∈ l, x ≤ 0x1FFFFF) :
    putIntagLoop p l = some ((deltas p l).flatMap udmCoordPut) := by
  induction l generalizing p with
  | nil => rfl
  | cons x l ih =>
    obtain ⟨hp, htail⟩ := List.pairwise_cons.mp h
    have hpx : p ≤ x := hp x List.mem_cons_self
    have hx : x ≤ 0x1FFFFF := hl x List.mem_cons_self
    have hne : udmCoordPut (x - p) ≠ [] := coordCode.ne_nil (by unfold CoordValid; omega)
    rw [putIntagLoop, if_neg (by omega)]
    simp only
    rw [if_neg hne, ih htail fun y hy => hl y (List.mem_cons_of_mem _ hy), Option.map_some, deltas, List.flatMap_cons]

/-- The words of a row. -/
structure RowWords (g : List UdmWordCacheWord) : Prop where
  ne_nil : g ≠ []
  /-- Their positions ascend from 1 on. -/
  sorted : (0 :: g.map UdmWordCacheWord.pos).Pairwise (· < ·)
  pos_le : ∀ w ∈ g, w.pos ≤ 0x1FFFFF
  /-- They have everything else in common. -/
  key : ∀ v ∈ g, ∀ w ∈ g, v.key = w.key

/-- The differences of the positions. -/
def coordsOfRow (g : List UdmWordCacheWord) : List ℕ := deltas 0 (g.map UdmWordCacheWord.pos)

variable {g : List UdmWordCacheWord} {w : UdmWordCacheWord}

theorem RowWords.coords_ne_nil (h : RowWords g) : coordsOfRow g ≠ [] := by
  intro hnil
  have hlen := congrArg List.length hnil
  rw [coordsOfRow, length_deltas, List.length_map, List.length_nil] at hlen
  exact h.ne_nil (List.eq_nil_of_length_eq_zero hlen)

theorem RowWords.coords (h : RowWords g) {c : ℕ} (hc : c ∈ coordsOfRow g) : 0 < c ∧ CoordValid c := by
  obtain ⟨hpos, x, hx, hle⟩ := mem_deltas h.sorted hc
  obtain ⟨w, hw, rfl⟩ := List.mem_map.mp hx
  have hsmall := h.pos_le w hw
  exact ⟨hpos, by unfold CoordValid; omega⟩

/-- The row that is written. -/
def rowOf (w : UdmWordCacheWord) (g : List UdmWordCacheWord) : MultiRow :=
  ⟨w.seed, w.urlId, w.secno, w.word, (coordsOfRow g).flatMap udmCoordPut⟩

/-- **A row has all positions**, however it is written. -/
theorem RowWords.multiRow_eq {ws : List UdmWordCacheWord} (h : RowWords (w :: ws))
    (bind : Bool) : multiRow bind (w :: ws) = some (rowOf w (w :: ws)) := by
  have hle : ∀ x ∈ (w :: ws).map UdmWordCacheWord.pos, x ≤ 0x1FFFFF := by
    intro x hx
    obtain ⟨v, hv, rfl⟩ := List.mem_map.mp hx
    exact h.pos_le v hv
  have hput : udmMultiCachePutIntag ((w :: ws).map UdmWordCacheWord.pos) =
      some ((coordsOfRow (w :: ws)).flatMap udmCoordPut) := by
    rw [udmMultiCachePutIntag, if_neg (by simp), putIntagLoop_eq (h.sorted.imp le_of_lt) hle, coordsOfRow]
  have hnul : (0 : UInt8) ∉ (coordsOfRow (w :: ws)).flatMap udmCoordPut :=
    zero_notMem_flatMap fun c hc => (h.coords hc).1
  have htake : (CString.take ((coordsOfRow (w :: ws)).flatMap udmCoordPut)).val =
      (coordsOfRow (w :: ws)).flatMap udmCoordPut :=
    congrArg Subtype.val (CString.take_val ⟨_, hnul⟩)
  rw [multiRow, hput, Option.map_some, htake, ite_self, rowOf]

/-- A word of the cache as a coord. -/
def cacheCrd (Word : SearchWord) (w : UdmWordCacheWord) : UdmUrlCrd :=
  ⟨w.urlId, 0, w.pos, Word.order &&& 0xFF, w.secno.toNat⟩

/-- What a search makes of a row: with `SaveSectionSize` the last coord is the length of the section. -/
def rowFound (saveSectionSize : Bool) (Word : SearchWord) (g : List UdmWordCacheWord) : List UdmUrlCrd :=
  if saveSectionSize then closeSection (g.map (cacheCrd Word)) else g.map (cacheCrd Word)

/-- **What a search makes of a row.** -/
theorem RowWords.coordsWith_eq (h : RowWords g) (hw : w ∈ g) (saveSectionSize : Bool)
    (Word : SearchWord) :
    coordsWith saveSectionSize ⟨w.urlId, 0, 0, Word.order &&& 0xFF, w.secno.toNat⟩
      ((coordsOfRow g).flatMap udmCoordPut) = rowFound saveSectionSize Word g := by
  have hpos : (sums 0 (coordsOfRow g)).map (fun last => last % 2 ^ 32) = g.map UdmWordCacheWord.pos := by
    rw [coordsOfRow, sums_deltas (h.sorted.imp le_of_lt), List.map_map]
    refine List.map_congr_left fun v hv => Nat.mod_eq_of_lt ?_
    have hle := h.pos_le v hv
    omega
  have hcrd : ∀ v ∈ g, cacheCrd Word v = ⟨w.urlId, 0, v.pos, Word.order &&& 0xFF, w.secno.toNat⟩ := by
    intro v hv
    obtain ⟨-, hsec, hurl, -⟩ := (v.key_eq_iff w).mp (h.key v hv w hw)
    rw [cacheCrd, hsec, hurl]
  rw [coordsWith, udmCoordListMultiUnpack_flatMap _ fun c hc => (h.coords hc).2]
  simp only [hpos, rowFound]
  cases saveSectionSize with
  | false =>
    simp only [Bool.false_eq_true, if_false, List.map_map]
    exact List.map_congr_left fun v hv => (hcrd v hv).symm
  | true =>
    obtain ⟨P, x, rfl⟩ : ∃ P x, g = P ++ [x] := ⟨_, _, (List.dropLast_append_getLast h.ne_nil).symm⟩
    have hx := hcrd x (by simp)
    simp only [if_true, List.map_append, List.map_cons, List.map_nil, closeSection_concat, List.dropLast_concat,
      List.getLastD_concat, List.map_map]
    refine List.map_congr_left fun v hv => ?_
    simp only [Function.comp, hcrd v (List.mem_append_left _ hv), hx]

/-! ### What a search finds -/

section Search

variable {udmStrHash32 : CString → ℕ} {saveSectionSize : Bool} {wf : ℕ → ℕ} {urls : UdmURLIdList}
variable {wlSort : QSort WlLe} {wcSort : QSort WcLe} {urlId : ℤ} {d : DocWords} {row : MultiRow}

/-- A row that can be read. -/
structure MultiRow.Written (udmStrHash32 : CString → ℕ) (row : MultiRow) : Prop where
  /-- It is in the table of its word. -/
  seed : row.seed = udmStrHash32 row.word &&& 0xff
  /-- Its coordinates are numbers. -/
  intag : ∃ coords : List ℕ, coords ≠ [] ∧ (∀ c ∈ coords, CoordValid c) ∧ row.intag = coords.flatMap udmCoordPut

/-- The coords of a row, if its section is wanted. -/
def rowCoords (saveSectionSize : Bool) (wf : ℕ → ℕ) (Word : SearchWord) (row : MultiRow) : List UdmUrlCrd :=
  if wf row.secno.toNat ≠ 0 then
    coordsWith saveSectionSize ⟨row.urlId, 0, 0, Word.order &&& 0xFF, row.secno.toNat⟩ row.intag
  else []

theorem MultiRow.Written.addRow_eq (h : row.Written udmStrHash32) (Word : SearchWord)
    (CoordList : List UdmUrlCrd) :
    addRow saveSectionSize wf Word CoordList row = some (CoordList ++ rowCoords saveSectionSize wf Word row) := by
  obtain ⟨coords, hne, hvalid, hintag⟩ := h.intag
  rw [addRow, rowCoords]
  split
  · rw [hintag, unpackInto_flatMap hne hvalid]
  · rw [List.append_nil]

theorem udmApplyFastLimit_flatMap {α : Type} (l : List α) (f : α → List UdmUrlCrd) :
    (l.flatMap fun a => udmApplyFastLimit urls (f a)) = udmApplyFastLimit urls (l.flatMap f) := by
  rw [udmApplyFastLimit, List.filter_flatMap]
  rfl

/-- The row has the words that the query gives. -/
def selects (Word : SearchWord) (row : MultiRow) : Bool :=
  Word.cmparg row.word && (Word.secno = 0 || Word.secno = row.secno.toNat)

theorem MultiRow.Written.mem_searchTables (h : row.Written udmStrHash32) {Word : SearchWord}
    (hsel : selects Word row = true) : row.seed ∈ searchTables udmStrHash32 Word := by
  rw [searchTables, h.seed]
  split
  · exact List.mem_range.mpr (Nat.lt_succ_of_le Nat.and_le_right)
  · rename_i hfull
    rw [not_not] at hfull
    have hword : row.word = Word.word := by
      have hcmp := (Bool.and_eq_true_iff.mp hsel).1
      simpa only [SearchWord.cmparg, hfull, decide_eq_true_eq] using hcmp
    rw [hword]
    exact List.mem_singleton_self _

theorem exists_udmFindWordMulti_rows {rows : List MultiRow} (hrows : ∀ row ∈ rows, row.Written udmStrHash32)
    (Word : SearchWord) :
    ∃ found, udmFindWordMulti udmStrHash32 saveSectionSize wf urls rows Word = some found ∧
      found.Perm (udmApplyFastLimit urls
        ((rows.filter (selects Word)).flatMap (rowCoords saveSectionSize wf Word))) := by
  have htable : ∀ tnum, udmMultiAddCoords saveSectionSize wf urls Word (selectRows Word tnum rows) =
      some (udmApplyFastLimit urls ((selectRows Word tnum rows).flatMap (rowCoords saveSectionSize wf Word))) := by
    intro tnum
    have hadd : ∀ row ∈ selectRows Word tnum rows, ∀ acc, addRow saveSectionSize wf Word acc row =
        some (acc ++ rowCoords saveSectionSize wf Word row) := fun row hrow acc =>
      (hrows row (List.mem_filter.mp hrow).1).addRow_eq Word acc
    rw [udmMultiAddCoords, foldlM_append hadd, Option.map_some, List.nil_append]
  have hselect : ∀ tnum, selectRows Word tnum rows =
      (rows.filter (selects Word)).filter fun row => row.seed = tnum := by
    intro tnum
    rw [selectRows, List.filter_filter]
    rfl
  have hnodup : (searchTables udmStrHash32 Word).Nodup := by
    rw [searchTables]
    split
    · exact List.nodup_range
    · exact List.nodup_singleton _
  have hmem : ∀ row ∈ rows.filter (selects Word), row.seed ∈ searchTables udmStrHash32 Word := by
    intro row hrow
    obtain ⟨hrow, hsel⟩ := List.mem_filter.mp hrow
    exact (hrows row hrow).mem_searchTables hsel
  have hfound : udmFindWordMulti udmStrHash32 saveSectionSize wf urls rows Word =
      some ([] ++ (searchTables udmStrHash32 Word).flatMap fun tnum =>
        udmApplyFastLimit urls ((selectRows Word tnum rows).flatMap (rowCoords saveSectionSize wf Word))) :=
    foldlM_append (fun tnum _ acc => by rw [htable, Option.map_some]) []
  refine ⟨_, hfound, ?_⟩
  rw [List.nil_append, udmApplyFastLimit_flatMap, ← List.flatMap_assoc]
  refine List.Perm.filter _ (List.Perm.flatMap_right _ ?_)
  simp only [hselect]
  exact perm_flatMap_filter hnodup MultiRow.seed hmem

/-- A word of the cache is found. -/
def SearchWord.finds (wf : ℕ → ℕ) (Word : SearchWord) (w : UdmWordCacheWord) : Bool :=
  Word.cmparg w.word && Word.wants wf w.secno.toNat

theorem RowWords.found (bind : Bool) {gs : List (List UdmWordCacheWord)} (hgs : ∀ g ∈ gs, RowWords g)
    (hseed : ∀ g ∈ gs, ∀ w ∈ g, w.seed = udmStrHash32 w.word &&& 0xff) (Word : SearchWord) :
    (∀ row ∈ gs.filterMap (multiRow bind), row.Written udmStrHash32) ∧
      ((gs.filterMap (multiRow bind)).filter (selects Word)).flatMap (rowCoords saveSectionSize wf Word) =
        (gs.filter fun g => g.all (Word.finds wf)).flatMap (rowFound saveSectionSize Word) := by
  induction gs with
  | nil => exact ⟨by simp, rfl⟩
  | cons g gs ih =>
    obtain ⟨hg, hrest⟩ := List.forall_mem_cons.mp hgs
    obtain ⟨hgseed, hrestseed⟩ := List.forall_mem_cons.mp hseed
    obtain ⟨ihwritten, ihfound⟩ := ih hrest hrestseed
    cases g with
    | nil => exact absurd rfl hg.ne_nil
    | cons w ws =>
      rw [List.filterMap_cons_some (hg.multiRow_eq bind)]
      refine ⟨List.forall_mem_cons.mpr ⟨⟨hgseed w List.mem_cons_self, _, hg.coords_ne_nil,
        fun c hc => (hg.coords hc).2, rfl⟩, ihwritten⟩, ?_⟩
      -- the words of a row are found together
      have hall : (w :: ws).all (Word.finds wf) = Word.finds wf w := by
        rw [Bool.eq_iff_iff, List.all_eq_true]
        refine ⟨fun h => h w List.mem_cons_self, fun h v hv => ?_⟩
        obtain ⟨-, hsec, -, hword⟩ := (v.key_eq_iff w).mp (hg.key v hv w List.mem_cons_self)
        rw [SearchWord.finds, hsec, hword]
        exact h
      have hcoords : wf w.secno.toNat ≠ 0 →
          rowCoords saveSectionSize wf Word (rowOf w (w :: ws)) = rowFound saveSectionSize Word (w :: ws) := by
        intro hwf
        refine (if_pos ?_).trans (hg.coordsWith_eq List.mem_cons_self saveSectionSize Word)
        exact hwf
      have hfinds : Word.finds wf w = (selects Word (rowOf w (w :: ws)) && decide (wf w.secno.toNat ≠ 0)) := by
        simp only [SearchWord.finds, SearchWord.wants, selects, rowOf]
        rw [Bool.and_comm (decide _) (_ || _), Bool.and_assoc]
        rfl
      by_cases hsel : selects Word (rowOf w (w :: ws)) = true
      · rw [List.filter_cons_of_pos hsel, List.flatMap_cons, ihfound]
        by_cases hwf : wf w.secno.toNat = 0
        · have hnil : rowCoords saveSectionSize wf Word (rowOf w (w :: ws)) = [] := if_neg (not_not.mpr hwf)
          rw [hnil, List.nil_append, List.filter_cons_of_neg]
          rw [hall, hfinds, hsel]
          simp [hwf]
        · rw [hcoords hwf, List.filter_cons_of_pos, List.flatMap_cons]
          rw [hall, hfinds, hsel]
          simp [hwf]
      · rw [List.filter_cons_of_neg hsel, ihfound, List.filter_cons_of_neg]
        rw [hall, hfinds, Bool.eq_false_iff.mpr hsel]
        simp

/-! ### The rows of a document -/

/-- The sorted cache. -/
def sortedCache (wlSort : QSort WlLe) (wcSort : QSort WcLe) (udmStrHash32 : CString → ℕ) (saveSectionSize : Bool)
    (urlId : ℤ) (d : DocWords) : List UdmWordCacheWord :=
  wcSort.sort ((storedWords wlSort saveSectionSize d).map (cacheWord udmStrHash32 urlId))

theorem pairwise_sortedCache :
    (sortedCache wlSort wcSort udmStrHash32 saveSectionSize urlId d).Pairwise fun v w => v.key ≤ w.key := by
  refine (wcSort.sorted _).imp fun hle => ?_
  rcases (Prod.Lex.toLex_le_toLex).mp hle with hlt | ⟨heq, -⟩
  · exact hlt.le
  · exact heq.le

theorem nodup_storedWords (wlSort : QSort WlLe) (saveSectionSize : Bool) (d : DocWords) :
    (storedWords wlSort saveSectionSize d).Nodup := by
  refine List.Nodup.filter _ ?_
  split
  · exact nodup_udmWordListSaveSectionSize wlSort d
  · exact d.nodup

theorem pos_of_mem_storedWords {W : UdmWord} (h : W ∈ storedWords wlSort saveSectionSize d) : 0 < W.pos := by
  have hmem := (List.mem_filter.mp h).1
  split at hmem
  · exact (mem_udmWordListSaveSectionSize hmem).1
  · exact d.pos_pos W hmem

theorem pos_cacheWord (udmStrHash32 : CString → ℕ) (urlId : ℤ) (W : UdmWord) :
    (cacheWord udmStrHash32 urlId W).pos = W.pos := by
  have hle := W.pos_le
  have hmask : W.pos &&& 0x1FFFFF = W.pos % 2 ^ 21 := Nat.and_two_pow_sub_one_eq_mod _ 21
  rw [cacheWord, hmask]
  exact Nat.mod_eq_of_lt (by omega)

theorem eq_of_cacheWord {V W : UdmWord}
    (hkey : (cacheWord udmStrHash32 urlId V).key = (cacheWord udmStrHash32 urlId W).key) (hpos : V.pos = W.pos) :
    V = W := by
  obtain ⟨-, hsec, -, hword⟩ := (UdmWordCacheWord.key_eq_iff _ _).mp hkey
  simp only [cacheWord] at hsec hword
  cases V
  cases W
  simp only at hsec hword hpos
  subst hsec hword hpos
  rfl

theorem rowWords_of_mem_runs {g : List UdmWordCacheWord}
    (hg : g ∈ runs UdmWordCacheWord.key (sortedCache wlSort wcSort udmStrHash32 saveSectionSize urlId d)) :
    RowWords g ∧ ∀ w ∈ g, w.seed = udmStrHash32 w.word &&& 0xff := by
  have hsub : ∀ w ∈ g, ∃ W ∈ storedWords wlSort saveSectionSize d, cacheWord udmStrHash32 urlId W = w := by
    intro w hw
    have hmem := (List.mem_flatten.mpr ⟨g, hg, hw⟩ : w ∈ (runs UdmWordCacheWord.key _).flatten)
    rw [flatten_runs] at hmem
    exact List.mem_map.mp ((wcSort.perm _).mem_iff.mp hmem)
  have hkey : ∀ v ∈ g, ∀ w ∈ g, v.key = w.key := fun v hv w hw => key_eq_of_mem_runs _ hg hv hw
  have hlt : g.Pairwise fun v w => v.pos < w.pos := by
    have hsublist : g.Sublist (sortedCache wlSort wcSort udmStrHash32 saveSectionSize urlId d) := by
      obtain ⟨w, -, rfl⟩ := (mem_runs_iff _ pairwise_sortedCache g).mp hg
      exact List.filter_sublist
    have hnodup : (sortedCache wlSort wcSort udmStrHash32 saveSectionSize urlId d).Nodup := by
      refine (wcSort.perm _).nodup_iff.mpr (List.Nodup.map ?_ (nodup_storedWords wlSort saveSectionSize d))
      intro V W heq
      refine eq_of_cacheWord (congrArg UdmWordCacheWord.key heq) ?_
      rw [← pos_cacheWord udmStrHash32 urlId V, heq, pos_cacheWord]
    have hboth := (((wcSort.sorted _).and hnodup).sublist hsublist).imp_of_mem
      (S := fun v w => v.pos < w.pos) fun {v w} hv hw hvw => ?_
    · exact hboth
    · obtain ⟨V, -, rfl⟩ := hsub v hv
      obtain ⟨W, -, rfl⟩ := hsub w hw
      have hsame := hkey _ hv _ hw
      refine lt_of_le_of_ne ?_ fun hpos => hvw.2 ?_
      · rcases (Prod.Lex.toLex_le_toLex).mp hvw.1 with hlt | ⟨-, hle⟩
        · exact absurd hsame hlt.ne
        · exact hle
      · rw [pos_cacheWord, pos_cacheWord] at hpos
        rw [eq_of_cacheWord hsame hpos]
  refine ⟨⟨ne_nil_of_mem_runs _ hg, ?_, fun w hw => ?_, hkey⟩, fun w hw => ?_⟩
  · refine List.pairwise_cons.mpr ⟨fun p hp => ?_, List.pairwise_map.mpr hlt⟩
    obtain ⟨w, hw, rfl⟩ := List.mem_map.mp hp
    obtain ⟨W, hW, rfl⟩ := hsub w hw
    rw [pos_cacheWord]
    exact pos_of_mem_storedWords hW
  · obtain ⟨W, -, rfl⟩ := hsub w hw
    rw [pos_cacheWord]
    exact W.pos_le
  · obtain ⟨W, -, rfl⟩ := hsub w hw
    rfl

/-- **What a search finds**: the rows of the words that are found, each without its last coord. -/
theorem exists_udmFindWordMulti (bind : Bool) (Word : SearchWord) :
    ∃ found, udmFindWordMulti udmStrHash32 saveSectionSize wf urls
        (udmStoreWordsMulti wlSort wcSort udmStrHash32 bind saveSectionSize urlId d) Word = some found ∧
      found.Perm (udmApplyFastLimit urls
        ((runs UdmWordCacheWord.key ((sortedCache wlSort wcSort udmStrHash32 saveSectionSize urlId d).filter
          (Word.finds wf))).flatMap (rowFound saveSectionSize Word))) := by
  obtain ⟨hwritten, hcoords⟩ := @RowWords.found udmStrHash32 saveSectionSize wf bind _
    (fun g hg => (@rowWords_of_mem_runs udmStrHash32 saveSectionSize wlSort wcSort urlId d g hg).1)
    (fun g hg => (rowWords_of_mem_runs hg).2) Word
  obtain ⟨found, hfound, hperm⟩ := @exists_udmFindWordMulti_rows udmStrHash32 saveSectionSize wf urls _ hwritten Word
  refine ⟨found, hfound, hperm.trans ?_⟩
  rw [hcoords, runs_filter pairwise_sortedCache]
  intro v _ w _ hkey
  obtain ⟨-, hsec, -, hword⟩ := (v.key_eq_iff w).mp hkey
  rw [SearchWord.finds, SearchWord.finds, hsec, hword]

end Search

end MnoGoSearch.Dict
