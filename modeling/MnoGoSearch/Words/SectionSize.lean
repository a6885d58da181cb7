import MnoGoSearch.Words.WordList
import MnoGoSearch.Lib.Sorting

/-!
# Section lengths in the word list

The words of a document with the counters that have given them their positions (`DocWords`), and the words that
`UdmWordListSaveSectionSize` (`word.c`) adds to them: each word gets one more occurrence in each of its sections, behind
the last position of the section. `udmWordListSaveSectionSize_spec` says that these are new ones.
-/

namespace MnoGoSearch.Words

open Lib.Sorting

/-- `Doc->Words` and `Doc->CrossWords.wordpos`. -/
structure DocWords where
  words : List UdmWord
  /-- The last position given in a section. -/
  wordpos : UInt8 → ℕ
  /-- No position of a section is given twice. -/
  nodup : words.Nodup
  pos_pos : ∀ W ∈ words, 0 < W.pos
  /-- The counter has given them. -/
  pos_le_wordpos : ∀ W ∈ words, W.pos ≤ wordpos W.secno

/-- A document without words. -/
def DocWords.empty : DocWords := ⟨[], fun _ => 0, List.nodup_nil, by simp, by simp⟩

/-- The counter of a section is moved on. -/
def DocWords.count (wordpos : UInt8 → ℕ) (secno : UInt8) : UInt8 → ℕ :=
  fun s => if s = secno then wordpos s + 1 else wordpos s

theorem DocWords.le_count (wordpos : UInt8 → ℕ) (secno s : UInt8) : wordpos s ≤ count wordpos secno s := by
  unfold count
  split <;> omega

/-- A word that is not indexed takes a position. -/
def DocWords.skip (d : DocWords) (secno : UInt8) : DocWords where
  words := d.words
  wordpos := count d.wordpos secno
  nodup := d.nodup
  pos_pos := d.pos_pos
  pos_le_wordpos W hW := (d.pos_le_wordpos W hW).trans (le_count _ _ _)

variable {W : UdmWord} {wordpos : UInt8 → ℕ}

theorem mem_udmWordListAddEx {words : List UdmWord} {word : CString} {secno : UInt8} {wordpos : ℕ} :
    W ∈ udmWordListAddEx words word secno wordpos ↔
      W ∈ words ∨ W.word = word ∧ W.secno = secno ∧ W.pos = wordpos := by
  unfold udmWordListAddEx
  split
  · rw [List.mem_append, List.mem_singleton]
    refine or_congr_right ⟨?_, ?_⟩
    · rintro rfl
      exact ⟨rfl, rfl, rfl⟩
    · obtain ⟨w, p, s, hp⟩ := W
      rintro ⟨rfl, rfl, rfl⟩
      rfl
  · rename_i hlarge
    refine (or_iff_left ?_).symm
    rintro ⟨-, -, hpos⟩
    exact hlarge (hpos ▸ W.pos_le)

/-- `UdmWordListAdd`. -/
def udmWordListAdd (d : DocWords) (word : CString) (secno : UInt8) : DocWords where
  words := udmWordListAddEx d.words word secno (d.wordpos secno + 1)
  wordpos := DocWords.count d.wordpos secno
  nodup := by
    unfold udmWordListAddEx
    split
    · refine List.nodup_append.mpr ⟨d.nodup, List.nodup_singleton _, fun V hV W hW => ?_⟩
      rw [List.mem_singleton] at hW
      rintro rfl
      -- the position is a new one
      have hle := d.pos_le_wordpos V hV
      rw [hW] at hle
      exact absurd hle (Nat.not_succ_le_self _)
    · exact d.nodup
  pos_pos W hW := by
    rcases mem_udmWordListAddEx.mp hW with hW | ⟨-, -, hpos⟩
    · exact d.pos_pos W hW
    · omega
  pos_le_wordpos W hW := by
    rcases mem_udmWordListAddEx.mp hW with hW | ⟨-, rfl, hpos⟩
    · exact (d.pos_le_wordpos W hW).trans (DocWords.le_count _ _ _)
    · rw [hpos, DocWords.count, if_pos rfl]

/-! ### Section lengths -/

/-- The order of `wlcmp`. -/
def WlLe (w1 w2 : UdmWord) : Prop := w1.key ≤ w2.key

theorem UdmWord.key_eq_iff (V W : UdmWord) : V.key = W.key ↔ V.word = W.word ∧ V.secno = W.secno := by
  rw [UdmWord.key, UdmWord.key, EmbeddingLike.apply_eq_iff_eq, Prod.mk.injEq]

instance : DecidableRel WlLe := fun w1 w2 => inferInstanceAs (Decidable (w1.key ≤ w2.key))

/-- The word that no document has. -/
def nonExisting : CString :=
  ⟨[0x23, 0x6e, 0x6f, 0x6e, 0x2d, 0x65, 0x78, 0x69, 0x73, 0x74, 0x69, 0x6e, 0x67], by decide⟩

/-- The loop of `UdmWordListSaveSectionSize`, from the last word to the first. -/
def saveLoop (wordpos : UInt8 → ℕ) : CString → UInt8 → List UdmWord → List UdmWord → List UdmWord
  | _, _, [], Words => Words
  | prevWord, prevSec, W :: rest, Words =>
    if W.secno ≠ prevSec ∨ W.word ≠ prevWord then
      saveLoop wordpos W.word W.secno rest (udmWordListAddEx Words W.word W.secno (wordpos W.secno + 1))
    else saveLoop wordpos prevWord prevSec rest Words

/-- `UdmWordListSaveSectionSize`. -/
def udmWordListSaveSectionSize (udmSort : QSort WlLe) (d : DocWords) : List UdmWord :=
  let sorted := udmSort.sort d.words
  saveLoop d.wordpos nonExisting 0 sorted.reverse sorted

/-- What the loop has added for these words. -/
structure Markers (wordpos : UInt8 → ℕ) (l ms : List UdmWord) : Prop where
  /-- They stand behind the last position of their section. -/
  pos : ∀ M ∈ ms, M.pos = wordpos M.secno + 1
  /-- They are of the words and sections of the list. -/
  key : ∀ M ∈ ms, ∃ W ∈ l, W.key = M.key
  sorted : ms.Pairwise fun M N => N.key < M.key

theorem Markers.cons {wordpos : UInt8 → ℕ} {l ms : List UdmWord} (h : Markers wordpos l ms) (W : UdmWord) :
    Markers wordpos (W :: l) ms :=
  ⟨h.pos, fun M hM => (h.key M hM).imp fun _ hV => ⟨List.mem_cons_of_mem _ hV.1, hV.2⟩, h.sorted⟩

theorem Markers.add {l ms : List UdmWord} (h : Markers wordpos l ms)
    (hbelow : ∀ M ∈ ms, M.key < W.key) (Words : List UdmWord) :
    ∃ ms', udmWordListAddEx Words W.word W.secno (wordpos W.secno + 1) ++ ms = Words ++ ms' ∧
      Markers wordpos (W :: l) ms' ∧ ∀ M ∈ ms', M.key ≤ W.key := by
  unfold udmWordListAddEx
  split
  · rename_i hsmall
    refine ⟨⟨W.word, wordpos W.secno + 1, W.secno, hsmall⟩ :: ms, by rw [List.append_assoc]; rfl,
      ⟨?_, ?_, List.pairwise_cons.mpr ⟨hbelow, h.sorted⟩⟩, ?_⟩
    · exact List.forall_mem_cons.mpr ⟨rfl, h.pos⟩
    · exact List.forall_mem_cons.mpr ⟨⟨W, List.mem_cons_self, rfl⟩, (h.cons W).key⟩
    · exact List.forall_mem_cons.mpr ⟨le_refl _, fun M hM => (hbelow M hM).le⟩
  · exact ⟨ms, rfl, h.cons W, fun M hM => (hbelow M hM).le⟩

theorem exists_saveLoop {prevWord : CString} {prevSec : UInt8} {l : List UdmWord}
    (hl : l.Pairwise fun V W => W.key ≤ V.key) (hprev : ∀ W ∈ l, W.key ≤ toLex (prevWord, prevSec))
    (Words : List UdmWord) :
    ∃ ms, saveLoop wordpos prevWord prevSec l Words = Words ++ ms ∧ Markers wordpos l ms ∧
      ∀ M ∈ ms, M.key < toLex (prevWord, prevSec) := by
  induction l generalizing prevWord prevSec Words with
  | nil => exact ⟨[], (List.append_nil _).symm, ⟨by simp, by simp, List.Pairwise.nil⟩, by simp⟩
  | cons W l ih =>
    obtain ⟨hW, hl⟩ := List.pairwise_cons.mp hl
    obtain ⟨hWprev, hlprev⟩ := List.forall_mem_cons.mp hprev
    rw [saveLoop]
    split
    · rename_i hne
      have hlt : W.key < toLex (prevWord, prevSec) := by
        refine lt_of_le_of_ne hWprev fun heq => ?_
        rw [UdmWord.key, EmbeddingLike.apply_eq_iff_eq, Prod.mk.injEq] at heq
        exact hne.elim (fun h => h heq.2) fun h => h heq.1
      obtain ⟨ms, hms, hmarkers, hbelow⟩ :=
        ih hl hW (udmWordListAddEx Words W.word W.secno (wordpos W.secno + 1))
      obtain ⟨ms', hms', hmarkers', hle⟩ := hmarkers.add hbelow Words
      exact ⟨ms', hms.trans hms', hmarkers', fun M hM => (hle M hM).trans_lt hlt⟩
    · obtain ⟨ms, hms, hmarkers, hbelow⟩ := ih hl hlprev Words
      exact ⟨ms, hms, hmarkers.cons W, hbelow⟩

/-- **`UdmWordListSaveSectionSize`** keeps the words and adds a marker for a word and a section once at most. -/
theorem udmWordListSaveSectionSize_spec (udmSort : QSort WlLe) (d : DocWords) :
    ∃ ms, udmWordListSaveSectionSize udmSort d = udmSort.sort d.words ++ ms ∧ Markers d.wordpos d.words ms := by
  have hsorted : (udmSort.sort d.words).reverse.Pairwise fun V W => W.key ≤ V.key :=
    List.pairwise_reverse.mpr (udmSort.sorted d.words)
  have hmarkers : ∀ {ms}, Markers d.wordpos (udmSort.sort d.words).reverse ms → Markers d.wordpos d.words ms := by
    intro ms h
    refine ⟨h.pos, fun M hM => ?_, h.sorted⟩
    obtain ⟨W, hW, hkey⟩ := h.key M hM
    exact ⟨W, (udmSort.perm d.words).mem_iff.mp (List.mem_reverse.mp hW), hkey⟩
  unfold udmWordListSaveSectionSize
  simp only
  generalize udmSort.sort d.words = sorted at hsorted hmarkers
  cases hrev : sorted.reverse with
  | nil => exact ⟨[], by rw [saveLoop, List.append_nil], ⟨by simp, by simp, List.Pairwise.nil⟩⟩
  | cons W l =>
    rw [hrev] at hsorted hmarkers
    obtain ⟨hW, hl⟩ := List.pairwise_cons.mp hsorted
    rw [saveLoop]
    split
    · obtain ⟨ms, hms, hmarks, hbelow⟩ :=
        exists_saveLoop hl hW (udmWordListAddEx sorted W.word W.secno (d.wordpos W.secno + 1))
      obtain ⟨ms', hms', hmarks', -⟩ := hmarks.add hbelow sorted
      exact ⟨ms', hms.trans hms', hmarkers hmarks'⟩
    · rename_i hsame
      have hkey : W.key = toLex (nonExisting, 0) := by
        rw [not_or, not_not, not_not] at hsame
        rw [UdmWord.key, hsame.1, hsame.2]
      obtain ⟨ms, hms, hmarks, -⟩ := exists_saveLoop hl (fun V hV => hkey ▸ hW V hV) sorted
      exact ⟨ms, hms, hmarkers (hmarks.cons W)⟩

theorem nodup_udmWordListSaveSectionSize (udmSort : QSort WlLe) (d : DocWords) :
    (udmWordListSaveSectionSize udmSort d).Nodup := by
  obtain ⟨ms, hms, hmarkers⟩ := udmWordListSaveSectionSize_spec udmSort d
  rw [hms]
  refine List.nodup_append.mpr ⟨(udmSort.perm d.words).nodup_iff.mpr d.nodup, ?_, fun W hW M hM => ?_⟩
  · refine hmarkers.sorted.imp fun hlt => ?_
    rintro rfl
    exact lt_irrefl _ hlt
  · rintro rfl
    have hle := d.pos_le_wordpos W ((udmSort.perm d.words).mem_iff.mp hW)
    have hpos := hmarkers.pos W hM
    omega

theorem mem_udmWordListSaveSectionSize {udmSort : QSort WlLe} {d : DocWords}
    (h : W ∈ udmWordListSaveSectionSize udmSort d) : 0 < W.pos ∧ ∃ V ∈ d.words, V.key = W.key := by
  obtain ⟨ms, hms, hmarkers⟩ := udmWordListSaveSectionSize_spec udmSort d
  rw [hms] at h
  rcases List.mem_append.mp h with hW | hM
  · have hmem := (udmSort.perm d.words).mem_iff.mp hW
    exact ⟨d.pos_pos W hmem, W, hmem, rfl⟩
  · refine ⟨?_, hmarkers.key W hM⟩
    rw [hmarkers.pos W hM]
    exact Nat.succ_pos _

theorem subset_udmWordListSaveSectionSize (udmSort : QSort WlLe) (d : DocWords) (h : W ∈ d.words) :
    W ∈ udmWordListSaveSectionSize udmSort d := by
  obtain ⟨ms, hms, -⟩ := udmWordListSaveSectionSize_spec udmSort d
  rw [hms]
  exact List.mem_append_left _ ((udmSort.perm d.words).mem_iff.mpr h)

end MnoGoSearch.Words
