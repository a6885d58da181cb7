import MnoGoSearch.Query.WordMask
import MnoGoSearch.Words.WordList

/-!
# Word lists of a query

The list of the words of a query with their forms and synonyms (`word.c`). An item that is added is
merged with the item of the same word and the same position, if there is one.
-/

namespace MnoGoSearch.Fuzzy

open Query (UdmWordOrigin)
open Words (CString)

/-! ### Data -/

/-- `UDM_MATCH_*`. -/
inductive UdmMatchMode where
  | full
  | begin
  /-- It stands somewhere in the word. -/
  | substr
  | ending
  | regex
  | wild
  | subnet
  | numericLt
  | numericGt
  | range
  deriving DecidableEq

/-- `UDM_WIDEWORD`; `len` is the length of the word. -/
structure UdmWideWord extends Query.UdmWideWord where
  word : CString
  count : ℕ
  doccount : ℕ
  /-- The weight of the origin. -/
  weight : ℤ
  userWeight : ℤ
  /-- How it matches; `match` in the source. -/
  matchMode : UdmMatchMode
  /-- The section to search in. -/
  secno : ℕ
  /-- How many additional parts it has in a phrase. -/
  phrwidth : ℕ
  deriving DecidableEq

/-- `UdmWideWordInit`; the word and the origin are set by all callers. -/
def udmWideWordInit (word : CString) (origin : UdmWordOrigin) : UdmWideWord where
  order := 0
  orderExtraWidth := 0
  origin := origin
  phrpos := 0
  phrlen := 0
  word := word
  count := 0
  doccount := 0
  weight := 0
  userWeight := 256
  matchMode := .full
  secno := 0
  phrwidth := 0

/-- `UdmWideWordCopy`, to an item that was initialised. -/
def udmWideWordCopy (Src : UdmWideWord) : UdmWideWord := { Src with doccount := 0, weight := 0 }

/-- Two items are of one word and one position. -/
def UdmWideWord.Same (W Word : UdmWideWord) : Prop := W.word = Word.word ∧ W.order = Word.order

instance (W Word : UdmWideWord) : Decidable (W.Same Word) := inferInstanceAs (Decidable (_ ∧ _))

/-- The origin of an item of the list that is added once more. -/
def mergedOrigin : UdmWordOrigin → UdmWordOrigin → UdmWordOrigin
  | .stop, .query => .stop
  | _, .query => .query
  | _, .stop => .stop
  | origin, _ => origin

/-- An item of the list that is added once more. -/
def mergeWord (W Word : UdmWideWord) : UdmWideWord :=
  let certain : Bool := W.phrpos = Word.phrpos ∧ W.phrlen = Word.phrlen
  { W with
    count := W.count + Word.count
    phrpos := if certain then W.phrpos else 0
    phrlen := if certain then W.phrlen else 0
    origin := mergedOrigin W.origin Word.origin }

/-- `UdmWideWordListAdd`. -/
@[grind =]
def udmWideWordListAdd : List UdmWideWord → UdmWideWord → List UdmWideWord
  | [], Word => [udmWideWordCopy Word]
  | W :: L, Word => if W.Same Word then mergeWord W Word :: L else W :: udmWideWordListAdd L Word

/-- `UdmWideWordListAddLike`. -/
def udmWideWordListAddLike (WWList : List UdmWideWord) (orig : UdmWideWord) (word : CString) : List UdmWideWord :=
  udmWideWordListAdd WWList { orig with word := word }

/-! ### Adding to a list -/

/-- What stays of an item when words are added: the word, its position and its origin. -/
def UdmWideWord.tag (W : UdmWideWord) : CString × ℕ × UdmWordOrigin := (W.word, W.order, W.origin)

theorem tag_mergeWord {W Word : UdmWideWord} (hquery : Word.origin ≠ .query) (hstop : Word.origin ≠ .stop) :
    (mergeWord W Word).tag = W.tag := by
  have horigin : mergedOrigin W.origin Word.origin = W.origin := by
    cases hW : Word.origin with
    | query => exact absurd hW hquery
    | stop => exact absurd hW hstop
    | _ => cases W.origin <;> rfl
  rw [UdmWideWord.tag, UdmWideWord.tag, ← horigin]
  rfl

theorem map_tag_add {Word : UdmWideWord} (hquery : Word.origin ≠ .query) (hstop : Word.origin ≠ .stop)
    (L : List UdmWideWord) : L.map UdmWideWord.tag <+: (udmWideWordListAdd L Word).map UdmWideWord.tag := by
  induction L with
  | nil => exact List.nil_prefix
  | cons W L ih =>
    rw [udmWideWordListAdd]
    split_ifs
    · have hsame : (mergeWord W Word).tag = W.tag := tag_mergeWord hquery hstop
      exact List.cons_prefix_cons.mpr ⟨hsame.symm, List.prefix_rfl⟩
    · exact List.cons_prefix_cons.mpr ⟨rfl, ih⟩

theorem mem_words_add (L : List UdmWideWord) (Word : UdmWideWord) (w : CString) :
    w ∈ (udmWideWordListAdd L Word).map UdmWideWord.word ↔ w ∈ L.map UdmWideWord.word ∨ Word.word = w := by
  induction L with
  | nil => simp [udmWideWordListAdd, udmWideWordCopy, eq_comm]
  | cons W L ih =>
    rw [udmWideWordListAdd]
    split_ifs with hsame
    · -- the item of the list stands for the word too
      rw [List.map_cons, List.map_cons, show (mergeWord W Word).word = W.word from rfl]
      refine ⟨Or.inl, fun h => h.elim id fun hw => ?_⟩
      rw [← hw, ← hsame.1]
      exact List.mem_cons_self
    · rw [List.map_cons, List.map_cons, List.mem_cons, List.mem_cons, ih, or_assoc]

/-- The word, the position and the width of an item; adding words does not change them. -/
def UdmWideWord.data (W : UdmWideWord) : CString × ℕ × ℕ := (W.word, W.order, W.orderExtraWidth)

/-- The items of a list are in another one, where they were; an item that is final was final. -/
def Keeps (L L' : List UdmWideWord) : Prop :=
  ∀ (i : ℕ) (W : UdmWideWord), L[i]? = some W →
    ∃ W', L'[i]? = some W' ∧ W'.data = W.data ∧ (W'.origin = .synonymFinal → W.origin = .synonymFinal)

theorem Keeps.refl (L : List UdmWideWord) : Keeps L L := fun _ W h => ⟨W, h, rfl, id⟩

theorem Keeps.trans {L L' L'' : List UdmWideWord} (h : Keeps L L') (h' : Keeps L' L'') : Keeps L L'' := by
  intro i W hW
  obtain ⟨W', hW', hdata, hfinal⟩ := h i W hW
  obtain ⟨W'', hW'', hdata', hfinal'⟩ := h' i W' hW'
  exact ⟨W'', hW'', hdata'.trans hdata, hfinal ∘ hfinal'⟩

theorem mergedOrigin_final {o o' : UdmWordOrigin} (h : mergedOrigin o o' = .synonymFinal) : o = .synonymFinal := by
  cases o <;> cases o' <;> first | rfl | exact absurd h (by decide)

theorem keeps_add (L : List UdmWideWord) (Word : UdmWideWord) : Keeps L (udmWideWordListAdd L Word) := by
  induction L with
  | nil => exact fun i W h => absurd h (by simp)
  | cons W L ih =>
    rw [udmWideWordListAdd]
    split_ifs
    · intro i V hV
      cases i with
      | zero =>
        obtain rfl := Option.some.inj hV
        exact ⟨_, rfl, rfl, mergedOrigin_final⟩
      | succ i => exact ⟨V, hV, rfl, id⟩
    · intro i V hV
      cases i with
      | zero => exact ⟨V, hV, rfl, id⟩
      | succ i => exact ih i V hV

theorem map_data_add (L : List UdmWideWord) (Word : UdmWideWord) :
    (udmWideWordListAdd L Word).map UdmWideWord.data = L.map UdmWideWord.data ∨
      (udmWideWordListAdd L Word).map UdmWideWord.data = L.map UdmWideWord.data ++ [Word.data] := by
  induction L with
  | nil => exact Or.inr rfl
  | cons W L ih =>
    rw [udmWideWordListAdd]
    split_ifs
    · exact Or.inl rfl
    · exact ih.imp (congrArg (W.data :: ·)) (congrArg (W.data :: ·))

theorem exists_same_add (L : List UdmWideWord) (Word : UdmWideWord) : ∃ W ∈ udmWideWordListAdd L Word, W.Same Word := by
  induction L with
  | nil => exact ⟨_, List.mem_singleton_self _, rfl, rfl⟩
  | cons W L ih =>
    rw [udmWideWordListAdd]
    split_ifs with hsame
    · exact ⟨_, List.mem_cons_self, hsame⟩
    · obtain ⟨V, hV, hVsame⟩ := ih
      exact ⟨V, List.mem_cons_of_mem _ hV, hVsame⟩

end MnoGoSearch.Fuzzy
