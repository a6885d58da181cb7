import MnoGoSearch.Query.Phrases
import MnoGoSearch.Query.WordMask
import Mathlib.Data.List.TakeWhile

/-!
# The words of a parsed query

The rest of the query parser (`searchtool.c`): next to the item list it makes the word list, in which a
word has its position in its phrase and the length of the phrase. The length is known at the end of a
phrase only; until then it is 0, and `UdmWWListSetPhrlen` sets it for all words back to the first one.
`kept_readTokens` says what holds of the words of every query: a word outside phrases, or alone in one,
has phrase length 1, unless the query ends before the phrase does, where the length stays 0.
-/

namespace MnoGoSearch.Query

/-- What the lexer finds in the query string, with what the word list needs. -/
inductive LexToken where
  /-- An operator, with the match type of the section it stands in. -/
  | op (cmd : QueryOp) (arg : ℕ)
  /-- A word: whether it is a stop word, whether it ends its phrase, as before a quote, and the origins of its forms. -/
  | word (isStop endOfPhrase : Bool) (forms : List UdmWordOrigin)

/-- The token as the item list sees it. -/
def LexToken.toToken : LexToken → QueryToken
  | .op cmd arg => .op cmd arg
  | .word isStop _ _ => .word isStop

/-- The parser state with the word list. -/
structure WordState extends QueryState where
  /-- The number of words of the phrase so far. -/
  phrpos : ℕ
  /-- `WWList.Word`. -/
  word : List UdmWideWord

/-- The word has no phrase length yet. -/
def noPhrlen (W : UdmWideWord) : Bool := W.phrlen == 0

/-- Set the phrase length. -/
def UdmWideWord.setPhrlen (phrlen : ℕ) (W : UdmWideWord) : UdmWideWord := { W with phrlen := phrlen }

/-- `UdmWWListSetPhrlen`: set the phrase length of the last words, as far back as they have none. -/
def udmWWListSetPhrlen (word : List UdmWideWord) (phrlen : ℕ) : List UdmWideWord :=
  ((word.reverse.takeWhile noPhrlen).map (UdmWideWord.setPhrlen phrlen) ++ word.reverse.dropWhile noPhrlen).reverse

/-- `UdmStackItemListAddCmd` for one operator. A quote that closes a phrase sets the phrase length. -/
def addLexCmd (s : WordState) (cmd : QueryOp) (arg : ℕ) : WordState :=
  let q := udmStackItemListAddCmd s.toQueryState cmd arg
  if cmd = .quote ∧ q.nphrasecmd % 2 = 0 ∧ 0 < s.phrpos then ⟨q, 0, udmWWListSetPhrlen s.word s.phrpos⟩
  else ⟨q, s.phrpos, s.word⟩

/-- The original word and the generated forms. -/
def newWords (isStop : Bool) (forms : List UdmWordOrigin) (order phrpos phrlen : ℕ) : List UdmWideWord :=
  (if isStop then [UdmWordOrigin.stop] else .query :: forms).map fun origin => ⟨order, 0, origin, phrpos, phrlen⟩

/-- `UdmStackItemListAddWord`. -/
def addLexWord (s : WordState) (isStop endOfPhrase : Bool) (forms : List UdmWordOrigin) : WordState :=
  if s.nuniq ≥ 64 - 1 then s
  else
    let phrlen := if s.nphrasecmd % 2 = 1 then if endOfPhrase then s.phrpos + 1 else 0 else 1
    -- Phrase end found: set phrlen for all words in the same phrase
    let word := if 1 < phrlen then udmWWListSetPhrlen s.word phrlen else s.word
    -- a stop word returns before the end of the phrase sets the position back
    let phrpos := if s.nphrasecmd % 2 = 1 then if endOfPhrase && !isStop then 0 else s.phrpos + 1 else s.phrpos
    ⟨udmStackItemListAddWord s.toQueryState isStop, phrpos, word ++ newWords isStop forms s.nuniq s.phrpos phrlen⟩

/-- One token. -/
def addLexToken (s : WordState) : LexToken → WordState
  | .op cmd arg => addLexCmd s cmd arg
  | .word isStop endOfPhrase forms => addLexWord s isStop endOfPhrase forms

/-- The state at the end of the query string. -/
def readTokens (tokens : List LexToken) : WordState := tokens.foldl addLexToken ⟨⟨[], 0, 0, 0⟩, 0, []⟩

/-- The word list, with the synonyms of several words that `UdmComplexSynonyms` adds. The end of `UdmPrepare` closes an
open phrase in the item list, but its words keep what they have. -/
def wordList (tokens : List LexToken) (synonyms : List UdmWideWord) : UdmWideWordList :=
  ⟨(readTokens tokens).nuniq, (readTokens tokens).word ++ synonyms⟩

/-! ### The item list -/

theorem toQueryState_addLexToken (s : WordState) (token : LexToken) :
    (addLexToken s token).toQueryState = addToken s.toQueryState token.toToken := by
  cases token with
  | op cmd arg =>
    rw [addLexToken, addLexCmd]
    split_ifs <;> rfl
  | word isStop endOfPhrase forms =>
    rw [addLexToken, addLexWord]
    by_cases hmany : s.nuniq ≥ 64 - 1
    · rw [if_pos hmany, LexToken.toToken, addToken, udmStackItemListAddWord, if_pos hmany]
    · rw [if_neg hmany]
      rfl

theorem toQueryState_readTokens (tokens : List LexToken) :
    (readTokens tokens).toQueryState = (tokens.map LexToken.toToken).foldl addToken ⟨[], 0, 0, 0⟩ := by
  have h : ∀ s : WordState, (tokens.foldl addLexToken s).toQueryState =
      (tokens.map LexToken.toToken).foldl addToken s.toQueryState := by
    induction tokens with
    | nil => exact fun _ => rfl
    | cons token tokens ih =>
      intro s
      rw [List.foldl_cons, ih, toQueryState_addLexToken, List.map_cons, List.foldl_cons]
  exact h _

/-- The item that a word adds. -/
def wordItem (isStop : Bool) (n : ℕ) : UdmStackItem := ⟨if isStop then .stop else .word, n⟩

theorem wordItem_cmd_ne (isStop : Bool) (n : ℕ) : (wordItem isStop n).cmd ≠ .phrase := by
  cases isStop <;> exact StackCmd.noConfusion

theorem udmStackItemListAddWord_eq {s : QueryState} (h : ¬s.nuniq ≥ 64 - 1) (isStop : Bool) :
    udmStackItemListAddWord s isStop =
      ⟨s.items ++ [wordItem isStop s.nuniq], s.ncmds, s.nphrasecmd, if isStop then s.nuniq else s.nuniq + 1⟩ := by
  rw [udmStackItemListAddWord, if_neg h]
  cases isStop <;> rfl

theorem QueryState.Built.openPhrase_eq_none_iff {s : QueryState} (h : s.Built) :
    openPhrase none s.items = none ↔ s.nphrasecmd % 2 = 0 := by
  rw [← h.quotes, ← Option.not_isSome_iff_eq_none, openPhrase_isSome]
  simp

/-! ### The phrase length -/

/-- Some searched item of the position has phrase length 1. -/
def Single (word : List UdmWideWord) (z : ℕ) : Prop := ∃ W ∈ word, W.order = z ∧ W.origin ≠ .stop ∧ W.phrlen = 1

/-- Some searched item of the position is among the last words, which have no phrase length. -/
def Waiting (word : List UdmWideWord) (z : ℕ) : Prop :=
  ∃ W ∈ word.reverse.takeWhile noPhrlen, W.order = z ∧ W.origin ≠ .stop

/-- Words stay what they are, but for phrase lengths that they did not have. -/
structure Keeps (word word' : List UdmWideWord) : Prop where
  /-- A phrase length is kept. -/
  single : ∀ z, Single word z → Single word' z
  old : ∀ W ∈ word', ∃ V ∈ word, W.order = V.order ∧ W.orderExtraWidth = V.orderExtraWidth ∧ W.origin = V.origin ∧
    W.phrpos = V.phrpos
  kept : ∀ V ∈ word, ∃ W ∈ word', W.order = V.order ∧ W.origin = V.origin

theorem Keeps.refl (word : List UdmWideWord) : Keeps word word :=
  ⟨fun _ h => h, fun W hW => ⟨W, hW, rfl, rfl, rfl, rfl⟩, fun V hV => ⟨V, hV, rfl, rfl⟩⟩

variable {word : List UdmWideWord} {phrlen z : ℕ} {W : UdmWideWord} {item : UdmStackItem}
variable {items : List UdmStackItem} {p : Phrase} {s : WordState}

theorem mem_udmWWListSetPhrlen :
    W ∈ udmWWListSetPhrlen word phrlen ↔
      (∃ V ∈ word.reverse.takeWhile noPhrlen, V.setPhrlen phrlen = W) ∨ W ∈ word.reverse.dropWhile noPhrlen := by
  rw [udmWWListSetPhrlen, List.mem_reverse, List.mem_append, List.mem_map]

theorem mem_takeWhile_or_dropWhile (hW : W ∈ word) :
    W ∈ word.reverse.takeWhile noPhrlen ∨ W ∈ word.reverse.dropWhile noPhrlen := by
  rw [← List.mem_append, List.takeWhile_append_dropWhile, List.mem_reverse]
  exact hW

/-- **`UdmWWListSetPhrlen`** keeps the words. -/
theorem keeps_udmWWListSetPhrlen (word : List UdmWideWord) (phrlen : ℕ) :
    Keeps word (udmWWListSetPhrlen word phrlen) where
  single z h := by
    obtain ⟨W, hW, horder, hstop, hlen⟩ := h
    refine ⟨W, mem_udmWWListSetPhrlen.mpr (.inr ((mem_takeWhile_or_dropWhile hW).resolve_left fun htake => ?_)),
      horder, hstop, hlen⟩
    have hnone : noPhrlen W = true := List.mem_takeWhile_imp htake
    have hzero : W.phrlen = 0 := beq_iff_eq.mp hnone
    omega
  old W hW := by
    rcases mem_udmWWListSetPhrlen.mp hW with ⟨V, hV, rfl⟩ | hW
    · exact ⟨V, List.mem_reverse.mp ((List.takeWhile_prefix _).subset hV), rfl, rfl, rfl, rfl⟩
    · exact ⟨W, List.mem_reverse.mp ((List.dropWhile_suffix _).subset hW), rfl, rfl, rfl, rfl⟩
  kept V hV := by
    rcases mem_takeWhile_or_dropWhile hV with h | h
    · exact ⟨_, mem_udmWWListSetPhrlen.mpr (.inl ⟨V, h, rfl⟩), rfl, rfl⟩
    · exact ⟨V, mem_udmWWListSetPhrlen.mpr (.inr h), rfl, rfl⟩

theorem Waiting.setPhrlen (h : Waiting word z) : Single (udmWWListSetPhrlen word 1) z := by
  obtain ⟨W, hW, horder, hstop⟩ := h
  exact ⟨_, mem_udmWWListSetPhrlen.mpr (.inl ⟨W, hW, rfl⟩), horder, hstop, rfl⟩

theorem Single.append (h : Single word z) (word' : List UdmWideWord) : Single (word ++ word') z := by
  obtain ⟨W, hW, h⟩ := h
  exact ⟨W, List.mem_append_left _ hW, h⟩

theorem mem_newWords {isStop : Bool} {forms : List UdmWordOrigin} {order phrpos : ℕ}
    (hW : W ∈ newWords isStop forms order phrpos phrlen) :
    W.order = order ∧ W.orderExtraWidth = 0 ∧ W.phrpos = phrpos ∧ W.phrlen = phrlen ∧
      (isStop = true → W.origin = .stop) := by
  obtain ⟨origin, horigin, rfl⟩ := List.mem_map.mp hW
  refine ⟨rfl, rfl, rfl, rfl, fun hstop => ?_⟩
  rw [if_pos hstop] at horigin
  exact List.mem_singleton.mp horigin

theorem query_mem_newWords (forms : List UdmWordOrigin) (order phrpos phrlen : ℕ) :
    ⟨order, 0, .query, phrpos, phrlen⟩ ∈ newWords false forms order phrpos phrlen := List.mem_cons_self

/-! ### The words of the positions -/

/-- The words belong to the positions of the query. -/
structure WordState.Listed (s : WordState) : Prop where
  /-- The word of each position. -/
  word : ∀ o < s.nuniq, ∃ W ∈ s.word, W.origin = .query ∧ W.order = o
  /-- A searched item is a word of the query. -/
  order_lt : ∀ W ∈ s.word, W.origin ≠ .stop → W.order < s.nuniq
  narrow : ∀ W ∈ s.word, W.orderExtraWidth = 0

theorem WordState.Listed.of_keeps (h : s.Listed) {q : QueryState} (hq : q.nuniq = s.nuniq)
    (hk : Keeps s.word word) (phrpos : ℕ) : WordState.Listed ⟨q, phrpos, word⟩ where
  word o ho := by
    obtain ⟨V, hV, hquery, horder⟩ := h.word o (hq ▸ ho)
    obtain ⟨W, hW, horder', horigin⟩ := hk.kept V hV
    exact ⟨W, hW, horigin.trans hquery, horder'.trans horder⟩
  order_lt W hW hstop := by
    obtain ⟨V, hV, horder, -, horigin, -⟩ := hk.old W hW
    have hlt := h.order_lt V hV (horigin ▸ hstop)
    rwa [← horder, ← hq] at hlt
  narrow W hW := by
    obtain ⟨V, hV, -, hwidth, -⟩ := hk.old W hW
    exact hwidth.trans (h.narrow V hV)

theorem keeps_of_phrlen (word : List UdmWideWord) (phrlen : ℕ) :
    Keeps word (if 1 < phrlen then udmWWListSetPhrlen word phrlen else word) := by
  split_ifs
  · exact keeps_udmWWListSetPhrlen word phrlen
  · exact .refl word

theorem listed_addLexToken (h : s.Listed) (token : LexToken) : (addLexToken s token).Listed := by
  cases token with
  | op cmd arg =>
    have hq : (udmStackItemListAddCmd s.toQueryState cmd arg).nuniq = s.nuniq := by
      rw [udmStackItemListAddCmd]
      split_ifs <;> rfl
    rw [addLexToken, addLexCmd]
    split_ifs
    · exact h.of_keeps hq (keeps_udmWWListSetPhrlen _ _) 0
    · exact h.of_keeps hq (.refl _) _
  | word isStop endOfPhrase forms =>
    rw [addLexToken, addLexWord]
    by_cases hmany : s.nuniq ≥ 64 - 1
    · rw [if_pos hmany]
      exact h
    · rw [if_neg hmany, udmStackItemListAddWord_eq hmany]
      have hk := fun phrlen => h.of_keeps rfl (keeps_of_phrlen s.word phrlen) 0
      refine ⟨fun o ho => ?_, fun W hW hstop => ?_, fun W hW => ?_⟩
      · dsimp only at ho ⊢
        rcases Nat.lt_or_ge o s.nuniq with hlt | hge
        · obtain ⟨W, hW, h⟩ := (hk _).word o hlt
          exact ⟨W, List.mem_append_left _ hW, h⟩
        · cases isStop with
          | true => exact absurd ho (Nat.not_lt.mpr hge)
          | false =>
            have ho : o < s.nuniq + 1 := ho
            exact ⟨_, List.mem_append_right _ (query_mem_newWords _ _ _ _), rfl, by dsimp only; omega⟩
      · dsimp only
        rcases List.mem_append.mp hW with hW | hW
        · have hlt := (hk _).order_lt W hW hstop
          dsimp only at hlt
          split_ifs <;> omega
        · obtain ⟨horder, -, -, -, hnew⟩ := mem_newWords hW
          rw [if_neg fun hs => hstop (hnew hs)]
          omega
      · rcases List.mem_append.mp hW with hW | hW
        · exact (hk _).narrow W hW
        · exact (mem_newWords hW).2.1

/-! ### The phrases -/

/-- The items of the phrases, and of one that is open. -/
def contents (items : List UdmStackItem) : List (List UdmStackItem) :=
  (phrases none items ++ (openPhrase none items).toList).map Phrase.items

/-- The words and the phrases, whatever was typed. -/
structure WordState.Worded (s : WordState) : Prop where
  /-- A position in a phrase is that behind a word of the open phrase. -/
  inside : s.phrpos ≠ 0 → ∃ p, openPhrase none s.items = some p ∧ p.items ≠ [] ∧
    ((∀ item ∈ s.items, item.cmd ≠ .stop) → 0 < s.nuniq ∧ ⟨.word, s.nuniq - 1⟩ ∈ p.items)
  /-- The only word of an open phrase. -/
  first : ∀ p z, openPhrase none s.items = some p → p.items = [⟨.word, z⟩] →
    Single s.word z ∨ s.phrpos = 1 ∧ Waiting s.word z
  free : ∀ z < s.nuniq, (∀ l ∈ contents s.items, ⟨.word, z⟩ ∉ l) → Single s.word z
  /-- The only word of a phrase. -/
  alone : ∀ p ∈ phrases none s.items, ∀ z, p.items = [⟨.word, z⟩] → Single s.word z
  /-- A word behind the beginning of a phrase has the word before it in the phrase. -/
  pair : (∀ item ∈ s.items, item.cmd ≠ .stop) → ∀ W ∈ s.word, W.phrpos ≠ 0 →
    ∃ l ∈ contents s.items, ∃ a, W.order = a + 1 ∧ ⟨.word, a⟩ ∈ l ∧ ⟨.word, a + 1⟩ ∈ l

theorem phrpos_of_closed (h : s.Worded) (hout : openPhrase none s.items = none) : s.phrpos = 0 := by
  by_contra hpos
  obtain ⟨p, hp, -⟩ := h.inside hpos
  rw [hout] at hp
  contradiction

theorem phrpos_of_empty (h : s.Worded) (hopen : openPhrase none s.items = some p)
    (hp : p.items = []) : s.phrpos = 0 := by
  by_contra hpos
  obtain ⟨q, hq, hne, -⟩ := h.inside hpos
  obtain rfl := Option.some.inj (hopen.symm.trans hq)
  exact hne hp

theorem exists_contents_append (item : UdmStackItem) {l : List UdmStackItem}
    (hl : l ∈ contents items) : ∃ l' ∈ contents (items ++ [item]), ∀ i ∈ l, i ∈ l' := by
  rw [contents, List.map_append, List.mem_append] at hl
  simp only [contents, phrases_append, openPhrase_append, List.map_append, List.mem_append]
  rcases hl with hl | hl
  · exact ⟨l, .inl (.inl hl), fun i hi => hi⟩
  · cases ho : openPhrase none items with
    | none =>
      rw [ho] at hl
      contradiction
    | some p =>
      rw [ho] at hl
      obtain rfl := List.mem_singleton.mp hl
      simp only [phrases, openPhrase]
      split_ifs
      · exact ⟨p.items, .inl (.inr List.mem_cons_self), fun i hi => hi⟩
      · exact ⟨p.items ++ [item], .inr List.mem_cons_self, fun i hi => List.mem_append_left _ hi⟩

theorem WordState.Worded.pair_append (h : s.Worded) (item : UdmStackItem)
    (hstop : ∀ i ∈ s.items ++ [item], i.cmd ≠ .stop) (hk : Keeps s.word word) (hW : W ∈ word) (hpos : W.phrpos ≠ 0) :
    ∃ l ∈ contents (s.items ++ [item]), ∃ a, W.order = a + 1 ∧ ⟨.word, a⟩ ∈ l ∧ ⟨.word, a + 1⟩ ∈ l := by
  obtain ⟨V, hV, horder, -, -, hphrpos⟩ := hk.old W hW
  obtain ⟨l, hl, a, ha, h0, h1⟩ := h.pair (fun i hi => hstop i (List.mem_append_left _ hi)) V hV (hphrpos ▸ hpos)
  obtain ⟨l', hl', hsub⟩ := exists_contents_append item hl
  exact ⟨l', hl', a, horder.trans ha, hsub _ h0, hsub _ h1⟩

theorem WordState.Worded.free_append (h : s.Worded) (item : UdmStackItem) (hz : z < s.nuniq)
    (hno : ∀ l ∈ contents (s.items ++ [item]), ⟨.word, z⟩ ∉ l) : Single s.word z := by
  refine h.free z hz fun l hl hmem => ?_
  obtain ⟨l', hl', hsub⟩ := exists_contents_append item hl
  exact hno l' hl' (hsub _ hmem)

/-! ### Operators -/

theorem openPhrase_outside (hout : openPhrase none items = none) (hc : item.cmd ≠ .phrase) :
    openPhrase none (items ++ [item]) = none ∧ phrases none (items ++ [item]) = phrases none items := by
  rw [openPhrase_append, phrases_append, hout, openPhrase, phrases, if_neg hc]
  exact ⟨rfl, List.append_nil _⟩

theorem openPhrase_inside (hopen : openPhrase none items = some p) (hc : item.cmd ≠ .phrase) :
    openPhrase none (items ++ [item]) = some { p with items := p.items ++ [item] } ∧
      phrases none (items ++ [item]) = phrases none items := by
  rw [openPhrase_append, phrases_append, hopen, openPhrase, phrases, if_neg hc, if_neg hc]
  exact ⟨rfl, List.append_nil _⟩

theorem WordState.Worded.opens (h : s.Worded) (hout : openPhrase none s.items = none) (arg ncmds nphrasecmd : ℕ) :
    WordState.Worded ⟨⟨s.items ++ [⟨.phrase, arg⟩], ncmds, nphrasecmd, s.nuniq⟩, s.phrpos, s.word⟩ := by
  have hopen : openPhrase none (s.items ++ [⟨.phrase, arg⟩]) = some ⟨arg, [], 0⟩ := by
    rw [openPhrase_append, hout]
    rfl
  have hphrases : phrases none (s.items ++ [⟨.phrase, arg⟩]) = phrases none s.items := by
    rw [phrases_append, hout]
    exact List.append_nil _
  refine ⟨fun hpos => absurd (phrpos_of_closed h hout) hpos, fun p z hp hitems => ?_, fun z hz => h.free_append _ hz,
    fun p hp => h.alone p (hphrases ▸ hp), fun hstop W hW => h.pair_append _ hstop (.refl _) hW⟩
  obtain rfl := Option.some.inj (hopen.symm.trans hp)
  contradiction

theorem WordState.Worded.closes (h : s.Worded) (hopen : openPhrase none s.items = some p) (hk : Keeps s.word word)
    (halone : ∀ z, s.phrpos = 1 → Waiting s.word z → Single word z) (arg ncmds nphrasecmd : ℕ) :
    WordState.Worded ⟨⟨s.items ++ [⟨.phrase, arg⟩], ncmds, nphrasecmd, s.nuniq⟩, 0, word⟩ := by
  have hclosed : openPhrase none (s.items ++ [⟨.phrase, arg⟩]) = none := by
    rw [openPhrase_append, hopen]
    rfl
  have hphrases : phrases none (s.items ++ [⟨.phrase, arg⟩]) = phrases none s.items ++ [{ p with closing := arg }] := by
    rw [phrases_append, hopen]
    rfl
  refine ⟨fun hpos => absurd rfl hpos, fun q z hq => ?_, fun z hz hno => hk.single z (h.free_append _ hz hno),
    fun q hq z hitems => ?_, fun hstop W hW => h.pair_append _ hstop hk hW⟩
  · exact absurd (hclosed.symm.trans hq) (Option.some_ne_none q).symm
  · dsimp only at hq
    rw [hphrases] at hq
    rcases List.mem_append.mp hq with hq | hq
    · exact hk.single z (h.alone q hq z hitems)
    · rw [List.mem_singleton.mp hq] at hitems
      rcases h.first p z hopen hitems with hsingle | ⟨hpos, hwait⟩
      · exact hk.single z hsingle
      · exact halone z hpos hwait

theorem WordState.Worded.append_op (h : s.Worded) (hout : openPhrase none s.items = none)
    (hc : item.cmd ≠ .phrase) (ncmds nphrasecmd : ℕ) :
    WordState.Worded ⟨⟨s.items ++ [item], ncmds, nphrasecmd, s.nuniq⟩, s.phrpos, s.word⟩ := by
  obtain ⟨hclosed, hphrases⟩ := openPhrase_outside hout hc
  refine ⟨fun hpos => absurd (phrpos_of_closed h hout) hpos, fun q z hq => ?_, fun z hz => h.free_append _ hz,
    fun q hq => h.alone q (hphrases ▸ hq), fun hstop W hW => h.pair_append _ hstop (.refl _) hW⟩
  exact absurd (hclosed.symm.trans hq) (Option.some_ne_none q).symm

theorem worded_addLexCmd (hb : s.Built) (h : s.Worded) (cmd : QueryOp) (arg : ℕ) : (addLexCmd s cmd arg).Worded := by
  by_cases hquote : cmd = .quote
  · subst hquote
    have hcmd : udmStackItemListAddCmd s.toQueryState .quote arg =
        ⟨s.items ++ [⟨.phrase, arg⟩], s.ncmds + 1, s.nphrasecmd + 1, s.nuniq⟩ := by
      rw [udmStackItemListAddCmd]
      simp only [if_true, or_true]
      rfl
    rw [addLexCmd, hcmd]
    cases ho : openPhrase none s.items with
    | none =>
      have heven := hb.openPhrase_eq_none_iff.mp ho
      rw [if_neg fun hclose => by dsimp only at hclose; omega]
      exact h.opens ho arg _ _
    | some p =>
      have hodd : ¬s.nphrasecmd % 2 = 0 := fun heven => by
        rw [hb.openPhrase_eq_none_iff.mpr heven] at ho
        contradiction
      by_cases hpos : 0 < s.phrpos
      · rw [if_pos ⟨rfl, by dsimp only; omega, hpos⟩]
        refine h.closes ho (keeps_udmWWListSetPhrlen _ _) (fun z hone hwait => ?_) arg _ _
        rw [hone]
        exact hwait.setPhrlen
      · rw [if_neg fun hclose => hpos hclose.2.2]
        have hzero : s.phrpos = 0 := by omega
        rw [hzero]
        exact h.closes ho (.refl _) (fun z hone => by omega) arg _ _
  · rw [addLexCmd, if_neg fun hclose => hquote hclose.1, udmStackItemListAddCmd]
    simp only [hquote, if_false, or_false]
    split_ifs with heven
    · exact h.append_op (hb.openPhrase_eq_none_iff.mpr heven) (fun hc => hquote (cmd.cmd_eq_phrase.mp hc)) _ _
    · exact ⟨h.inside, h.first, h.free, h.alone, h.pair⟩

/-! ### Words -/

/-- The positions after a word. -/
def nextOrder (isStop : Bool) (n : ℕ) : ℕ := if isStop then n else n + 1

theorem WordState.Worded.word_outside (h : s.Worded) (hout : openPhrase none s.items = none)
    (isStop : Bool) (forms : List UdmWordOrigin) (ncmds nphrasecmd : ℕ) :
    WordState.Worded ⟨⟨s.items ++ [wordItem isStop s.nuniq], ncmds, nphrasecmd, nextOrder isStop s.nuniq⟩, s.phrpos,
      s.word ++ newWords isStop forms s.nuniq s.phrpos 1⟩ := by
  obtain ⟨hclosed, hphrases⟩ := openPhrase_outside hout (wordItem_cmd_ne isStop s.nuniq)
  refine ⟨fun hpos => absurd (phrpos_of_closed h hout) hpos, fun q z hq => ?_, fun z hz hno => ?_,
    fun q hq z hitems => (h.alone q (hphrases ▸ hq) z hitems).append _, fun hstop W hW hpos => ?_⟩
  · exact absurd (hclosed.symm.trans hq) (Option.some_ne_none q).symm
  · rcases Nat.lt_or_ge z s.nuniq with hlt | hge
    · exact (h.free_append _ hlt hno).append _
    · cases isStop with
      | true => exact absurd hz (Nat.not_lt.mpr hge)
      | false =>
        have hz : z < s.nuniq + 1 := hz
        exact ⟨_, List.mem_append_right _ (query_mem_newWords _ _ _ _), by dsimp only; omega,
          UdmWordOrigin.noConfusion, rfl⟩
  · rcases List.mem_append.mp hW with hW | hW
    · exact h.pair_append _ hstop (.refl _) hW hpos
    · exact absurd ((mem_newWords hW).2.2.1.trans (phrpos_of_closed h hout)) hpos

theorem WordState.Worded.word_inside (h : s.Worded) (hopen : openPhrase none s.items = some p)
    (isStop endOfPhrase : Bool) (forms : List UdmWordOrigin) (ncmds nphrasecmd : ℕ)
    (hlen : phrlen = if endOfPhrase then s.phrpos + 1 else 0) (hk : Keeps s.word word) :
    WordState.Worded ⟨⟨s.items ++ [wordItem isStop s.nuniq], ncmds, nphrasecmd, nextOrder isStop s.nuniq⟩,
      if endOfPhrase && !isStop then 0 else s.phrpos + 1, word ++ newWords isStop forms s.nuniq s.phrpos phrlen⟩ := by
  obtain ⟨hopen', hphrases⟩ := openPhrase_inside hopen (wordItem_cmd_ne isStop s.nuniq)
  have hcontents : p.items ++ [wordItem isStop s.nuniq] ∈ contents (s.items ++ [wordItem isStop s.nuniq]) := by
    rw [contents, hopen', List.map_append]
    exact List.mem_append_right _ (List.mem_singleton_self _)
  have hword : ∀ hstop : (∀ i ∈ s.items ++ [wordItem isStop s.nuniq], i.cmd ≠ .stop), isStop = false := by
    intro hstop
    cases isStop with
    | true => exact absurd rfl (hstop _ (List.mem_append_right _ (List.mem_singleton_self _)))
    | false => rfl
  refine ⟨fun hpos => ⟨_, hopen', by simp, fun hstop => ?_⟩, fun q z hq hitems => ?_, fun z hz hno => ?_,
    fun q hq z hitems => (hk.single z (h.alone q (hphrases ▸ hq) z hitems)).append _, fun hstop W hW hpos => ?_⟩
  · obtain rfl := hword hstop
    exact ⟨Nat.succ_pos _, List.mem_append_right _ (List.mem_singleton_self _)⟩
  · obtain rfl := Option.some.inj (hopen'.symm.trans hq)
    dsimp only at hitems ⊢
    -- the first word of the phrase: it ends the phrase, or waits for the end
    have hp : p.items = [] := by
      have hone := congrArg List.length hitems
      rw [List.length_append, List.length_singleton, List.length_singleton] at hone
      exact List.eq_nil_of_length_eq_zero (by omega)
    have hzero := phrpos_of_empty h hopen hp
    rw [hp, List.nil_append, List.singleton_inj] at hitems
    cases isStop with
    | true => exact absurd (congrArg UdmStackItem.cmd hitems) StackCmd.noConfusion
    | false =>
      have horder : s.nuniq = z := congrArg UdmStackItem.arg hitems
      have hnew : ∀ n, ⟨s.nuniq, 0, .query, s.phrpos, n⟩ ∈ newWords false forms s.nuniq s.phrpos n :=
        fun n => query_mem_newWords _ _ _ n
      cases endOfPhrase with
      | true =>
        rw [if_pos rfl, hzero] at hlen
        exact .inl ⟨_, List.mem_append_right _ (hnew phrlen), horder, UdmWordOrigin.noConfusion, hlen⟩
      | false =>
        rw [if_neg Bool.false_ne_true] at hlen
        subst hlen
        refine .inr ⟨by rw [hzero]; rfl, ⟨s.nuniq, 0, .query, s.phrpos, 0⟩, ?_, horder, UdmWordOrigin.noConfusion⟩
        rw [List.reverse_append, List.takeWhile_append_of_pos]
        · exact List.mem_append_left _ (List.mem_reverse.mpr (hnew 0))
        · intro W hW
          exact beq_iff_eq.mpr (mem_newWords (List.mem_reverse.mp hW)).2.2.2.1
  · rcases Nat.lt_or_ge z s.nuniq with hlt | hge
    · exact (hk.single z (h.free_append _ hlt hno)).append _
    · cases isStop with
      | true => exact absurd hz (Nat.not_lt.mpr hge)
      | false =>
        have hz : z < s.nuniq + 1 := hz
        obtain rfl : z = s.nuniq := by omega
        exact absurd (List.mem_append_right _ (List.mem_singleton_self _)) (hno _ hcontents)
  · rcases List.mem_append.mp hW with hW | hW
    · exact h.pair_append _ hstop hk hW hpos
    · obtain ⟨horder, -, hphrpos, -⟩ := mem_newWords hW
      obtain ⟨q, hq, -, hlast⟩ := h.inside (hphrpos ▸ hpos)
      obtain rfl := Option.some.inj (hopen.symm.trans hq)
      obtain ⟨hn, hmem⟩ := hlast fun i hi => hstop i (List.mem_append_left _ hi)
      obtain rfl := hword hstop
      refine ⟨_, hcontents, s.nuniq - 1, by omega, List.mem_append_left _ hmem, List.mem_append_right _ ?_⟩
      rw [Nat.sub_add_cancel hn]
      exact List.mem_singleton_self _

theorem worded_addLexToken (hb : s.Built) (h : s.Worded) (token : LexToken) : (addLexToken s token).Worded := by
  cases token with
  | op cmd arg => exact worded_addLexCmd hb h cmd arg
  | word isStop endOfPhrase forms =>
    rw [addLexToken, addLexWord]
    by_cases hmany : s.nuniq ≥ 64 - 1
    · rw [if_pos hmany]
      exact h
    · rw [if_neg hmany, udmStackItemListAddWord_eq hmany]
      cases ho : openPhrase none s.items with
      | none =>
        have heven := hb.openPhrase_eq_none_iff.mp ho
        simp only [heven, zero_ne_one, if_false, lt_irrefl]
        exact h.word_outside ho isStop forms _ _
      | some p =>
        have hodd : s.nphrasecmd % 2 = 1 := by
          by_contra heven
          rw [hb.openPhrase_eq_none_iff.mpr (by omega)] at ho
          contradiction
        simp only [hodd, if_true]
        exact h.word_inside ho isStop endOfPhrase forms _ _ rfl (keeps_of_phrlen _ _)

/-- What the parser keeps true of the words. -/
structure WordState.Kept (s : WordState) : Prop where
  built : s.Built
  /-- The positions of the words. -/
  listed : s.Listed
  /-- The words and the phrases. -/
  worded : s.Worded

/-- **The words of a query**, whatever was typed. -/
theorem kept_readTokens (tokens : List LexToken) : (readTokens tokens).Kept := by
  have h : ∀ s : WordState, s.Kept → (tokens.foldl addLexToken s).Kept := by
    induction tokens with
    | nil => exact fun s hs => hs
    | cons token tokens ih =>
      intro s hs
      refine ih _ ⟨?_, listed_addLexToken hs.listed token, worded_addLexToken hs.built hs.worded token⟩
      rw [toQueryState_addLexToken]
      exact built_addToken hs.built token.toToken
  refine h _ ⟨⟨⟨by simp, by simp, by simp⟩, by simp [quotesClosed]⟩, ⟨?_, ?_, ?_⟩, ⟨?_, ?_, ?_, ?_, ?_⟩⟩
  · exact fun o ho => absurd ho (Nat.not_lt_zero o)
  · exact fun W hW => absurd hW List.not_mem_nil
  · exact fun W hW => absurd hW List.not_mem_nil
  · exact fun hpos => absurd rfl hpos
  · exact fun p z hp => absurd hp (Option.some_ne_none p).symm
  · exact fun z hz => absurd hz (Nat.not_lt_zero z)
  · exact fun p hp => absurd hp List.not_mem_nil
  · exact fun _ W hW => absurd hW List.not_mem_nil

end MnoGoSearch.Query
