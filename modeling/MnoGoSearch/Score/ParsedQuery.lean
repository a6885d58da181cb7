import MnoGoSearch.Query.ParsedWords
import MnoGoSearch.Score.QuickSkip

/-!
# The quick skip in a parsed query

What `QuickSkip` asks of the words holds of the words that the parser makes, so `quickSkipSound_iff` is about
every query. The skip is unsound for a phrase that is closed by the end of the query only: `UdmPrepare` adds the quote
to the item list, but the words keep the phrase length 0, and the first of them counts for the whole phrase.
-/

namespace MnoGoSearch.Score

open Query

/-- What `UdmComplexSynonyms` adds: synonyms of words that stand in the query one behind the other and do not end with
a stop word. -/
structure SynonymsOf (nuniq : ℕ) (synonyms : List UdmWideWord) : Prop where
  searched : ∀ W ∈ synonyms, W.origin ≠ .stop
  /-- They cover positions of the query only. -/
  within : ∀ W ∈ synonyms, W.order + max 1 W.orderExtraWidth ≤ nuniq

/-- The parameters of a query after `UdmScoreParamInitStep2`, with its words. -/
def queryParam (mode : UdmSearchMode) (tokens : List LexToken) (synonyms : List UdmWideWord) : ScoreParam :=
  scoreParam mode (tokens.map LexToken.toToken) (wordList tokens synonyms)

section

variable {tokens : List LexToken} {synonyms : List UdmWideWord} {s : QueryState} {z : ℕ}

theorem parseQuery_eq_closePhrase (tokens : List LexToken) :
    parseQuery (tokens.map LexToken.toToken) = closePhrase (readTokens tokens).toQueryState := by
  rw [parseQuery, toQueryState_readTokens]

theorem nuniq_closePhrase (s : QueryState) : (closePhrase s).nuniq = s.nuniq := by
  rw [closePhrase]
  split_ifs <;> rfl

theorem wordsOf_wordList (hsyn : SynonymsOf (readTokens tokens).nuniq synonyms) :
    WordsOf (parseQuery (tokens.map LexToken.toToken)) (wordList tokens synonyms) where
  nuniq := by
    rw [parseQuery_eq_closePhrase, nuniq_closePhrase]
    rfl
  word o ho := by
    obtain ⟨W, hW, h⟩ := (kept_readTokens tokens).listed.word o ho
    exact ⟨W, List.mem_append_left _ hW, h⟩
  within W hW hstop := by
    rcases List.mem_append.mp hW with hW | hW
    · have hlt : W.order + 1 ≤ (readTokens tokens).nuniq := (kept_readTokens tokens).listed.order_lt W hW hstop
      rw [(kept_readTokens tokens).listed.narrow W hW]
      exact hlt
    · exact hsyn.within W hW
  stop W hW hstop := by
    rcases List.mem_append.mp hW with hW | hW
    · exact (kept_readTokens tokens).listed.narrow W hW
    · exact absurd hstop (hsyn.searched W hW)

/-! ### The phrases -/

theorem light_of_single (h : Single (readTokens tokens).word z) : Light (wordList tokens synonyms) z := by
  obtain ⟨W, hW, horder, hstop, hlen⟩ := h
  exact ⟨W, List.mem_append_left _ hW, hstop, by omega, horder⟩

theorem light_of_waiting (h : Waiting (readTokens tokens).word z) : Light (wordList tokens synonyms) z := by
  obtain ⟨W, hW, horder, hstop⟩ := h
  have hnone : noPhrlen W = true := List.mem_takeWhile_imp hW
  have hzero : W.phrlen = 0 := beq_iff_eq.mp hnone
  have hmem : W ∈ (readTokens tokens).word := List.mem_reverse.mp ((List.takeWhile_prefix _).subset hW)
  exact ⟨W, List.mem_append_left _ hmem, hstop, by omega, horder⟩

theorem mem_phrases_closePhrase (hb : s.Built) {p : Phrase} :
    p ∈ phrases none (closePhrase s).items ↔ p ∈ phrases none s.items ∨ ∃ q, openPhrase none s.items = some q ∧
      p = { q with closing := 0 } := by
  rw [closePhrase]
  cases ho : openPhrase none s.items with
  | none =>
    have heven := hb.openPhrase_eq_none_iff.mp ho
    rw [if_neg (by omega)]
    simp
  | some q =>
    have hodd : s.nphrasecmd % 2 = 1 := by
      by_contra heven
      rw [hb.openPhrase_eq_none_iff.mpr (by omega)] at ho
      contradiction
    rw [if_pos hodd]
    dsimp only
    rw [phrases_append, ho, List.mem_append, phrases, if_pos rfl, phrases, List.mem_singleton]
    simp

theorem exists_phrase_of_contents (hb : s.Built) {l : List UdmStackItem} (hl : l ∈ contents s.items) :
    ∃ p ∈ phrases none (closePhrase s).items, p.items = l := by
  obtain ⟨p, hp, rfl⟩ := List.mem_map.mp hl
  rcases List.mem_append.mp hp with hp | hp
  · exact ⟨p, (mem_phrases_closePhrase hb).mpr (.inl hp), rfl⟩
  · exact ⟨{ p with closing := 0 }, (mem_phrases_closePhrase hb).mpr (.inr ⟨p, Option.mem_toList.mp hp, rfl⟩), rfl⟩

theorem two_le_length {word : List UdmWideWord} {V W : UdmWideWord} (hV : V ∈ word) (hW : W ∈ word)
    (hne : V.order ≠ W.order) : 2 ≤ word.length := by
  rcases word with _ | ⟨U, _ | ⟨U', word⟩⟩
  · contradiction
  · rw [List.mem_singleton.mp hV, List.mem_singleton.mp hW] at hne
    contradiction
  · rw [List.length_cons, List.length_cons]
    omega

theorem getElem?_one_wordList (h : (readTokens tokens).nuniq = 2) :
    ∃ W ∈ (readTokens tokens).word, (wordList tokens synonyms).word[1]? = some W := by
  obtain ⟨V, hV, -, hV0⟩ := (kept_readTokens tokens).listed.word 0 (by omega)
  obtain ⟨W, hW, -, hW1⟩ := (kept_readTokens tokens).listed.word 1 (by omega)
  have hlen : 1 < (readTokens tokens).word.length := two_le_length hV hW (by omega)
  refine ⟨(readTokens tokens).word[1], List.getElem_mem hlen, ?_⟩
  rw [wordList, List.getElem?_append_left hlen, List.getElem?_eq_getElem hlen]

theorem phrasesOf_completeItems (mode : UdmSearchMode) :
    PhrasesOf (completeItems mode (parseQuery (tokens.map LexToken.toToken)).items) (wordList tokens synonyms) := by
  have hkept := kept_readTokens tokens
  rw [parseQuery_eq_closePhrase]
  have hphrases := phrases_completeItems mode (closePhrase (readTokens tokens).toQueryState).items
  constructor
  · intro z hz hno
    rw [hphrases] at hno
    refine light_of_single (hkept.worded.free z hz fun l hl hmem => ?_)
    obtain ⟨p, hp, rfl⟩ := exists_phrase_of_contents hkept.built hl
    exact hno p hp (Phrase.mem_words.mpr hmem)
  · intro p hp z hitems
    rw [hphrases, mem_phrases_closePhrase hkept.built] at hp
    rcases hp with hp | ⟨q, hq, rfl⟩
    · exact light_of_single (hkept.worded.alone p hp z hitems)
    · rcases hkept.worded.first q z hq hitems with hsingle | ⟨-, hwait⟩
      · exact light_of_single hsingle
      · exact light_of_waiting hwait
  · intro hstop hn hpos
    have hn : (readTokens tokens).nuniq = 2 := hn
    obtain ⟨W, hW, hget⟩ := @getElem?_one_wordList _ synonyms hn
    rw [hget] at hpos
    have hsub : ∀ item ∈ (readTokens tokens).items, item ∈ (closePhrase (readTokens tokens).toQueryState).items := by
      intro item hitem
      rw [closePhrase]
      split_ifs
      · exact List.mem_append_left _ hitem
      · exact hitem
    obtain ⟨l, hl, a, -, h0, h1⟩ := hkept.worded.pair
      (fun item hitem => hstop item (mem_completeItems_of_mem (hsub item hitem))) W hW hpos
    obtain ⟨p, hp, rfl⟩ := exists_phrase_of_contents hkept.built hl
    -- the only two neighbours among two words
    have hquery := itemsOk_parseQuery (tokens.map LexToken.toToken)
    rw [parseQuery_eq_closePhrase] at hquery
    have hsegmented := segmented_of_quotesClosed hquery.2
    have hlt := (hquery.1.word (a + 1)).mp ((hsegmented.mem_phrases hp).1 _ h1).1
    rw [nuniq_closePhrase, hn] at hlt
    obtain rfl : a = 0 := by omega
    exact ⟨p, hphrases ▸ hp, Phrase.mem_words.mpr h0, Phrase.mem_words.mpr h1⟩

/-- **When the quick skip is sound**: no document is skipped, or the words that a document must have to be accepted
pass the tests. -/
theorem quickSkipSound_iff (env : ScoreSetup) (mode : UdmSearchMode) (tokens : List LexToken)
    (synonyms : List UdmWideWord) (hsyn : SynonymsOf (readTokens tokens).nuniq synonyms) :
    QuickSkipSound env (queryParam mode tokens synonyms) ↔
      (queryParam mode tokens synonyms).searchMode ≠ .bool ∨ (readTokens tokens).nuniq ≤ 1 ∨
        phrases none (queryParam mode tokens synonyms).itemList = [] ∨
        udmOptimizeUsingAND (queryParam mode tokens synonyms).itemList .bool = false ∨
        (∃ z ∈ boolReads false (queryParam mode tokens synonyms).itemList,
          (readTokens tokens).nuniq ≤ z ∧ env.beyond z = 0) ∨
        SkipSafe env (queryParam mode tokens synonyms) := by
  by_cases hphrases : phrases none (queryParam mode tokens synonyms).itemList = []
  · exact iff_of_true (fun _ _ hne => absurd hphrases hne) (.inr (.inr (.inl hphrases)))
  · refine quickSkipSound_iff_of_words env mode (tokens.map LexToken.toToken) (wordsOf_wordList hsyn) ?_
    rw [itemList_of_phrases hphrases]
    exact phrasesOf_completeItems mode

end

/-- `"dog cat`, without a closing quote. -/
def dogCat : List LexToken := [.op .quote 0, .word false false [], .word false false []]

theorem quickSkipSound_dogCat :
    QuickSkipSound plainSetup (queryParam .bool dogCat []) ↔
      (queryParam .bool dogCat []).searchMode ≠ .bool ∨ (readTokens dogCat).nuniq ≤ 1 ∨
        phrases none (queryParam .bool dogCat []).itemList = [] ∨
        udmOptimizeUsingAND (queryParam .bool dogCat []).itemList .bool = false ∨
        (∃ z ∈ boolReads false (queryParam .bool dogCat []).itemList,
          (readTokens dogCat).nuniq ≤ z ∧ plainSetup.beyond z = 0) ∨
        SkipSafe plainSetup (queryParam .bool dogCat []) :=
  quickSkipSound_iff plainSetup .bool dogCat []
    ⟨fun _ h => absurd h List.not_mem_nil, fun _ h => absurd h List.not_mem_nil⟩

/-- A document with "dog" alone is skipped, but the evaluation would accept it. -/
theorem not_quickSkipSound : ¬QuickSkipSound plainSetup (queryParam .bool dogCat []) := by
  intro h
  have hitem : ∀ r ∈ [[((0 : ℕ), (⟨0, 0, .query, 0, 0⟩ : UdmWideWord))]], ∀ q ∈ r, IsItem (wordList dogCat []) q := by
    intro r hr q hq
    rw [List.mem_singleton.mp hr] at hq
    rw [List.mem_singleton.mp hq]
    exact ⟨rfl, UdmWordOrigin.noConfusion⟩
  have hne : ∀ r ∈ [[((0 : ℕ), (⟨0, 0, .query, 0, 0⟩ : UdmWideWord))]], r ≠ [] := by
    intro r hr
    rw [List.mem_singleton.mp hr]
    exact List.cons_ne_nil _ _
  have hphrases : phrases none (queryParam .bool dogCat []).itemList ≠ [] := by decide
  have hand : udmOptimizeUsingAND (queryParam .bool dogCat []).itemList .bool = true := by decide
  have hbeyond : ∀ z ∈ boolReads false (queryParam .bool dogCat []).itemList, 2 ≤ z → plainSetup.beyond z ≠ 0 := by
    decide
  refine h rfl (by decide) hphrases _ (documentOf_docOfRuns (List.cons_ne_nil _ _) (by decide) hne hitem) ?_
    (accepts_of_counts hphrases (plainAnd_of_optimize hand) hbeyond fun z hz => ?_)
  · rw [quickSkip_eq]
    exact ⟨hand, .inl (by decide)⟩
  · obtain rfl : z = 0 := by
      have hread : readWords (queryParam .bool dogCat []) = [0] := by decide
      exact List.mem_singleton.mp (hread ▸ hz)
    exact (docCounts_docOfRuns rfl (itemsOf_scoreParam .bool _ _).segmented hne hitem 0).mpr
      (.inl ⟨_, List.mem_singleton_self _, _, List.mem_singleton_self _, Nat.zero_lt_two, rfl⟩)

end MnoGoSearch.Score
