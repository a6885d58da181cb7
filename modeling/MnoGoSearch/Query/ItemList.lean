import MnoGoSearch.Query.Boolean

/-!
# The item list of a parsed query

The part of the query parser (`searchtool.c`) that builds the item list: what the lexer finds
is a sequence of operators and words, and `UdmStackItemListAddCmd` and
`UdmStackItemListAddWord` turn it into items. The parser accepts any sequence, so brackets
and operators may be misplaced; `itemsOk_parseQuery` collects what holds of every item list all
the same. Range operators, which take words back, are left out, and so are the word lists.
-/

namespace MnoGoSearch.Query

/-! ### The parser -/

/-- The operators that `UdmStackItemListAddCmd` recognizes. -/
inductive QueryOp where
  /-- `&` and `+`. -/
  | and
  /-- `|`. -/
  | or
  /-- `~`. -/
  | not
  /-- `(`. -/
  | left
  /-- `)`. -/
  | right
  /-- `"`. -/
  | quote
  deriving DecidableEq, Repr

/-- The item of an operator. -/
def QueryOp.cmd : QueryOp → StackCmd
  | .and => .and
  | .or => .or
  | .not => .not
  | .left => .left
  | .right => .right
  | .quote => .phrase

/-- What the lexer finds in the query string. -/
inductive QueryToken where
  /-- An operator, with the match type of the section it stands in. -/
  | op (op : QueryOp) (arg : ℕ)
  /-- A word; `isStop` when the stop word list or the word length rules it out. -/
  | word (isStop : Bool)
  deriving DecidableEq, Repr

/-- The part of the parser state that builds the item list. -/
structure QueryState where
  /-- `ItemList.items`. -/
  items : List UdmStackItem
  /-- `ItemList.ncmds`. -/
  ncmds : ℕ
  /-- The number of quotes so far. -/
  nphrasecmd : ℕ
  /-- `WWList.nuniq`. -/
  nuniq : ℕ
  deriving DecidableEq, Repr

/-- `UdmStackItemListAddCmd` for one operator. -/
def udmStackItemListAddCmd (s : QueryState) (op : QueryOp) (arg : ℕ) : QueryState :=
  let nphrasecmd := if op = .quote then s.nphrasecmd + 1 else s.nphrasecmd
  -- Ignore all operators if we are in a phrase, except phrase end.
  if nphrasecmd % 2 = 0 ∨ op = .quote then
    { s with items := s.items ++ [⟨op.cmd, arg⟩], ncmds := s.ncmds + 1, nphrasecmd := nphrasecmd }
  else { s with nphrasecmd := nphrasecmd }

/-- `UdmStackItemListAddWord`: a stop word gets the position of the next word. -/
def udmStackItemListAddWord (s : QueryState) (isStop : Bool) : QueryState :=
  if s.nuniq ≥ 64 - 1 then s
  else if isStop then { s with items := s.items ++ [⟨.stop, s.nuniq⟩] }
  else { s with items := s.items ++ [⟨.word, s.nuniq⟩], nuniq := s.nuniq + 1 }

/-- One token. -/
def addToken (s : QueryState) : QueryToken → QueryState
  | .op op arg => udmStackItemListAddCmd s op arg
  | .word isStop => udmStackItemListAddWord s isStop

/-- The end of `UdmPrepare`: a phrase left open is closed. -/
def closePhrase (s : QueryState) : QueryState :=
  if s.nphrasecmd % 2 = 1 then { s with items := s.items ++ [⟨.phrase, 0⟩], ncmds := s.ncmds + 1 } else s

/-- The item list of a query, without range operators. -/
def parseQuery (tokens : List QueryToken) : QueryState :=
  closePhrase (tokens.foldl addToken ⟨[], 0, 0, 0⟩)

/-! ### What holds of every item list -/

/-- Every opened phrase is closed. -/
def quotesClosed : Bool → List UdmStackItem → Bool
  | inphrase, [] => !inphrase
  | inphrase, item :: items => quotesClosed (if item.cmd = .phrase then !inphrase else inphrase) items

/-- What the items of a query are, whatever was typed. -/
structure QueryState.ItemsOk (s : QueryState) : Prop where
  /-- The words have the positions below `nuniq`. -/
  word : ∀ z, ⟨.word, z⟩ ∈ s.items ↔ z < s.nuniq
  /-- The stack bottom is no item. -/
  noBot : ∀ item ∈ s.items, item.cmd ≠ .bot
  /-- `ncmds` counts what is neither a word nor a stop word. -/
  ncmds : s.ncmds = 0 ↔ ∀ item ∈ s.items, item.cmd = .word ∨ item.cmd = .stop

/-- What the parser keeps true while it reads. -/
structure QueryState.Built (s : QueryState) : Prop extends s.ItemsOk where
  /-- A phrase is open after an odd number of quotes. -/
  quotes : quotesClosed false s.items = true ↔ s.nphrasecmd % 2 = 0

theorem quotesClosed_concat (inphrase : Bool) (items : List UdmStackItem) (item : UdmStackItem) :
    quotesClosed inphrase (items ++ [item]) =
      if item.cmd = .phrase then !quotesClosed inphrase items else quotesClosed inphrase items := by
  induction items generalizing inphrase with
  | nil => by_cases hc : item.cmd = .phrase <;> simp [quotesClosed, hc]
  | cons first items ih => exact ih _

theorem QueryOp.cmd_ne (op : QueryOp) : op.cmd ≠ .word ∧ op.cmd ≠ .stop ∧ op.cmd ≠ .bot := by
  cases op <;> simp [QueryOp.cmd]

theorem QueryOp.cmd_eq_phrase (op : QueryOp) : op.cmd = .phrase ↔ op = .quote := by
  cases op <;> simp [QueryOp.cmd]

variable {s : QueryState}

theorem QueryState.ItemsOk.append_op (h : s.ItemsOk) {c : StackCmd} (arg nphrasecmd : ℕ)
    (hc : c ≠ .word ∧ c ≠ .stop ∧ c ≠ .bot) :
    QueryState.ItemsOk ⟨s.items ++ [⟨c, arg⟩], s.ncmds + 1, nphrasecmd, s.nuniq⟩ where
  word z := by simpa [hc.1.symm] using h.word z
  noBot item hitem := by
    rcases List.mem_append.mp hitem with hitem | hitem
    · exact h.noBot item hitem
    · rw [List.mem_singleton.mp hitem]
      exact hc.2.2
  ncmds := by simp [hc.1, hc.2.1]

theorem built_udmStackItemListAddCmd (h : s.Built) (op : QueryOp) (arg : ℕ) :
    (udmStackItemListAddCmd s op arg).Built := by
  have hquotes := quotesClosed_concat false s.items ⟨op.cmd, arg⟩
  simp only [op.cmd_eq_phrase] at hquotes
  rw [udmStackItemListAddCmd]
  by_cases hop : op = .quote
  · simp only [hop, if_true, or_true]
    refine ⟨h.append_op arg _ (QueryOp.cmd_ne .quote), ?_⟩
    subst hop
    have hpar : ¬ quotesClosed false s.items = true ↔ ¬ s.nphrasecmd % 2 = 0 := not_congr h.quotes
    rw [hquotes, if_pos rfl, Bool.not_eq_true', ← Bool.not_eq_true, hpar]
    simp only
    omega
  · simp only [hop, if_false, or_false]
    split
    · refine ⟨h.append_op arg _ op.cmd_ne, ?_⟩
      rw [hquotes, if_neg hop]
      exact h.quotes
    · exact ⟨⟨h.word, h.noBot, h.ncmds⟩, h.quotes⟩

theorem built_udmStackItemListAddWord (h : s.Built) (isStop : Bool) : (udmStackItemListAddWord s isStop).Built := by
  rw [udmStackItemListAddWord]
  split
  · exact h
  · cases isStop with
    | true =>
      refine ⟨⟨fun z => ?_, ?_, ?_⟩, ?_⟩
      · simpa using h.word z
      · simpa [or_imp, forall_and] using h.noBot
      · simpa [or_imp, forall_and] using h.ncmds
      · have hq := quotesClosed_concat false s.items ⟨.stop, s.nuniq⟩
        simp only [reduceCtorEq, if_false] at hq
        simpa [hq] using h.quotes
    | false =>
      refine ⟨⟨fun z => ?_, ?_, ?_⟩, ?_⟩
      · have hz := h.word z
        simp only [Bool.false_eq_true, if_false, List.mem_append, List.mem_singleton, UdmStackItem.mk.injEq, true_and, hz]
        omega
      · simpa [or_imp, forall_and] using h.noBot
      · simpa [or_imp, forall_and] using h.ncmds
      · have hq := quotesClosed_concat false s.items ⟨.word, s.nuniq⟩
        simp only [reduceCtorEq, if_false] at hq
        simpa [hq] using h.quotes

theorem built_addToken (h : s.Built) (token : QueryToken) : (addToken s token).Built := by
  cases token with
  | op op arg => exact built_udmStackItemListAddCmd h op arg
  | word isStop => exact built_udmStackItemListAddWord h isStop

theorem built_foldl (h : s.Built) (tokens : List QueryToken) : (tokens.foldl addToken s).Built := by
  induction tokens generalizing s with
  | nil => exact h
  | cons token tokens ih => exact ih (built_addToken h token)

/-- **Every parsed item list** has the words `0` to `nuniq - 1`, counts its operators and
closes its phrases. -/
theorem itemsOk_parseQuery (tokens : List QueryToken) :
    (parseQuery tokens).ItemsOk ∧ quotesClosed false (parseQuery tokens).items = true := by
  have hinit : QueryState.Built ⟨[], 0, 0, 0⟩ := ⟨⟨by simp, by simp, by simp⟩, by simp [quotesClosed]⟩
  have h := built_foldl hinit tokens
  rw [parseQuery, closePhrase]
  split
  · rename_i hodd
    have hopen : ¬ quotesClosed false (tokens.foldl addToken ⟨[], 0, 0, 0⟩).items = true := by
      rw [h.quotes]
      omega
    refine ⟨h.append_op 0 _ (QueryOp.cmd_ne .quote), ?_⟩
    rw [quotesClosed_concat, if_pos rfl, Bool.not_eq_true', ← Bool.not_eq_true]
    exact hopen
  · rename_i heven
    exact ⟨h.toItemsOk, h.quotes.mpr (by omega)⟩

end MnoGoSearch.Query
