import MnoGoSearch.Query.ItemCopy

/-!
# The phrases of a query

A phrase is what stands between two quotes of an item list. `phrases` collects them, and `boolReads`
lists the positions at which `UdmCalcBoolItems` reads the count array: of a phrase it reads the
position that the item behind the opening quote has, which is the closing quote if the phrase is empty.
`placed_copy` says how the items that the parser makes are numbered, and `lt_of_mem_boolReads` that
nothing but a phrase without a word makes the evaluation read behind the last word of the query.
-/

namespace MnoGoSearch.Query

/-- A phrase: the match type of its opening quote, the items in it and the match type of the closing quote. -/
structure Phrase where
  /-- The argument of the opening quote. -/
  arg : ℕ
  /-- The items between the quotes. -/
  items : List UdmStackItem
  /-- The argument of the closing quote. -/
  closing : ℕ
  deriving DecidableEq, Repr

/-- The items of a phrase with its quotes. -/
def Phrase.toItems (p : Phrase) : List UdmStackItem := ⟨.phrase, p.arg⟩ :: (p.items ++ [⟨.phrase, p.closing⟩])

/-- The phrases of an item list; with `some p` the beginning of `p` has been read. -/
@[grind =] def phrases : Option Phrase → List UdmStackItem → List Phrase
  | _, [] => []
  | none, item :: items => phrases (if item.cmd = .phrase then some ⟨item.arg, [], 0⟩ else none) items
  | some p, item :: items =>
    if item.cmd = .phrase then { p with closing := item.arg } :: phrases none items
    else phrases (some { p with items := p.items ++ [item] }) items

/-- The position of the item behind the opening quote. -/
def Phrase.index (p : Phrase) : ℕ := (p.items.head?.map UdmStackItem.arg).getD p.closing

/-- There is no word in the phrase. -/
def Phrase.StopOnly (p : Phrase) : Prop := ∀ item ∈ p.items, item.cmd = .stop

instance (p : Phrase) : Decidable p.StopOnly := inferInstanceAs (Decidable (∀ item ∈ p.items, item.cmd = .stop))

/-- The words of a phrase. -/
def Phrase.words (p : Phrase) : List ℕ := (p.items.filter fun item => item.cmd = .word).map UdmStackItem.arg

variable {p : Phrase} {z n : ℕ} {addCmd : StackCmd} {item : UdmStackItem} {inner items : List UdmStackItem}

theorem Phrase.mem_words : z ∈ p.words ↔ ⟨.word, z⟩ ∈ p.items := by
  simp only [Phrase.words, List.mem_map, List.mem_filter, decide_eq_true_eq]
  constructor
  · rintro ⟨⟨cmd, arg⟩, ⟨hitem, hcmd⟩, rfl⟩
    obtain rfl : cmd = .word := hcmd
    exact hitem
  · exact fun h => ⟨⟨.word, z⟩, ⟨h, rfl⟩, rfl⟩

theorem words_eq_of_word (h : ∀ item ∈ p.items, item.cmd = .word) : p.words = p.items.map UdmStackItem.arg := by
  rw [Phrase.words, List.filter_eq_self.mpr fun item hitem => decide_eq_true (h item hitem)]

/-- The positions at which `calcItems` reads the count array. -/
@[grind =] def boolReads : Bool → List UdmStackItem → List ℕ
  | _, [] => []
  | true, item :: items => boolReads (item.cmd != .phrase) items
  | false, item :: items =>
    match item.cmd with
    | .phrase => (items.head?.map UdmStackItem.arg).toList ++ boolReads true items
    | .word => item.arg :: boolReads false items
    | _ => boolReads false items

/-! ### Item lists with closed quotes -/

/-- An item list made of items outside phrases and of phrases. -/
inductive Segmented : List UdmStackItem → Prop where
  | nil : Segmented []
  /-- An item outside phrases. -/
  | item {item : UdmStackItem} {items : List UdmStackItem} :
      item.cmd ≠ .phrase → Segmented items → Segmented (item :: items)
  | phrase (p : Phrase) {items : List UdmStackItem} :
      (∀ item ∈ p.items, item.cmd ≠ .phrase) → Segmented items → Segmented (p.toItems ++ items)

theorem exists_closing (h : quotesClosed true items = true) :
    ∃ inner b rest, items = inner ++ ⟨.phrase, b⟩ :: rest ∧ (∀ item ∈ inner, item.cmd ≠ .phrase) ∧
      quotesClosed false rest = true := by
  induction items with
  | nil => contradiction
  | cons item items ih =>
    rw [quotesClosed] at h
    by_cases hc : item.cmd = .phrase
    · obtain ⟨cmd, b⟩ := item
      subst hc
      exact ⟨[], b, items, rfl, fun _ hmem => absurd hmem List.not_mem_nil, h⟩
    · rw [if_neg hc] at h
      obtain ⟨inner, b, rest, rfl, hinner, hrest⟩ := ih h
      exact ⟨item :: inner, b, rest, rfl, List.forall_mem_cons.mpr ⟨hc, hinner⟩, hrest⟩

theorem segmented_of_quotesClosed (h : quotesClosed false items = true) : Segmented items := by
  induction hn : items.length using Nat.strong_induction_on generalizing items with
  | _ n ih =>
    cases items with
    | nil => exact .nil
    | cons item items =>
      rw [quotesClosed] at h
      by_cases hc : item.cmd = .phrase
      · rw [if_pos hc] at h
        obtain ⟨inner, b, rest, rfl, hinner, hrest⟩ := exists_closing h
        obtain ⟨cmd, a⟩ := item
        subst hc
        have hlen : rest.length < n := by
          simp only [← hn, List.length_cons, List.length_append]
          omega
        have hsplit := Segmented.phrase ⟨a, inner, b⟩ hinner (ih _ hlen hrest rfl)
        simpa only [Phrase.toItems, List.cons_append, List.append_assoc, List.nil_append] using hsplit
      · rw [if_neg hc] at h
        exact .item hc (ih _ (by simp only [← hn, List.length_cons]; omega) h rfl)

theorem phrases_some (p : Phrase) (h : ∀ item ∈ inner, item.cmd ≠ .phrase) (b : ℕ) (items : List UdmStackItem) :
    phrases (some p) (inner ++ ⟨.phrase, b⟩ :: items) = ⟨p.arg, p.items ++ inner, b⟩ :: phrases none items := by
  induction inner generalizing p with
  | nil => simp only [List.nil_append, phrases, if_true, List.append_nil]
  | cons item inner ih =>
    obtain ⟨hitem, hinner⟩ := List.forall_mem_cons.mp h
    rw [List.cons_append, phrases, if_neg hitem, ih _ hinner, List.append_assoc, List.singleton_append]

theorem phrases_item (h : item.cmd ≠ .phrase) (items : List UdmStackItem) :
    phrases none (item :: items) = phrases none items := by
  rw [phrases, if_neg h]

theorem phrases_toItems (h : ∀ item ∈ p.items, item.cmd ≠ .phrase) (items : List UdmStackItem) :
    phrases none (p.toItems ++ items) = p :: phrases none items := by
  have hsome := phrases_some ⟨p.arg, [], 0⟩ h p.closing items
  rw [List.nil_append] at hsome
  rw [Phrase.toItems, List.cons_append, List.append_assoc, List.singleton_append, phrases, if_pos rfl, hsome]

theorem boolReads_true (h : ∀ item ∈ inner, item.cmd ≠ .phrase) (b : ℕ)
    (items : List UdmStackItem) : boolReads true (inner ++ ⟨.phrase, b⟩ :: items) = boolReads false items := by
  induction inner with
  | nil => rfl
  | cons item inner ih =>
    obtain ⟨hitem, hinner⟩ := List.forall_mem_cons.mp h
    rw [List.cons_append, boolReads, bne_iff_ne.mpr hitem]
    exact ih hinner

theorem boolReads_toItems (h : ∀ item ∈ p.items, item.cmd ≠ .phrase) (items : List UdmStackItem) :
    boolReads false (p.toItems ++ items) = p.index :: boolReads false items := by
  have htrue := boolReads_true h p.closing items
  rw [Phrase.toItems, List.cons_append, List.append_assoc, List.singleton_append, boolReads, htrue, Phrase.index]
  cases p.items <;> rfl

theorem calcItems_toItems (count : ℕ → UInt8) (h : ∀ item ∈ p.items, item.cmd ≠ .phrase)
    (items : List UdmStackItem) (s : UdmBoolStack) :
    calcItems count false (p.toItems ++ items) s =
      calcItems count false items ⟨s.cstack, flag (count p.index != 0) :: s.astack⟩ := by
  have hskip := calcItems_skip count h p.closing items ⟨s.cstack, flag (count p.index != 0) :: s.astack⟩
  rw [Phrase.toItems, List.cons_append, List.append_assoc, List.singleton_append, ← hskip, Phrase.index]
  cases p.items <;> rfl

theorem operandsTrue_toItems (count : ℕ → UInt8) (h : ∀ item ∈ p.items, item.cmd ≠ .phrase)
    (items : List UdmStackItem) :
    operandsTrue count false (p.toItems ++ items) = (count p.index != 0 && operandsTrue count false items) := by
  have htrue : ∀ inner : List UdmStackItem, (∀ item ∈ inner, item.cmd ≠ .phrase) →
      operandsTrue count true (inner ++ ⟨.phrase, p.closing⟩ :: items) = operandsTrue count false items := by
    intro inner hinner
    induction inner with
    | nil => rfl
    | cons item inner ih =>
      obtain ⟨hitem, hinner⟩ := List.forall_mem_cons.mp hinner
      rw [List.cons_append, operandsTrue, bne_iff_ne.mpr hitem]
      exact ih hinner
  rw [Phrase.toItems, List.cons_append, List.append_assoc, List.singleton_append, operandsTrue, htrue _ h, Phrase.index]
  cases p.items <;> rfl

theorem operandsTrue_iff_boolReads (count : ℕ → UInt8) (hs : Segmented items) :
    operandsTrue count false items = true ↔ ∀ z ∈ boolReads false items, count z ≠ 0 := by
  induction hs with
  | nil => simp [operandsTrue, boolReads]
  | @item item items hc hs ih =>
    obtain ⟨cmd, arg⟩ := item
    cases cmd with
    | word =>
      rw [operandsTrue, boolReads, Bool.and_eq_true, bne_iff_ne, ih, List.forall_mem_cons]
    | phrase => exact absurd rfl hc
    | left | right | bot | or | and | not | stop => exact ih
  | phrase p hp hs ih =>
    rw [operandsTrue_toItems count hp, boolReads_toItems hp, Bool.and_eq_true, bne_iff_ne, ih, List.forall_mem_cons]

theorem Segmented.mem_phrases (h : Segmented items) (hp : p ∈ phrases none items) :
    (∀ item ∈ p.items, item ∈ items ∧ item.cmd ≠ .phrase) ∧ p.index ∈ boolReads false items := by
  induction h with
  | nil => contradiction
  | @item item items hc hs ih =>
    rw [phrases_item hc] at hp
    obtain ⟨hitems, hindex⟩ := ih hp
    refine ⟨fun i hi => ⟨List.mem_cons_of_mem _ (hitems i hi).1, (hitems i hi).2⟩, ?_⟩
    rw [boolReads]
    split
    · contradiction
    · exact List.mem_cons_of_mem _ hindex
    · exact hindex
  | @phrase q items hq hs ih =>
    rw [phrases_toItems hq] at hp
    rw [boolReads_toItems hq]
    rcases List.mem_cons.mp hp with rfl | hp
    · refine ⟨fun i hi => ⟨List.mem_append_left _ (List.mem_cons_of_mem _ (List.mem_append_left _ hi)), hq i hi⟩, ?_⟩
      exact List.mem_cons_self
    · obtain ⟨hitems, hindex⟩ := ih hp
      exact ⟨fun i hi => ⟨List.mem_append_right _ (hitems i hi).1, (hitems i hi).2⟩, List.mem_cons_of_mem _ hindex⟩

/-- The phrase that is open at the end of an item list, as far as it has been read. -/
@[grind =] def openPhrase : Option Phrase → List UdmStackItem → Option Phrase
  | o, [] => o
  | none, item :: items => openPhrase (if item.cmd = .phrase then some ⟨item.arg, [], 0⟩ else none) items
  | some p, item :: items =>
    if item.cmd = .phrase then openPhrase none items else openPhrase (some { p with items := p.items ++ [item] }) items

theorem phrases_append (o : Option Phrase) (l l' : List UdmStackItem) :
    phrases o (l ++ l') = phrases o l ++ phrases (openPhrase o l) l' := by
  induction l generalizing o with
  | nil => cases o <;> simp [phrases, openPhrase]
  | cons item l ih =>
    cases o with
    | none => rw [List.cons_append, phrases, phrases, openPhrase, ih]
    | some p =>
      rw [List.cons_append, phrases, phrases, openPhrase]
      split_ifs <;> rw [ih]
      rfl

theorem openPhrase_append (o : Option Phrase) (l l' : List UdmStackItem) :
    openPhrase o (l ++ l') = openPhrase (openPhrase o l) l' := by
  induction l generalizing o with
  | nil => rfl
  | cons item l ih =>
    cases o with
    | none => rw [List.cons_append, openPhrase, openPhrase, ih]
    | some p =>
      rw [List.cons_append, openPhrase, openPhrase]
      split_ifs <;> rw [ih]

theorem openPhrase_isSome (o : Option Phrase) (l : List UdmStackItem) :
    (openPhrase o l).isSome = !quotesClosed o.isSome l := by
  induction l generalizing o with
  | nil => cases o <;> rfl
  | cons item l ih =>
    cases o with
    | none =>
      rw [openPhrase, quotesClosed, ih]
      split_ifs <;> rfl
    | some p =>
      rw [openPhrase, quotesClosed]
      split_ifs <;> rw [ih] <;> rfl

/-! ### The numbers of the items -/

/-- What the parser makes: a word and a stop word have the number of the words before them, and there is nothing else
in a phrase. `n` words have been read. -/
def Placed : Bool → ℕ → List UdmStackItem → Prop
  | _, _, [] => True
  | inphrase, n, item :: items =>
    match item.cmd with
    | .word => item.arg = n ∧ Placed inphrase (n + 1) items
    | .stop => item.arg = n ∧ Placed inphrase n items
    | .phrase => Placed (!inphrase) n items
    | _ => inphrase = false ∧ Placed inphrase n items

@[simp] theorem countCmd_nil (c : StackCmd) : countCmd c [] = 0 := rfl

theorem countCmd_cons (c : StackCmd) (item : UdmStackItem) (items : List UdmStackItem) :
    countCmd c (item :: items) = countCmd c items + if item.cmd = c then 1 else 0 := by
  simp [countCmd, List.countP_cons]

theorem countCmd_append (c : StackCmd) (l l' : List UdmStackItem) :
    countCmd c (l ++ l') = countCmd c l + countCmd c l' := List.countP_append

theorem placed_append (inphrase : Bool) (n : ℕ) (l l' : List UdmStackItem) :
    Placed inphrase n (l ++ l') ↔
      Placed inphrase n l ∧ Placed (!quotesClosed inphrase l) (n + countCmd .word l) l' := by
  induction l generalizing inphrase n with
  | nil => simp [Placed, quotesClosed]
  | cons item l ih =>
    obtain ⟨cmd, arg⟩ := item
    cases cmd with
    | word =>
      have hcount : n + countCmd .word (⟨.word, arg⟩ :: l) = n + 1 + countCmd .word l := by
        rw [countCmd_cons, if_pos rfl]
        omega
      rw [hcount]
      simp [Placed, quotesClosed, ih, and_assoc]
    | left | right | bot | or | and | not | stop | phrase =>
      simp [Placed, quotesClosed, countCmd_cons, ih, and_assoc]

/-- How the state of the parser numbers its items. -/
structure QueryState.Numbered (s : QueryState) : Prop where
  /-- The items are numbered. -/
  placed : Placed false 0 s.items
  count : countCmd .word s.items = s.nuniq

variable {s : QueryState}

theorem QueryState.Numbered.append (h : s.Numbered) (hc : item.cmd ≠ .word)
    (hitem : Placed (!quotesClosed false s.items) s.nuniq [item]) (ncmds nphrasecmd : ℕ) :
    QueryState.Numbered ⟨s.items ++ [item], ncmds, nphrasecmd, s.nuniq⟩ where
  placed := by
    rw [placed_append, Nat.zero_add, h.count]
    exact ⟨h.placed, hitem⟩
  count := by
    rw [countCmd_append, h.count, countCmd_cons, if_neg hc, countCmd_nil]
    rfl

theorem placed_op (inphrase : Bool) (n : ℕ) (op : QueryOp) (arg : ℕ) (h : op = .quote ∨ inphrase = false) :
    Placed inphrase n [⟨op.cmd, arg⟩] := by
  cases op <;> simp_all [Placed, QueryOp.cmd]

theorem numbered_addToken (hb : s.Built) (h : s.Numbered) (token : QueryToken) : (addToken s token).Numbered := by
  cases token with
  | op op arg =>
    rw [addToken, udmStackItemListAddCmd]
    split_ifs with hquote hadd hadd
    · exact h.append op.cmd_ne.1 (placed_op _ _ op arg (.inl hquote)) _ _
    · exact absurd (.inr hquote) hadd
    · have heven : s.nphrasecmd % 2 = 0 := hadd.resolve_right hquote
      have houtside : (!quotesClosed false s.items) = false := by rw [hb.quotes.mpr heven]; rfl
      exact h.append op.cmd_ne.1 (placed_op _ _ op arg (.inr houtside)) _ _
    · exact ⟨h.placed, h.count⟩
  | word isStop =>
    rw [addToken, udmStackItemListAddWord]
    split_ifs with hmany hstop
    · exact h
    · exact h.append StackCmd.noConfusion (show Placed _ _ [⟨.stop, s.nuniq⟩] from ⟨rfl, trivial⟩) _ _
    · refine ⟨?_, ?_⟩
      · rw [placed_append, Nat.zero_add, h.count]
        exact ⟨h.placed, rfl, trivial⟩
      · rw [countCmd_append, h.count, countCmd_cons, if_pos rfl, countCmd_nil]

theorem numbered_foldl (hb : s.Built) (h : s.Numbered) (tokens : List QueryToken) :
    (tokens.foldl addToken s).Numbered := by
  induction tokens generalizing s with
  | nil => exact h
  | cons token tokens ih => exact ih (built_addToken hb token) (numbered_addToken hb h token)

/-- **The numbers of a parsed item list.** -/
theorem numbered_parseQuery (tokens : List QueryToken) : (parseQuery tokens).Numbered := by
  have hb : QueryState.Built ⟨[], 0, 0, 0⟩ := ⟨⟨by simp, by simp, by simp⟩, by simp [quotesClosed]⟩
  have h := numbered_foldl hb ⟨trivial, rfl⟩ tokens
  rw [parseQuery, closePhrase]
  split_ifs
  · exact h.append StackCmd.noConfusion (placed_op _ _ .quote 0 (.inl rfl)) _ _
  · exact h

/-! ### The completed list -/

theorem placed_copyItems (hadd : addCmd = .or ∨ addCmd = .and) (prev : StackCmd)
    (inphrase : Bool) (n : ℕ) (items : List UdmStackItem) (h : Placed inphrase n items) :
    Placed inphrase n (copyItems addCmd prev inphrase items) ∧
      countCmd .word (copyItems addCmd prev inphrase items) = countCmd .word items := by
  induction items generalizing prev inphrase n with
  | nil => exact ⟨trivial, rfl⟩
  | cons item items ih =>
    have hrest : Placed inphrase n
          (item :: copyItems addCmd item.cmd (if item.cmd = .phrase then !inphrase else inphrase) items) ∧
        countCmd .word (item :: copyItems addCmd item.cmd (if item.cmd = .phrase then !inphrase else inphrase) items) =
          countCmd .word (item :: items) := by
      obtain ⟨cmd, arg⟩ := item
      rw [countCmd_cons, countCmd_cons]
      cases cmd with
      | word | stop => exact ⟨⟨h.1, (ih _ _ _ h.2).1⟩, congrArg (· + _) (ih _ _ _ h.2).2⟩
      | phrase => exact ⟨(ih _ _ _ h).1, congrArg (· + _) (ih _ _ _ h).2⟩
      | left | right | bot | or | and | not => exact ⟨⟨h.1, (ih _ _ _ h.2).1⟩, congrArg (· + _) (ih _ _ _ h.2).2⟩
    by_cases hinsert : (endsOperand prev && startsOperand item.cmd && !inphrase) = true
    · rw [copyItems, if_pos hinsert]
      have hout : inphrase = false := by simpa using (Bool.and_eq_true_iff.mp hinsert).2
      rw [countCmd_cons]
      rcases hadd with rfl | rfl
      · exact ⟨⟨hout, hrest.1⟩, hrest.2⟩
      · exact ⟨⟨hout, hrest.1⟩, hrest.2⟩
    · rw [copyItems, if_neg hinsert]
      exact hrest

theorem placed_completeItems (mode : UdmSearchMode) (h : Placed false 0 items) :
    Placed false 0 (completeItems mode items) ∧
      countCmd .word (completeItems mode items) = countCmd .word items := by
  cases items with
  | nil => exact ⟨trivial, rfl⟩
  | cons item items =>
    obtain ⟨cmd, arg⟩ := item
    have hcopy := fun inphrase n => placed_copyItems (addCmdOf_cases mode) cmd inphrase n items
    rw [completeItems, countCmd_cons, countCmd_cons]
    cases cmd with
    | word | stop => exact ⟨⟨h.1, (hcopy _ _ h.2).1⟩, congrArg (· + _) (hcopy _ _ h.2).2⟩
    | phrase => exact ⟨(hcopy _ _ h).1, congrArg (· + _) (hcopy _ _ h).2⟩
    | left | right | bot | or | and | not => exact ⟨⟨h.1, (hcopy _ _ h.2).1⟩, congrArg (· + _) (hcopy _ _ h.2).2⟩

theorem phrases_copyItems (hadd : addCmd = .or ∨ addCmd = .and) (prev : StackCmd)
    (o : Option Phrase) (items : List UdmStackItem) :
    phrases o (copyItems addCmd prev o.isSome items) = phrases o items := by
  induction items generalizing prev o with
  | nil => rfl
  | cons item items ih =>
    have hrest : phrases o
        (item :: copyItems addCmd item.cmd (if item.cmd = .phrase then !o.isSome else o.isSome) items) =
          phrases o (item :: items) := by
      cases o with
      | none =>
        rw [phrases, phrases, ← ih item.cmd]
        split_ifs <;> rfl
      | some p =>
        rw [phrases, phrases]
        split_ifs
        · exact congrArg _ (ih item.cmd none)
        · exact ih item.cmd (some _)
    by_cases hinsert : (endsOperand prev && startsOperand item.cmd && !o.isSome) = true
    · rw [copyItems, if_pos hinsert, ← hrest]
      cases o with
      | none => rcases hadd with rfl | rfl <;> rfl
      | some p => simp at hinsert
    · rw [copyItems, if_neg hinsert]
      exact hrest

theorem phrases_completeItems (mode : UdmSearchMode) (items : List UdmStackItem) :
    phrases none (completeItems mode items) = phrases none items := by
  cases items with
  | nil => rfl
  | cons item items =>
    have hcopy := fun o => phrases_copyItems (addCmdOf_cases mode) item.cmd o items
    rw [completeItems, phrases, phrases]
    by_cases hc : item.cmd = .phrase
    · rw [if_pos hc, beq_iff_eq.mpr hc]
      exact hcopy (some _)
    · rw [if_neg hc, beq_eq_false_iff_ne.mpr hc]
      exact hcopy none

theorem word_or_stop_of_placed (hne : ∀ item ∈ inner, item.cmd ≠ .phrase)
    (h : Placed true n inner) : ∀ item ∈ inner, item.cmd = .word ∨ item.cmd = .stop := by
  induction inner generalizing n with
  | nil => exact fun _ hmem => absurd hmem List.not_mem_nil
  | cons item inner ih =>
    obtain ⟨hitem, hinner⟩ := List.forall_mem_cons.mp hne
    obtain ⟨cmd, arg⟩ := item
    cases cmd with
    | word => exact List.forall_mem_cons.mpr ⟨.inl rfl, ih hinner h.2⟩
    | stop => exact List.forall_mem_cons.mpr ⟨.inr rfl, ih hinner h.2⟩
    | phrase => exact absurd rfl hitem
    | left | right | bot | or | and | not => exact absurd h.1 Bool.noConfusion

theorem quotesClosed_inner (hne : ∀ item ∈ inner, item.cmd ≠ .phrase) : quotesClosed true inner = false := by
  induction inner with
  | nil => rfl
  | cons item inner ih =>
    obtain ⟨hitem, hne⟩ := List.forall_mem_cons.mp hne
    rw [quotesClosed, if_neg hitem]
    exact ih hne

theorem Placed.phrase {n : ℕ} {p : Phrase} {items : List UdmStackItem} (hp : ∀ item ∈ p.items, item.cmd ≠ .phrase)
    (h : Placed false n (p.toItems ++ items)) :
    Placed true n p.items ∧ Placed false (n + countCmd .word p.items) items := by
  rw [Phrase.toItems, List.cons_append, List.append_assoc, List.singleton_append] at h
  have hinner : Placed true n (p.items ++ ⟨.phrase, p.closing⟩ :: items) := h
  rw [placed_append, quotesClosed_inner hp] at hinner
  exact hinner

theorem Placed.index_eq (hwords : ∀ item ∈ p.items, item.cmd = .word ∨ item.cmd = .stop)
    (h : Placed true n p.items) (hne : p.items ≠ []) : p.index = n := by
  obtain ⟨a, inner, b⟩ := p
  obtain ⟨⟨cmd, arg⟩, inner, rfl⟩ := List.exists_cons_of_ne_nil hne
  rcases hwords ⟨cmd, arg⟩ List.mem_cons_self with hcmd | hcmd
  · obtain rfl : cmd = .word := hcmd
    exact h.1
  · obtain rfl : cmd = .stop := hcmd
    exact h.1

theorem Placed.le_of_mem {inphrase : Bool} (h : Placed inphrase n items)
    (hz : ⟨.word, z⟩ ∈ items) : n ≤ z ∧ z < n + countCmd .word items := by
  induction items generalizing inphrase n with
  | nil => contradiction
  | cons item items ih =>
    obtain ⟨cmd, arg⟩ := item
    rw [countCmd_cons]
    rcases List.mem_cons.mp hz with heq | hmem
    · obtain ⟨rfl, rfl⟩ := UdmStackItem.mk.inj heq
      have hn := h.1
      simp only [if_true] at hn ⊢
      omega
    · cases cmd with
      | word =>
        have := ih h.2 hmem
        simp only [if_true]
        omega
      | phrase => exact ih (show Placed (!inphrase) n items from h) hmem
      | stop | left | right | bot | or | and | not => exact ih h.2 hmem

theorem Placed.exists_phrase (hs : Segmented items) (h : Placed false n items)
    (hp : p ∈ phrases none items) : ∃ m, Placed true m p.items := by
  induction hs generalizing n with
  | nil => contradiction
  | @item item items hc hs ih =>
    rw [phrases_item hc] at hp
    obtain ⟨cmd, arg⟩ := item
    cases cmd with
    | phrase => exact absurd rfl hc
    | word | stop | left | right | bot | or | and | not => exact ih h.2 hp
  | @phrase q items hq hs ih =>
    rw [phrases_toItems hq] at hp
    obtain ⟨hinner, hrest⟩ := h.phrase hq
    rcases List.mem_cons.mp hp with rfl | hp
    · exact ⟨n, hinner⟩
    · exact ih hrest hp

theorem Placed.phrase_unique (hs : Segmented items) (h : Placed false n items)
    {q : Phrase} (hp : p ∈ phrases none items) (hq : q ∈ phrases none items) (hzp : z ∈ p.words)
    (hzq : z ∈ q.words) : p = q := by
  induction hs generalizing n with
  | nil => contradiction
  | @item item items hc hs ih =>
    rw [phrases_item hc] at hp hq
    obtain ⟨cmd, arg⟩ := item
    cases cmd with
    | phrase => exact absurd rfl hc
    | word | stop | left | right | bot | or | and | not => exact ih h.2 hp hq
  | @phrase r items hr hs ih =>
    rw [phrases_toItems hr] at hp hq
    obtain ⟨hinner, hrest⟩ := h.phrase hr
    have hapart : ∀ t ∈ phrases none items, z ∈ r.words → z ∉ t.words := by
      intro t ht hzr hzt
      have h1 := hinner.le_of_mem (Phrase.mem_words.mp hzr)
      have h2 := hrest.le_of_mem ((hs.mem_phrases ht).1 _ (Phrase.mem_words.mp hzt)).1
      omega
    rcases List.mem_cons.mp hp with rfl | hprest <;> rcases List.mem_cons.mp hq with rfl | hqrest
    · rfl
    · exact absurd hzq (hapart q hqrest hzp)
    · exact absurd hzp (hapart p hprest hzq)
    · exact ih hrest hprest hqrest

theorem Placed.arg_eq (h : Placed true n inner)
    (hwords : ∀ item ∈ inner, item.cmd = .word) {i : ℕ} (hi : inner[i]? = some item) : item.arg = n + i := by
  induction inner generalizing n i with
  | nil => contradiction
  | cons first inner ih =>
    obtain ⟨hfirst, hrest⟩ := List.forall_mem_cons.mp hwords
    obtain ⟨cmd, arg⟩ := first
    obtain rfl : cmd = .word := hfirst
    cases i with
    | zero =>
      obtain rfl := Option.some.inj hi
      exact h.1
    | succ i =>
      rw [ih h.2 hrest hi]
      omega

theorem Placed.index_le (h : Placed true n p.items)
    (hwords : ∀ item ∈ p.items, item.cmd = .word ∨ item.cmd = .stop) (hz : z ∈ p.words) : p.index ≤ z := by
  have hmem := Phrase.mem_words.mp hz
  rw [h.index_eq hwords (List.ne_nil_of_mem hmem)]
  exact (h.le_of_mem hmem).1

theorem mem_boolReads_or_mem_words (hs : Segmented items)
    (hz : ⟨.word, z⟩ ∈ items) : z ∈ boolReads false items ∨ ∃ p ∈ phrases none items, z ∈ p.words := by
  induction hs with
  | nil => contradiction
  | @item item items hc hs ih =>
    obtain ⟨cmd, arg⟩ := item
    rw [phrases_item hc]
    rcases List.mem_cons.mp hz with heq | hmem
    · obtain ⟨rfl, rfl⟩ := UdmStackItem.mk.inj heq
      exact .inl List.mem_cons_self
    · refine (ih hmem).imp_left fun hread => ?_
      rw [boolReads]
      split
      · contradiction
      · exact List.mem_cons_of_mem _ hread
      · exact hread
  | @phrase p items hp hs ih =>
    rw [phrases_toItems hp, boolReads_toItems hp]
    rcases List.mem_append.mp hz with hmem | hmem
    · rcases List.mem_cons.mp hmem with heq | hmem
      · exact absurd (UdmStackItem.mk.inj heq).1 StackCmd.noConfusion
      · rcases List.mem_append.mp hmem with hmem | hmem
        · exact .inr ⟨p, List.mem_cons_self, Phrase.mem_words.mpr hmem⟩
        · exact absurd (UdmStackItem.mk.inj (List.mem_singleton.mp hmem)).1 StackCmd.noConfusion
    · exact (ih hmem).imp (List.mem_cons_of_mem _) fun ⟨q, hq, hzq⟩ => ⟨q, List.mem_cons_of_mem _ hq, hzq⟩

/-- **What the evaluation reads**: positions of words, and those of the phrases without a word. -/
theorem lt_of_mem_boolReads (hs : Segmented items) (h : Placed false n items) (hz : z ∈ boolReads false items) :
    z < n + countCmd .word items ∨ ∃ p ∈ phrases none items, p.StopOnly ∧ z = p.index := by
  induction hs generalizing n with
  | nil => contradiction
  | @item item items hc hs ih =>
    obtain ⟨cmd, arg⟩ := item
    rw [phrases_item hc, countCmd_cons]
    cases cmd with
    | word =>
      rcases List.mem_cons.mp hz with rfl | hz
      · have := h.1
        dsimp only at this ⊢
        simp only [if_true]
        omega
      · have := ih h.2 hz
        rwa [Nat.add_assoc, Nat.add_comm 1] at this
    | phrase => exact absurd rfl hc
    | stop | left | right | bot | or | and | not => exact ih h.2 hz
  | @phrase p items hp hs ih =>
    obtain ⟨hinner, hrest⟩ := h.phrase hp
    have hwords := word_or_stop_of_placed hp hinner
    rw [boolReads_toItems hp] at hz
    rw [phrases_toItems hp, Phrase.toItems, List.cons_append, countCmd_cons, countCmd_append, countCmd_append,
      countCmd_cons]
    rcases List.mem_cons.mp hz with rfl | hz
    · by_cases hstop : p.StopOnly
      · exact .inr ⟨p, List.mem_cons_self, hstop, rfl⟩
      · have hword : 0 < countCmd .word p.items := by
          rw [countCmd, List.countP_pos_iff]
          simp only [Phrase.StopOnly, not_forall] at hstop
          obtain ⟨item, hitem, hne⟩ := hstop
          exact ⟨item, hitem, by simpa using (hwords item hitem).resolve_right hne⟩
        have hne : p.items ≠ [] := by
          intro hnil
          rw [hnil] at hword
          exact absurd hword (Nat.lt_irrefl 0)
        have := hinner.index_eq hwords hne
        exact .inl (by omega)
    · rcases ih hrest hz with hlt | ⟨q, hq, hstop, heq⟩
      · exact .inl (by simp only [countCmd_nil, reduceCtorEq, if_false]; omega)
      · exact .inr ⟨q, List.mem_cons_of_mem _ hq, hstop, heq⟩

end MnoGoSearch.Query
