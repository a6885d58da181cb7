import MnoGoSearch.Score.Document

/-!
# The words of a document

The test of all words looks at a document as a set of words only: it asks whether their masks cover
the whole query (`quickSkip_eq`). `docOfRuns` makes documents that have given words next to each other
in their sections, to show what the tests let through.
-/

namespace MnoGoSearch.Score

open Query Lib.Runs

/-- What the query parser hands over: the word of every position, forms and synonyms that stay in the query,
and stop words. -/
structure WordsOf (query : QueryState) (WWL : UdmWideWordList) : Prop where
  nuniq : WWL.nuniq = query.nuniq
  /-- The word of each position. -/
  word : ∀ o < WWL.nuniq, ∃ W ∈ WWL.word, W.origin = .query ∧ W.order = o
  /-- A searched item covers positions of the query only. -/
  within : ∀ W ∈ WWL.word, W.origin ≠ .stop → W.order + max 1 W.orderExtraWidth ≤ WWL.nuniq
  /-- Stop words are no synonyms. -/
  stop : ∀ W ∈ WWL.word, W.origin = .stop → W.orderExtraWidth = 0

theorem nuniq_lt_addToken {s : QueryState} (h : s.nuniq < maxWordPerQuery) (token : QueryToken) :
    (addToken s token).nuniq < maxWordPerQuery := by
  cases token with
  | op op arg =>
    rw [addToken, udmStackItemListAddCmd]
    split_ifs <;> exact h
  | word isStop =>
    rw [addToken, udmStackItemListAddWord]
    split_ifs with hmany
    · exact h
    · exact h
    · rw [maxWordPerQuery]
      dsimp only
      omega

theorem nuniq_parseQuery_lt (tokens : List QueryToken) : (parseQuery tokens).nuniq < maxWordPerQuery := by
  have h : ∀ s : QueryState, s.nuniq < maxWordPerQuery → (tokens.foldl addToken s).nuniq < maxWordPerQuery := by
    induction tokens with
    | nil => exact fun s hs => hs
    | cons token tokens ih => exact fun s hs => ih _ (nuniq_lt_addToken hs token)
  have hinit := h ⟨[], 0, 0, 0⟩ (by decide)
  rw [parseQuery, closePhrase]
  split_ifs <;> exact hinit

/-! ### The items of a query -/

/-- The parameters of a query after `UdmScoreParamInitStep2`. -/
def scoreParam (mode : UdmSearchMode) (tokens : List QueryToken) (WWL : UdmWideWordList) : ScoreParam :=
  let step := udmScoreParamInitStep2 mode (parseQuery tokens)
  ⟨WWL, step.2, step.1⟩

/-- What the evaluation gets: numbered items with closed quotes. -/
structure ItemsOf (nuniq : ℕ) (items : List UdmStackItem) : Prop where
  placed : Placed false 0 items
  segmented : Segmented items
  /-- There are no more words than in the query. -/
  count : countCmd .word items ≤ nuniq

theorem scoreParam_cases (mode : UdmSearchMode) (tokens : List QueryToken) (WWL : UdmWideWordList) :
    (scoreParam mode tokens WWL).itemList = [] ∨
      (scoreParam mode tokens WWL).itemList = completeItems mode (parseQuery tokens).items := by
  rw [scoreParam, udmScoreParamInitStep2]
  split_ifs
  · dsimp only
    split_ifs with hempty
    · exact .inl rfl
    · by_cases hdrop : (if mode = .allMinus ∨ mode = .allMinusHalf then 0
          else countCmd .phrase (completeItems mode (parseQuery tokens).items)) = 0 ∧
        countCmd .or (completeItems mode (parseQuery tokens).items) = 0 ∧
        countCmd .not (completeItems mode (parseQuery tokens).items) = 0
      · rw [udmStackItemListCopy, if_pos hdrop]
        exact .inl rfl
      · rw [udmStackItemListCopy, if_neg hdrop]
        exact .inr rfl
  · exact .inl rfl

theorem itemsOf_completeItems (mode : UdmSearchMode) (tokens : List QueryToken) :
    ItemsOf (parseQuery tokens).nuniq (completeItems mode (parseQuery tokens).items) := by
  have hnum := numbered_parseQuery tokens
  have hcomplete := placed_completeItems mode hnum.placed
  refine ⟨hcomplete.1, segmented_of_quotesClosed ?_, (hcomplete.2.trans hnum.count).le⟩
  rw [quotesClosed_completeItems]
  exact (itemsOk_parseQuery tokens).2

theorem itemsOf_scoreParam (mode : UdmSearchMode) (tokens : List QueryToken) (WWL : UdmWideWordList) :
    ItemsOf (parseQuery tokens).nuniq (scoreParam mode tokens WWL).itemList := by
  rcases scoreParam_cases mode tokens WWL with h | h
  · rw [h]
    exact ⟨trivial, .nil, Nat.zero_le _⟩
  · rw [h]
    exact itemsOf_completeItems mode tokens

/-! ### The masks of some words -/

/-- The masks of some words, or-ed. -/
def ordersMask (env : ScoreSetup) (WWL : UdmWideWordList) (orders : List ℕ) : BitVec 32 :=
  orders.foldl (fun m o => m ||| udmInitWordMask env.shift WWL o) 0

/-- The words pass the test of all words. -/
def FullMask (env : ScoreSetup) (WWL : UdmWideWordList) (orders : List ℕ) : Prop :=
  ordersMask env WWL orders = expectedAndWordMask WWL.nuniq

instance (env : ScoreSetup) (WWL : UdmWideWordList) (orders : List ℕ) : Decidable (FullMask env WWL orders) :=
  inferInstanceAs (Decidable (_ = _))

/-- The orders of the sections of a document. -/
def docOrders (doc : List ScoreSection) : List ℕ := doc.map fun S => S.order

/-- **The test of all words** looks at the words of the document only. -/
theorem quickSkip_eq (env : ScoreSetup) (param : ScoreParam) (doc : List ScoreSection) :
    quickSkip env param doc = true ↔ udmOptimizeUsingAND param.itemList param.searchMode = true ∧
      (¬FullMask env param.wwList (docOrders doc) ∨
        skipMinMaxPos2 param.wwList (doc.map ScoreSection.toUdmSection) = true) := by
  have hmask : docWordMask (udmInitWordMask env.shift param.wwList) (doc.map ScoreSection.toUdmSection) =
      ordersMask env param.wwList (docOrders doc) := by
    rw [docWordMask, ordersMask, docOrders, List.foldl_map, List.foldl_map]
  rw [quickSkip, hmask, Bool.and_eq_true, Bool.or_eq_true, bne_iff_ne, FullMask]

/-- **The test of positions** looks at documents with two sections only. -/
theorem skipMinMaxPos2_iff (WWL : UdmWideWordList) (sections : List UdmSection) :
    skipMinMaxPos2 WWL sections = true ↔ WWL.nuniq = 2 ∧ WWL.word[1]?.elim 0 UdmWideWord.phrpos ≠ 0 ∧
      ∃ S1 S2, sections = [S1, S2] ∧ (S2.maxpos + 1 < S1.minpos ∨ S1.maxpos + 1 < S2.minpos) := by
  unfold skipMinMaxPos2
  rw [Bool.and_eq_true, Bool.and_eq_true, beq_iff_eq, bne_iff_ne, and_assoc]
  refine and_congr_right fun _ => and_congr_right fun _ => ?_
  rcases sections with _ | ⟨S1, _ | ⟨S2, _ | ⟨S3, sections⟩⟩⟩ <;> simp

section

variable {env : ScoreSetup} {query : QueryState} {WWL : UdmWideWordList} (hw : WordsOf query WWL)

include hw

variable {o : ℕ} {orders : List ℕ}

theorem WordsOf.last (ho : o < WWL.nuniq) :
    ∃ L, WWL.last o = some L ∧ L.order = o ∧ L.order + max 1 L.orderExtraWidth ≤ WWL.nuniq := by
  obtain ⟨W, hW, -, rfl⟩ := hw.word o ho
  obtain ⟨L, hL⟩ := WWL.exists_last hW
  obtain ⟨hmem, horder⟩ := WWL.last_mem hL
  refine ⟨L, hL, horder, ?_⟩
  by_cases hs : L.origin = .stop
  · have := hw.stop L hmem hs
    omega
  · exact hw.within L hmem hs

theorem WordsOf.getLsbD_expected (ho : o < WWL.nuniq) {i : ℕ}
    (hi : (udmInitWordMask env.shift WWL o).getLsbD i = true) : (expectedAndWordMask WWL.nuniq).getLsbD i = true := by
  obtain ⟨L, hL, -, hwithin⟩ := hw.last ho
  have hi32 : i < 32 := BitVec.lt_of_getLsbD hi
  rw [getLsbD_expectedAndWordMask]
  by_cases hn : WWL.nuniq ≤ 32
  · rw [udmInitWordMask_eq, hL, Option.elim_some, getLsbD_wordBits (by omega)] at hi
    have := hi.2
    omega
  · omega

theorem WordsOf.getLsbD_order (ho : o < WWL.nuniq) (ho32 : o < 32) :
    (udmInitWordMask env.shift WWL o).getLsbD o = true := by
  obtain ⟨L, hL, rfl, -⟩ := hw.last ho
  rw [udmInitWordMask_eq, hL, Option.elim_some]
  exact getLsbD_wordBits_order ho32

theorem WordsOf.fullMask_iff (horders : ∀ o ∈ orders, o < WWL.nuniq) :
    FullMask env WWL orders ↔
      ∀ i < 32, i < WWL.nuniq → ∃ o ∈ orders, (udmInitWordMask env.shift WWL o).getLsbD i = true := by
  have hbit : ∀ i, (ordersMask env WWL orders).getLsbD i = true ↔
      ∃ o ∈ orders, (udmInitWordMask env.shift WWL o).getLsbD i = true := by
    intro i
    rw [ordersMask, getLsbD_foldl_or]
    simp
  constructor
  · intro h i hi hn
    rw [← hbit, h, getLsbD_expectedAndWordMask]
    exact ⟨hi, hn⟩
  · intro h
    refine BitVec.eq_of_getLsbD_eq fun i hi => ?_
    rw [Bool.eq_iff_iff, hbit]
    constructor
    · rintro ⟨o, ho, hbit⟩
      exact hw.getLsbD_expected (horders o ho) hbit
    · intro hexp
      exact h i hi ((getLsbD_expectedAndWordMask _ _).mp hexp).2

theorem WordsOf.fullMask_mono {orders' : List ℕ} (horders' : ∀ o ∈ orders', o < WWL.nuniq)
    (hsub : ∀ o ∈ orders, o ∈ orders') (h : FullMask env WWL orders) : FullMask env WWL orders' := by
  rw [hw.fullMask_iff fun o ho => horders' o (hsub o ho)] at h
  rw [hw.fullMask_iff horders']
  intro i hi hn
  obtain ⟨o, ho, hbit⟩ := h i hi hn
  exact ⟨o, hsub o ho, hbit⟩

theorem WordsOf.fullMask_all (horders : ∀ o ∈ orders, o < WWL.nuniq)
    (hall : ∀ o < WWL.nuniq, o ∈ orders) : FullMask env WWL orders := by
  rw [hw.fullMask_iff horders]
  exact fun i hi hn => ⟨i, hall i hn, hw.getLsbD_order hn hi⟩

theorem WordsOf.docOrders_lt {doc : List ScoreSection} (hd : DocumentOf WWL doc) :
    ∀ o ∈ docOrders doc, o < WWL.nuniq := by
  intro o ho
  obtain ⟨S, hS, rfl⟩ := List.mem_map.mp ho
  obtain ⟨W, hget, hstop, horder⟩ := hd.item S hS
  have := hw.within W (List.mem_of_getElem? hget) hstop
  omega

theorem WordsOf.exists_word :
    ∃ word : ℕ → ℕ × UdmWideWord, ∀ o < WWL.nuniq, IsItem WWL (word o) ∧ (word o).2.order = o := by
  have h : ∀ o, ∃ p : ℕ × UdmWideWord, o < WWL.nuniq → IsItem WWL p ∧ p.2.order = o := by
    intro o
    by_cases ho : o < WWL.nuniq
    · obtain ⟨W, hW, horigin, horder⟩ := hw.word o ho
      obtain ⟨i, hi⟩ := List.mem_iff_getElem?.mp hW
      exact ⟨(i, W), fun _ => ⟨⟨hi, by rw [horigin]; exact UdmWordOrigin.noConfusion⟩, horder⟩⟩
    · exact ⟨(0, ⟨0, 0, .query, 0, 0⟩), fun h => absurd h ho⟩
  choose word hword using h
  exact ⟨word, hword⟩

theorem WordsOf.order_lt {p : ℕ × UdmWideWord} (hp : IsItem WWL p) : p.2.order < WWL.nuniq := by
  have := hw.within p.2 (List.mem_of_getElem? hp.1) hp.2
  omega

end

/-! ### Documents with given words -/

/-- The section of one item at the position `pos`. -/
def placeWord (secno seclen pos : ℕ) (p : ℕ × UdmWideWord) : ScoreSection where
  urlId := 1
  wordnum := p.1
  order := p.2.order
  ncoords := 1
  minpos := pos
  maxpos := pos
  secno := secno
  seclen := seclen
  coord := [pos]

/-- A section of the items `r`, one behind the other from `pos` on. -/
def placeRun (secno seclen : ℕ) : ℕ → List (ℕ × UdmWideWord) → List ScoreSection
  | _, [] => []
  | pos, p :: r => placeWord secno seclen pos p :: placeRun secno seclen (pos + 1) r

/-- One section after the other, from the number `secno` on. -/
def placeRuns : ℕ → List (List (ℕ × UdmWideWord)) → List (List ScoreSection)
  | _, [] => []
  | secno, r :: rs => placeRun secno (r.length + 1) 1 r :: placeRuns (secno + 1) rs

/-- A document with the items of `rs` in its sections. -/
def docOfRuns (rs : List (List (ℕ × UdmWideWord))) : List ScoreSection := (placeRuns 1 rs).flatten

variable {secno : ℕ} {r : List (ℕ × UdmWideWord)} {S : ScoreSection} {rs : List (List (ℕ × UdmWideWord))}

theorem mem_placeRun {seclen pos : ℕ}
    (hS : S ∈ placeRun secno seclen pos r) : ∃ p ∈ r, ∃ c, S = placeWord secno seclen c p := by
  induction r generalizing pos with
  | nil => contradiction
  | cons p r ih =>
    rcases List.mem_cons.mp hS with rfl | hS
    · exact ⟨p, List.mem_cons_self, pos, rfl⟩
    · obtain ⟨q, hq, hS⟩ := ih hS
      exact ⟨q, List.mem_cons_of_mem _ hq, hS⟩

theorem mem_placeRuns {g : List ScoreSection} (hg : g ∈ placeRuns secno rs) :
    ∃ n r, r ∈ rs ∧ secno ≤ n ∧ n < secno + rs.length ∧ g = placeRun n (r.length + 1) 1 r := by
  induction rs generalizing secno with
  | nil => contradiction
  | cons r rs ih =>
    rcases List.mem_cons.mp hg with rfl | hg
    · exact ⟨secno, r, List.mem_cons_self, le_rfl, by simp, rfl⟩
    · obtain ⟨n, r', hr', hle, hlt, rfl⟩ := ih hg
      refine ⟨n, r', List.mem_cons_of_mem _ hr', by omega, ?_, rfl⟩
      rw [List.length_cons]
      omega

theorem exists_mem_placeRuns (secno : ℕ) (hr : r ∈ rs) : ∃ n, placeRun n (r.length + 1) 1 r ∈ placeRuns secno rs := by
  induction rs generalizing secno with
  | nil => contradiction
  | cons r' rs ih =>
    rcases List.mem_cons.mp hr with rfl | hr
    · exact ⟨secno, List.mem_cons_self⟩
    · obtain ⟨n, hn⟩ := ih (secno + 1) hr
      exact ⟨n, List.mem_cons_of_mem _ hn⟩

theorem pairwise_placeRuns (secno : ℕ) (rs : List (List (ℕ × UdmWideWord))) :
    (placeRuns secno rs).Pairwise fun g g' => ∀ S ∈ g, ∀ T ∈ g', S.secno < T.secno := by
  induction rs generalizing secno with
  | nil => exact List.Pairwise.nil
  | cons r rs ih =>
    refine List.pairwise_cons.mpr ⟨fun g hg S hS T hT => ?_, ih (secno + 1)⟩
    obtain ⟨n, r', -, hle, -, rfl⟩ := mem_placeRuns hg
    obtain ⟨p, -, c, rfl⟩ := mem_placeRun hS
    obtain ⟨q, -, d, rfl⟩ := mem_placeRun hT
    exact hle

theorem placeRun_ne_nil {secno seclen pos : ℕ} {r : List (ℕ × UdmWideWord)} (h : r ≠ []) :
    placeRun secno seclen pos r ≠ [] := by
  obtain ⟨p, r, rfl⟩ := List.exists_cons_of_ne_nil h
  exact List.cons_ne_nil _ _

theorem runs_docOfRuns (hne : ∀ r ∈ rs, r ≠ []) : runs ScoreSection.secno (docOfRuns rs) = placeRuns 1 rs := by
  refine runs_flatten ScoreSection.secno ?_ ?_ ((pairwise_placeRuns 1 rs).imp fun h S hS T hT => (h S hS T hT).ne)
  · intro g hg
    obtain ⟨n, r, hr, -, -, rfl⟩ := mem_placeRuns hg
    exact placeRun_ne_nil (hne r hr)
  · intro g hg S hS T hT
    obtain ⟨n, r, -, -, -, rfl⟩ := mem_placeRuns hg
    obtain ⟨p, -, c, rfl⟩ := mem_placeRun hS
    obtain ⟨q, -, d, rfl⟩ := mem_placeRun hT
    rfl

theorem map_docOfRuns {α : Type} {f : ScoreSection → α} {g : ℕ × UdmWideWord → α}
    (h : ∀ secno seclen pos p, f (placeWord secno seclen pos p) = g p) (rs : List (List (ℕ × UdmWideWord))) :
    (docOfRuns rs).map f = rs.flatten.map g := by
  have hrun : ∀ (r : List (ℕ × UdmWideWord)) secno seclen pos, (placeRun secno seclen pos r).map f = r.map g := by
    intro r
    induction r with
    | nil => exact fun _ _ _ => rfl
    | cons p r ih =>
      intro secno seclen pos
      rw [placeRun, List.map_cons, List.map_cons, h, ih]
  have hruns : ∀ secno, (placeRuns secno rs).flatten.map f = rs.flatten.map g := by
    induction rs with
    | nil => exact fun _ => rfl
    | cons r rs ih =>
      intro secno
      rw [placeRuns, List.flatten_cons, List.map_append, ih, List.flatten_cons, List.map_append, hrun]
  exact hruns 1

theorem docOrders_docOfRuns (rs : List (List (ℕ × UdmWideWord))) :
    docOrders (docOfRuns rs) = rs.flatten.map fun p => p.2.order :=
  map_docOfRuns (fun _ _ _ _ => rfl) rs

theorem mem_docOfRuns (hS : S ∈ docOfRuns rs) :
    ∃ n r p c, r ∈ rs ∧ n < 1 + rs.length ∧ p ∈ r ∧ S = placeWord n (r.length + 1) c p := by
  obtain ⟨g, hg, hS⟩ := List.mem_flatten.mp hS
  obtain ⟨n, r, hr, -, hlt, rfl⟩ := mem_placeRuns hg
  obtain ⟨p, hp, c, rfl⟩ := mem_placeRun hS
  exact ⟨n, r, p, c, hr, hlt, hp, rfl⟩

theorem documentOf_docOfRuns {WWL : UdmWideWordList} (hrs : rs ≠ [])
    (hlen : rs.length < 255) (hne : ∀ r ∈ rs, r ≠ []) (hitem : ∀ r ∈ rs, ∀ p ∈ r, IsItem WWL p) :
    DocumentOf WWL (docOfRuns rs) where
  ne_nil := by
    obtain ⟨r, rs, rfl⟩ := List.exists_cons_of_ne_nil hrs
    have hr := @placeRun_ne_nil 1 (r.length + 1) 1 r (hne r List.mem_cons_self)
    simp [docOfRuns, placeRuns, hr]
  urlId S hS T hT := by
    obtain ⟨n, r, p, c, -, -, -, rfl⟩ := mem_docOfRuns hS
    obtain ⟨m, r', q, d, -, -, -, rfl⟩ := mem_docOfRuns hT
    rfl
  sorted := by
    refine List.pairwise_flatten.mpr ⟨fun g hg => ?_, (pairwise_placeRuns 1 rs).imp fun h S hS T hT => (h S hS T hT).le⟩
    obtain ⟨n, r, -, -, -, rfl⟩ := mem_placeRuns hg
    refine List.pairwise_of_forall_mem_list fun S hS T hT => ?_
    obtain ⟨p, -, c, rfl⟩ := mem_placeRun hS
    obtain ⟨q, -, d, rfl⟩ := mem_placeRun hT
    exact le_rfl
  secno_lt S hS := by
    obtain ⟨n, r, p, c, -, hlt, -, rfl⟩ := mem_docOfRuns hS
    exact lt_of_lt_of_le hlt (by omega)
  item S hS := by
    obtain ⟨n, r, p, c, hr, -, hp, rfl⟩ := mem_docOfRuns hS
    exact ⟨p.2, (hitem r hr p hp).1, (hitem r hr p hp).2, rfl⟩
  coord_ne_nil S hS := by
    obtain ⟨n, r, p, c, -, -, -, rfl⟩ := mem_docOfRuns hS
    exact List.cons_ne_nil _ _
  coord_sorted S hS := by
    obtain ⟨n, r, p, c, -, -, -, rfl⟩ := mem_docOfRuns hS
    exact List.pairwise_singleton _ _
  ncoords S hS := by
    obtain ⟨n, r, p, c, -, -, -, rfl⟩ := mem_docOfRuns hS
    rfl
  minpos S hS := by
    obtain ⟨n, r, p, c, -, -, -, rfl⟩ := mem_docOfRuns hS
    rfl
  maxpos S hS := by
    obtain ⟨n, r, p, c, -, -, -, rfl⟩ := mem_docOfRuns hS
    rfl

theorem docCounts_docOfRuns {env : ScoreSetup} {param : ScoreParam} (hmode : param.searchMode = .bool)
    (hs : Segmented param.itemList) (hne : ∀ r ∈ rs, r ≠ [])
    (hitem : ∀ r ∈ rs, ∀ p ∈ r, IsItem param.wwList p) (z : ℕ) :
    docCounts env param (docOfRuns rs) z ≠ 0 ↔
      (∃ r ∈ rs, ∃ p ∈ r, p.2.phrlen < 2 ∧ p.2.order = z) ∨
        ∃ g ∈ placeRuns 1 rs, RunMarks env param.itemList g z := by
  rw [docCounts_ne_zero_iff hmode hs, runs_docOfRuns hne]
  refine or_congr_left ?_
  constructor
  · rintro ⟨S, hS, W, hget, hlt, horder⟩
    obtain ⟨n, r, p, c, hr, -, hp, rfl⟩ := mem_docOfRuns hS
    obtain rfl := Option.some.inj ((hitem r hr p hp).1.symm.trans hget)
    exact ⟨r, hr, p, hp, hlt, horder⟩
  · rintro ⟨r, hr, p, hp, hlt, horder⟩
    have hmem : p ∈ rs.flatten := List.mem_flatten.mpr ⟨r, hr, hp⟩
    have hdoc : (docOfRuns rs).map (fun S => S.wordnum) = rs.flatten.map Prod.fst :=
      map_docOfRuns (fun _ _ _ _ => rfl) rs
    obtain ⟨S, hS, hnum⟩ := List.mem_map.mp (hdoc ▸ List.mem_map_of_mem hmem : p.1 ∈ (docOfRuns rs).map fun S => S.wordnum)
    exact ⟨S, hS, p.2, by rw [hnum]; exact (hitem r hr p hp).1, hlt, horder⟩

end MnoGoSearch.Score
