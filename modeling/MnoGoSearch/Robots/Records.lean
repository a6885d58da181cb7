import MnoGoSearch.Robots.RobotParse
import Mathlib.Data.List.Basic

/-!
# The records of robots.txt

A record is one or more agent lines and the rules behind them. The rules for our agent are those
of the records that name it, if there are any, and else those of the records that name `*`.
`UdmRobotParse` does not keep records: each agent line sets the flags anew. So of several agent
lines in a row mostly the last one counts, a second record for `*` finds rules and is dropped, and
a record for `*` behind an empty one of ours is taken for ours. `parsesRight_iff` says of which
texts the parser finds the rules all the same.
-/

namespace MnoGoSearch.Robots

/-! ## Records -/

/-- What an agent line names. -/
inductive Kind where
  | us
  /-- Everybody, `*`. -/
  | all
  | other
  deriving DecidableEq

/-- The kind of an agent. -/
def agentKind (ua : UserAgent) (agent : List Char) : Kind :=
  if agent = ['*'] then .all else if namesUs ua agent then .us else .other

/-- What a line is. -/
inductive Item where
  | agent (k : Kind)
  /-- An Allow or Disallow line, with the rule that it gives. -/
  | rule (r : Option RobotRule)
  /-- A comment or something else. -/
  | other

/-- The line `s` with the number `n`, taken on its own. -/
def itemOf (ua : UserAgent) (n : ℕ) (s : List Char) : Item :=
  if s.head? = some '#' then .other
  else if hasPrefix "User-Agent:".toList s then .agent (agentKind ua (udmTrim (s.drop 11)))
  else if hasPrefix "Disallow".toList s then
    let path := value (s.drop 9)
    -- Empty Disallow == Allow all
    .rule (some (if path ≠ [] then ⟨n, .disallow, path⟩ else ⟨n, .get, ['/']⟩))
  else if hasPrefix "Allow".toList s then
    let path := value (s.drop 6)
    .rule (if path ≠ [] then some ⟨n, .get, path⟩ else none)
  else .other

/-- The lines of a text, numbered from `n + 1` on. -/
def itemsOf (ua : UserAgent) (n : ℕ) : List (List Char) → List Item
  | [] => []
  | s :: ls => itemOf ua (n + 1) s :: itemsOf ua (n + 1) ls

/-- A record. -/
structure Record where
  /-- What the agent lines name. -/
  agents : List Kind
  rules : List RobotRule

/-- The records of the lines. In front of them, the rules before the first agent line, and whether
there is a line of a rule before it. -/
@[grind =] def splitRecords : List Item → (List RobotRule × Bool) × List Record
  | [] => (([], false), [])
  | .other :: is => splitRecords is
  | .rule r :: is =>
    let t := splitRecords is
    ((r.toList ++ t.1.1, true), t.2)
  | .agent k :: is =>
    let t := splitRecords is
    (([], false),
      if t.1.2 then ⟨[k], t.1.1⟩ :: t.2
      else match t.2 with
        | [] => [⟨[k], []⟩]
        | r :: rs => { r with agents := k :: r.agents } :: rs)

/-- The records of a text. -/
def recordsOf (ua : UserAgent) (content : List Char) : List Record :=
  (splitRecords (itemsOf ua 0 (textLines content))).2

/-- The rules of the records that name `k`. -/
def rulesFor (k : Kind) (rs : List Record) : List RobotRule :=
  (rs.filter fun r => k ∈ r.agents).flatMap Record.rules

/-- Some record names our agent. -/
def NamesUs (rs : List Record) : Prop := ∃ r ∈ rs, .us ∈ r.agents

instance (rs : List Record) : Decidable (NamesUs rs) := inferInstanceAs (Decidable (∃ r ∈ rs, _))

/-- The rules for our agent. -/
def ourRules (rs : List Record) : List RobotRule := if NamesUs rs then rulesFor .us rs else rulesFor .all rs

/-- What robots.txt means: every line is handled on its own, and the rules are those for our agent. -/
def ParsesRight (ua : UserAgent) (content : List Char) : Prop :=
  ∃ st, ReadsOwn ua initState (some content) st ∧ udmRobotParse ua content = some st.rules ∧
    st.rules = ourRules (recordsOf ua content)

/-! ## The flags, record by record -/

/-- What an agent line does to the flags. -/
def agentStep (st : RobotState) : Kind → RobotState
  | .us => { st with rule := true, my := true, common := false, rules := if st.common then [] else st.rules }
  | .all =>
    if st.rules = [] then if st.my then st else { st with rule := true, common := true }
    else { st with rule := false }
  | .other => { st with rule := false }

/-- Rules are added where they count. -/
def addRules (st : RobotState) (rs : List RobotRule) : RobotState :=
  if st.rule then { st with rules := st.rules ++ rs } else st

/-- What a line does. -/
def itemStep (st : RobotState) : Item → RobotState
  | .agent k => agentStep st k
  | .rule r => addRules st r.toList
  | .other => st

/-- What a record does. -/
def recordStep (st : RobotState) (r : Record) : RobotState := addRules (r.agents.foldl agentStep st) r.rules

theorem toLower_eq_star {c : Char} (h : c.toLower = '*') : c = '*' := by
  delta Char.toLower at h
  split at h
  · rename_i hc
    have hval := congrArg (fun c : Char => c.val.toNat) h
    have h1 : 65 ≤ c.val.toNat := hc.1
    have h2 : c.val.toNat ≤ 90 := hc.2
    simp only [UInt32.toNat_add] at hval
    change (c.val.toNat + 32) % 2 ^ 32 = 42 at hval
    omega
  · exact h

theorem namesUs_star (ua : UserAgent) : namesUs ua ['*'] = false := by
  by_contra h
  rw [Bool.not_eq_false] at h
  have h := beq_iff_eq.mp h
  cases hname : ua.name with
  | nil =>
    rw [hname] at h
    cases h
  | cons c name =>
    rw [hname] at h
    injection h with h _
    exact ua.ne_star (by rw [hname, List.head?_cons, toLower_eq_star h])

theorem agentLine_eq (ua : UserAgent) (st : RobotState) (agent : List Char) :
    agentLine ua st agent = agentStep st (agentKind ua agent) := by
  rw [agentLine, agentKind]
  by_cases hstar : agent = ['*']
  · subst hstar
    rw [if_pos rfl, namesUs_star]
    by_cases hrules : st.rules = []
    · rw [if_pos ⟨rfl, hrules⟩, agentStep, if_pos hrules]
    · rw [if_neg (fun h => hrules h.2), agentStep, if_neg hrules]
      rfl
  · rw [if_neg (fun h => hstar h.1), if_neg hstar]
    split <;> rfl

theorem ownStep_eq (ua : UserAgent) (st : RobotState) (s : List Char) :
    ownStep ua st s = itemStep { st with lines := st.lines + 1 } (itemOf ua (st.lines + 1) s) := by
  rw [ownStep, itemOf]
  dsimp only
  by_cases hc : s.head? = some '#'
  · rw [if_pos hc, if_pos hc, itemStep]
  · rw [if_neg hc, if_neg hc]
    by_cases hu : hasPrefix "User-Agent:".toList s = true
    · rw [if_pos hu, if_pos hu, agentLine_eq, itemStep]
    · rw [if_neg hu, if_neg hu]
      by_cases hd : hasPrefix "Disallow".toList s = true
      · rw [if_pos hd, hd, itemStep, addRules, Bool.true_and]
        cases hrule : st.rule with
        | true =>
          simp only [↓reduceIte, disallowRule, addRobotRule]
          split <;> rfl
        | false =>
          have ha : hasPrefix "Allow".toList s = false := hasPrefix_ne hd (by decide)
          simp only [Bool.false_eq_true, ↓reduceIte, ha, Bool.false_and]
      · rw [Bool.not_eq_true] at hd
        rw [hd]
        by_cases ha : hasPrefix "Allow".toList s = true
        · rw [ha]
          cases hrule : st.rule with
          | true =>
            simp only [itemStep, addRules, Bool.false_and, Bool.false_eq_true, ↓reduceIte, Bool.and_self, allowRule,
              addRobotRule]
            split <;> simp
          | false => simp [itemStep, addRules]
        · rw [Bool.not_eq_true] at ha
          simp only [ha, Bool.false_and, Bool.false_eq_true, ↓reduceIte, itemStep]

theorem itemStep_lines (st : RobotState) (n : ℕ) (i : Item) :
    itemStep { st with lines := n } i = { itemStep st i with lines := n } := by
  cases i with
  | agent k =>
    cases k with
    | us => rfl
    | all =>
      simp only [itemStep, agentStep]
      split
      · split <;> rfl
      · rfl
    | other => rfl
  | rule r =>
    simp only [itemStep, addRules]
    split <;> rfl
  | other => rfl

theorem foldl_itemStep_lines (st : RobotState) (n : ℕ) (is : List Item) :
    is.foldl itemStep { st with lines := n } = { is.foldl itemStep st with lines := n } := by
  induction is generalizing st with
  | nil => rfl
  | cons i is ih => rw [List.foldl_cons, List.foldl_cons, itemStep_lines, ih]

theorem rules_runLines (ua : UserAgent) (st : RobotState) (ls : List (List Char)) :
    (runLines ua st ls).rules = ((itemsOf ua st.lines ls).foldl itemStep st).rules := by
  induction ls generalizing st with
  | nil => rfl
  | cons s ls ih =>
    have hlines : (ownStep ua st s).lines = st.lines + 1 := by
      rw [ownStep_eq, itemStep_lines]
    change (runLines ua (ownStep ua st s) ls).rules = _
    rw [ih, hlines, itemsOf, List.foldl_cons, ownStep_eq, itemStep_lines, foldl_itemStep_lines]

@[simp] theorem addRules_nil (st : RobotState) : addRules st [] = st := by
  rw [addRules, List.append_nil]
  split <;> rfl

theorem addRules_append (st : RobotState) (rs rs' : List RobotRule) :
    addRules (addRules st rs) rs' = addRules st (rs ++ rs') := by
  rw [addRules, addRules, addRules]
  cases hrule : st.rule with
  | true => simp only [↓reduceIte, List.append_assoc]
  | false => simp only [Bool.false_eq_true, ↓reduceIte, hrule]

theorem splitRecords_nil {is : List Item} (h : (splitRecords is).1.2 = false) : (splitRecords is).1.1 = [] := by
  induction is with
  | nil => rfl
  | cons i is ih =>
    cases i with
    | agent k => rfl
    | rule r => cases h
    | other => exact ih h

theorem foldl_itemStep (st : RobotState) (is : List Item) :
    is.foldl itemStep st = (splitRecords is).2.foldl recordStep (addRules st (splitRecords is).1.1) := by
  induction is generalizing st with
  | nil => exact (addRules_nil st).symm
  | cons i is ih =>
    rw [List.foldl_cons, ih]
    cases i with
    | other => rfl
    | rule r => rw [itemStep, addRules_append, splitRecords]
    | agent k =>
      rw [itemStep, splitRecords]
      dsimp only
      rw [addRules_nil]
      cases hrule : (splitRecords is).1.2 with
      | true => rfl
      | false =>
        rw [splitRecords_nil hrule, addRules_nil]
        cases (splitRecords is).2 with
        | nil =>
          simp only [Bool.false_eq_true, ↓reduceIte]
          exact (addRules_nil _).symm
        | cons r rs => rfl

theorem agents_ne_nil (is : List Item) : ∀ r ∈ (splitRecords is).2, r.agents ≠ [] := by
  induction is with
  | nil => simp [splitRecords]
  | cons i is ih =>
    cases i with
    | other => exact ih
    | rule r => exact ih
    | agent k =>
      rw [splitRecords]
      dsimp only
      split
      · simpa using ih
      · split
        · simp
        · rename_i r rs hrs
          rw [hrs] at ih
          simpa using fun r hr => ih r (List.mem_cons_of_mem _ hr)

/-- The rules of an item. -/
def Item.rules : Item → List RobotRule
  | .rule r => r.toList
  | _ => []

theorem rules_splitRecords (is : List Item) :
    (splitRecords is).1.1 ++ (splitRecords is).2.flatMap Record.rules = is.flatMap Item.rules := by
  induction is with
  | nil => rfl
  | cons i is ih =>
    rw [List.flatMap_cons, ← ih]
    cases i with
    | other => rfl
    | rule r => exact List.append_assoc _ _ _
    | agent k =>
      rw [splitRecords]
      dsimp only [Item.rules]
      cases hrule : (splitRecords is).1.2 with
      | true => rfl
      | false =>
        rw [splitRecords_nil hrule]
        cases (splitRecords is).2 with
        | nil => rfl
        | cons r rs => rfl

theorem rules_itemOf (ua : UserAgent) (n : ℕ) (s : List Char) :
    (itemOf ua n s).rules = [] ∨ ∃ r, (itemOf ua n s).rules = [r] ∧ r.line = n := by
  rw [itemOf]
  dsimp only
  split
  · exact Or.inl rfl
  · split
    · exact Or.inl rfl
    · split
      · split
        · exact Or.inr ⟨_, rfl, rfl⟩
        · exact Or.inr ⟨_, rfl, rfl⟩
      · split
        · split
          · exact Or.inr ⟨_, rfl, rfl⟩
          · exact Or.inl rfl
        · exact Or.inl rfl

theorem nodup_rules (ua : UserAgent) (n : ℕ) (ls : List (List Char)) :
    ((itemsOf ua n ls).flatMap Item.rules).Nodup ∧ ∀ r ∈ (itemsOf ua n ls).flatMap Item.rules, n < r.line := by
  induction ls generalizing n with
  | nil => simp [itemsOf]
  | cons s ls ih =>
    obtain ⟨hnodup, hlines⟩ := ih (n + 1)
    rw [itemsOf, List.flatMap_cons]
    cases rules_itemOf ua (n + 1) s with
    | inl hnil =>
      rw [hnil, List.nil_append]
      exact ⟨hnodup, fun r hr => (Nat.lt_succ_self n).trans (hlines r hr)⟩
    | inr hone =>
      obtain ⟨r, hr, hline⟩ := hone
      rw [hr, List.singleton_append]
      refine ⟨List.nodup_cons.mpr ⟨fun hmem => ?_, hnodup⟩, fun t ht => ?_⟩
      · have := hlines r hmem
        omega
      · cases List.mem_cons.mp ht with
        | inl h => rw [h, hline]; exact Nat.lt_succ_self n
        | inr h => exact (Nat.lt_succ_self n).trans (hlines t h)

/-! ## Which rules are kept -/

/-- The flag of a record where our agent has been named before: an agent line of ours sets it, one of
another agent resets it, and `*` resets it when there are rules already. -/
def namedStep (found : Bool) (named : Bool) : Kind → Bool
  | .us => true
  | .all => if found then false else named
  | .other => false

/-- Of the records with rules those that name us are the ones whose agent lines set the flag last:
`found` says whether there are rules already, `named` whether the flag was set before. -/
def OursKept : Bool → Bool → List Record → Prop
  | _, _, [] => True
  | found, named, r :: rs =>
    let named := r.agents.foldl (namedStep found) named
    (r.rules ≠ [] → (named = true ↔ .us ∈ r.agents)) ∧ OursKept (found || named && !r.rules.isEmpty) named rs

/-- Of the records with rules at most one names `*`, and there it stands last. -/
def EverybodysKept : Bool → List Record → Prop
  | _, [] => True
  | found, r :: rs =>
    (r.rules ≠ [] → .all ∈ r.agents → found = false ∧ r.agents.getLast? = some .all) ∧
      EverybodysKept (found || decide (.all ∈ r.agents) && !r.rules.isEmpty) rs

/-- The parser keeps the right records. -/
def RecordsKept (rs : List Record) : Prop :=
  if NamesUs rs then OursKept false false rs else EverybodysKept false rs

theorem append_choice_iff {α : Type} {R Z W : List α} (b c : Bool) (hZ : ∀ z ∈ Z, z ∉ R) (hW : ∀ w ∈ W, w ∉ R) :
    (if b then R else []) ++ Z = (if c then R else []) ++ W ↔ (R ≠ [] → b = c) ∧ Z = W := by
  cases R with
  | nil => simp
  | cons a R =>
    cases b with
    | true =>
      cases c with
      | true => simp
      | false =>
        simp only [↓reduceIte, Bool.false_eq_true, List.nil_append, ne_eq, reduceCtorEq, not_false_eq_true,
          forall_const, false_and, iff_false]
        rintro rfl
        exact hW a (by simp) (by simp)
    | false =>
      cases c with
      | true =>
        simp only [↓reduceIte, Bool.false_eq_true, List.nil_append, ne_eq, reduceCtorEq, not_false_eq_true,
          forall_const, false_and, iff_false]
        rintro rfl
        exact hZ a (by simp) (by simp)
      | false => simp

/-- What the records add to the rules. -/
@[grind =] def taken : RobotState → List Record → List RobotRule
  | _, [] => []
  | st, r :: rs => (if (r.agents.foldl agentStep st).rule then r.rules else []) ++ taken (recordStep st r) rs

variable {st : RobotState} {rs : List Record} {t : RobotRule} {ks : List Kind} {r : Record} {k : Kind}

theorem mem_taken (ht : t ∈ taken st rs) : t ∈ rs.flatMap Record.rules := by
  induction rs generalizing st with
  | nil => cases ht
  | cons r rs ih =>
    rw [taken, List.mem_append] at ht
    rw [List.flatMap_cons, List.mem_append]
    cases ht with
    | inl h =>
      split at h
      · exact Or.inl h
      · cases h
    | inr h => exact Or.inr (ih h)

theorem rulesFor_cons (k : Kind) (r : Record) (rs : List Record) :
    rulesFor k (r :: rs) = (if decide (k ∈ r.agents) then r.rules else []) ++ rulesFor k rs := by
  rw [rulesFor, List.filter_cons]
  split <;> rfl

theorem mem_rulesFor (ht : t ∈ rulesFor k rs) : t ∈ rs.flatMap Record.rules := by
  obtain ⟨r, hr, ht⟩ := List.mem_flatMap.mp ht
  exact List.mem_flatMap.mpr ⟨r, (List.mem_filter.mp hr).1, ht⟩

theorem not_mem_of_nodup (h : ((r :: rs).flatMap Record.rules).Nodup)
    (ht : t ∈ rs.flatMap Record.rules) : t ∉ r.rules := by
  rw [List.flatMap_cons] at h
  exact fun htr => (List.nodup_append.mp h).2.2 t htr t ht rfl

/-! ### Records behind one of ours -/

/-- Our agent has been named. -/
def Ours (st : RobotState) : Prop := st.my = true ∧ st.common = false

theorem agentStep_ours (h : Ours st) (k : Kind) :
    Ours (agentStep st k) ∧ (agentStep st k).rules = st.rules ∧
      (agentStep st k).rule = namedStep (!st.rules.isEmpty) st.rule k := by
  obtain ⟨hmy, hcommon⟩ := h
  cases k with
  | us => exact ⟨⟨rfl, rfl⟩, by simp [agentStep, hcommon], rfl⟩
  | all =>
    cases hrules : st.rules with
    | nil => simp [agentStep, hrules, hmy, hcommon, Ours, namedStep]
    | cons a l => simp [agentStep, hrules, hmy, hcommon, Ours, namedStep]
  | other => exact ⟨⟨hmy, hcommon⟩, rfl, rfl⟩

theorem foldl_agentStep_ours (h : Ours st) (ks : List Kind) :
    Ours (ks.foldl agentStep st) ∧ (ks.foldl agentStep st).rules = st.rules ∧
      (ks.foldl agentStep st).rule = ks.foldl (namedStep (!st.rules.isEmpty)) st.rule := by
  induction ks generalizing st with
  | nil => exact ⟨h, rfl, rfl⟩
  | cons k ks ih =>
    obtain ⟨hours, hrules, hrule⟩ := agentStep_ours h k
    obtain ⟨hours', hrules', hrule'⟩ := ih hours
    rw [List.foldl_cons, List.foldl_cons, ← hrule, ← hrules]
    exact ⟨hours', hrules', hrule'⟩

theorem recordStep_eq (hrules : (r.agents.foldl agentStep st).rules = st.rules) :
    (recordStep st r).rules = st.rules ++ (if (r.agents.foldl agentStep st).rule then r.rules else []) ∧
      (recordStep st r).rule = (r.agents.foldl agentStep st).rule ∧
      (recordStep st r).my = (r.agents.foldl agentStep st).my ∧
      (recordStep st r).common = (r.agents.foldl agentStep st).common := by
  rw [recordStep, addRules]
  split
  · simp [hrules]
  · simp [hrules]

theorem foldl_recordStep_ours (h : Ours st) (rs : List Record) :
    (rs.foldl recordStep st).rules = st.rules ++ taken st rs := by
  induction rs generalizing st with
  | nil => simp [taken]
  | cons r rs ih =>
    obtain ⟨⟨hmy, hcommon⟩, hrules, -⟩ := foldl_agentStep_ours h r.agents
    obtain ⟨hstep, -, hmy', hcommon'⟩ := recordStep_eq hrules
    rw [List.foldl_cons, ih ⟨hmy'.trans hmy, hcommon'.trans hcommon⟩, hstep, taken, List.append_assoc]

theorem taken_ours_iff (h : Ours st) (hnodup : (rs.flatMap Record.rules).Nodup) :
    taken st rs = rulesFor .us rs ↔ OursKept (!st.rules.isEmpty) st.rule rs := by
  induction rs generalizing st with
  | nil => simp [taken, rulesFor, OursKept]
  | cons r rs ih =>
    obtain ⟨⟨hmy, hcommon⟩, hrules, hrule⟩ := foldl_agentStep_ours h r.agents
    obtain ⟨hstep, hrule', hmy', hcommon'⟩ := recordStep_eq hrules
    have hnodup' : (rs.flatMap Record.rules).Nodup := by
      rw [List.flatMap_cons] at hnodup
      exact (List.nodup_append.mp hnodup).2.1
    rw [taken, rulesFor_cons, append_choice_iff _ _ (fun t ht => not_mem_of_nodup hnodup (mem_taken ht))
        fun t ht => not_mem_of_nodup hnodup (mem_rulesFor ht),
      ih ⟨hmy'.trans hmy, hcommon'.trans hcommon⟩ hnodup', OursKept, hstep, hrule', hrule]
    refine and_congr ?_ ?_
    · rw [Bool.eq_iff_iff, decide_eq_true_eq]
    · have hfound : (!(st.rules ++ if r.agents.foldl (namedStep (!st.rules.isEmpty)) st.rule then r.rules else []).isEmpty) =
          (!st.rules.isEmpty || r.agents.foldl (namedStep (!st.rules.isEmpty)) st.rule && !r.rules.isEmpty) := by
        cases r.agents.foldl (namedStep (!st.rules.isEmpty)) st.rule with
        | true => cases st.rules <;> simp
        | false => simp
      rw [hfound]

/-! ### Records before the first of ours -/

/-- Our agent has not been named; rules there are of `*` only. -/
def NotYetOurs (st : RobotState) : Prop :=
  st.my = false ∧ (st.rule = true → st.common = true) ∧ (st.rules ≠ [] → st.common = true)

theorem agentStep_us (h : NotYetOurs st) :
    Ours (agentStep st .us) ∧ (agentStep st .us).rules = [] ∧ (agentStep st .us).rule = true := by
  refine ⟨⟨rfl, rfl⟩, ?_, rfl⟩
  rw [agentStep]
  cases hcommon : st.common with
  | true => rfl
  | false =>
    simp only [Bool.false_eq_true, ↓reduceIte]
    by_contra hne
    rw [h.2.2 hne] at hcommon
    cases hcommon

theorem agentStep_notYet (h : NotYetOurs st) (hk : k ≠ .us) :
    NotYetOurs (agentStep st k) ∧ (agentStep st k).rules = st.rules := by
  obtain ⟨hmy, hrule, hrules⟩ := h
  cases k with
  | us => exact absurd rfl hk
  | all =>
    rw [agentStep, hmy]
    split
    · exact ⟨⟨rfl, fun _ => rfl, fun _ => rfl⟩, rfl⟩
    · exact ⟨⟨rfl, by simp, hrules⟩, rfl⟩
  | other => exact ⟨⟨hmy, by simp [agentStep], hrules⟩, rfl⟩

theorem foldl_agentStep_notYet (h : NotYetOurs st) (hks : .us ∉ ks) :
    NotYetOurs (ks.foldl agentStep st) ∧ (ks.foldl agentStep st).rules = st.rules := by
  induction ks generalizing st with
  | nil => exact ⟨h, rfl⟩
  | cons k ks ih =>
    have hk : k ≠ .us := fun hk => hks (hk ▸ List.mem_cons_self)
    obtain ⟨hnot, hrules⟩ := agentStep_notYet h hk
    obtain ⟨hnot', hrules'⟩ := ih hnot fun hmem => hks (List.mem_cons_of_mem _ hmem)
    exact ⟨hnot', hrules'.trans hrules⟩

theorem recordStep_notYet (h : NotYetOurs st) (hr : .us ∉ r.agents) : NotYetOurs (recordStep st r) := by
  obtain ⟨⟨hmy, hrule, hrules⟩, -⟩ := foldl_agentStep_notYet h hr
  rw [recordStep, addRules]
  split
  · rename_i hif
    exact ⟨hmy, hrule, fun _ => hrule hif⟩
  · exact ⟨hmy, hrule, hrules⟩

theorem foldl_agentStep_us (h : NotYetOurs st) (hks : .us ∈ ks) :
    Ours (ks.foldl agentStep st) ∧ (ks.foldl agentStep st).rules = [] ∧
      (ks.foldl agentStep st).rule = ks.foldl (namedStep false) false := by
  induction ks generalizing st with
  | nil => cases hks
  | cons k ks ih =>
    rw [List.foldl_cons, List.foldl_cons]
    by_cases hk : k = .us
    · subst hk
      obtain ⟨hours, hrules, hrule⟩ := agentStep_us h
      obtain ⟨hours', hrules', hrule'⟩ := foldl_agentStep_ours hours ks
      rw [hrules, hrule] at hrule'
      exact ⟨hours', hrules'.trans hrules, hrule'⟩
    · have hnamed : namedStep false false k = false := by
        cases k with
        | us => exact absurd rfl hk
        | all => rfl
        | other => rfl
      rw [hnamed]
      refine ih (agentStep_notYet h hk).1 ?_
      cases List.mem_cons.mp hks with
      | inl h => exact absurd h.symm hk
      | inr h => exact h

theorem foldl_namedStep_of_not_mem (hks : .us ∉ ks) : ks.foldl (namedStep false) false = false := by
  induction ks with
  | nil => rfl
  | cons k ks ih =>
    have hnamed : namedStep false false k = false := by
      cases k with
      | us => exact absurd List.mem_cons_self hks
      | all => rfl
      | other => rfl
    rw [List.foldl_cons, hnamed]
    exact ih fun hmem => hks (List.mem_cons_of_mem _ hmem)

theorem foldl_recordStep_namesUs (h : NotYetOurs st) (hus : NamesUs rs) (hnodup : (rs.flatMap Record.rules).Nodup) :
    (rs.foldl recordStep st).rules = rulesFor .us rs ↔ OursKept false false rs := by
  induction rs generalizing st with
  | nil =>
    obtain ⟨r, hr, -⟩ := hus
    cases hr
  | cons r rs ih =>
    have hnodup' : (rs.flatMap Record.rules).Nodup := by
      rw [List.flatMap_cons] at hnodup
      exact (List.nodup_append.mp hnodup).2.1
    rw [List.foldl_cons, rulesFor_cons, OursKept]
    by_cases hr : .us ∈ r.agents
    · obtain ⟨⟨hmy, hcommon⟩, hrules, hrule⟩ := foldl_agentStep_us h hr
      have hours : Ours (recordStep st r) := by
        rw [recordStep, addRules]
        split <;> exact ⟨hmy, hcommon⟩
      have hstep : (recordStep st r).rules =
          (if r.agents.foldl (namedStep false) false then r.rules else []) ∧
            (recordStep st r).rule = r.agents.foldl (namedStep false) false := by
        rw [recordStep, addRules, hrule]
        split
        · rename_i hnamed
          rw [hrules, List.nil_append]
          exact ⟨rfl, rfl⟩
        · exact ⟨hrules, hrule⟩
      rw [foldl_recordStep_ours hours, hstep.1, append_choice_iff _ _ (fun t ht => not_mem_of_nodup hnodup (mem_taken ht))
        fun t ht => not_mem_of_nodup hnodup (mem_rulesFor ht), taken_ours_iff hours hnodup', hstep.1, hstep.2]
      refine and_congr ?_ ?_
      · rw [Bool.eq_iff_iff, decide_eq_true_eq]
      · cases r.agents.foldl (namedStep false) false with
        | true => simp
        | false => simp
    · have hus' : NamesUs rs := by
        obtain ⟨q, hq, hmem⟩ := hus
        cases List.mem_cons.mp hq with
        | inl h => exact absurd (h ▸ hmem) hr
        | inr h => exact ⟨q, h, hmem⟩
      rw [foldl_namedStep_of_not_mem hr, decide_eq_false hr]
      simp only [Bool.false_eq_true, ↓reduceIte, List.nil_append, hr, implies_true, true_and, Bool.or_false,
        Bool.false_and]
      exact ih (recordStep_notYet h hr) hus' hnodup'

/-! ### Without a record of ours -/

/-- The agent lines of a record that does not name us: the flag is set by `*` at the end, if there are no rules. -/
theorem rule_foldl_agentStep (h : NotYetOurs st) (hks : .us ∉ ks) (hne : ks ≠ []) :
    (ks.foldl agentStep st).rule = (st.rules.isEmpty && ks.getLast? == some .all) := by
  obtain ⟨init, k, rfl⟩ : ∃ init k, ks = init ++ [k] := ⟨_, _, (List.dropLast_append_getLast hne).symm⟩
  obtain ⟨⟨hmy, -⟩, hrules⟩ := foldl_agentStep_notYet h (fun hmem => hks (List.mem_append_left [k] hmem))
  rw [List.foldl_append, List.foldl_cons, List.foldl_nil, List.getLast?_concat]
  cases k with
  | us => exact absurd (by simp) hks
  | all =>
    rw [agentStep, hrules, hmy]
    cases st.rules with
    | nil => rfl
    | cons a l => rfl
  | other => simp [agentStep]

theorem foldl_recordStep_notYet (h : NotYetOurs st) (hus : ¬ NamesUs rs) :
    (rs.foldl recordStep st).rules = st.rules ++ taken st rs := by
  induction rs generalizing st with
  | nil => simp [taken]
  | cons r rs ih =>
    have hr : .us ∉ r.agents := fun hr => hus ⟨r, List.mem_cons_self, hr⟩
    have hus' : ¬ NamesUs rs := fun ⟨q, hq, hmem⟩ => hus ⟨q, List.mem_cons_of_mem _ hq, hmem⟩
    rw [List.foldl_cons, ih (recordStep_notYet h hr) hus', (recordStep_eq (foldl_agentStep_notYet h hr).2).1, taken,
      List.append_assoc]

theorem taken_notYet_iff (h : NotYetOurs st) (hus : ¬ NamesUs rs)
    (hne : ∀ r ∈ rs, r.agents ≠ []) (hnodup : (rs.flatMap Record.rules).Nodup) :
    taken st rs = rulesFor .all rs ↔ EverybodysKept (!st.rules.isEmpty) rs := by
  induction rs generalizing st with
  | nil => simp [taken, rulesFor, EverybodysKept]
  | cons r rs ih =>
    have hr : .us ∉ r.agents := fun hr => hus ⟨r, List.mem_cons_self, hr⟩
    have hus' : ¬ NamesUs rs := fun ⟨q, hq, hmem⟩ => hus ⟨q, List.mem_cons_of_mem _ hq, hmem⟩
    have hnodup' : (rs.flatMap Record.rules).Nodup := by
      rw [List.flatMap_cons] at hnodup
      exact (List.nodup_append.mp hnodup).2.1
    have hrule := rule_foldl_agentStep h hr (hne r List.mem_cons_self)
    rw [taken, rulesFor_cons, append_choice_iff _ _ (fun t ht => not_mem_of_nodup hnodup (mem_taken ht))
        fun t ht => not_mem_of_nodup hnodup (mem_rulesFor ht),
      ih (recordStep_notYet h hr) hus' (fun q hq => hne q (List.mem_cons_of_mem _ hq)) hnodup', EverybodysKept,
      (recordStep_eq (foldl_agentStep_notYet h hr).2).1, hrule]
    -- where the flag is set, `*` is named
    have hlast : r.agents.getLast? = some .all → .all ∈ r.agents := List.mem_of_getLast?
    have hkept : (r.rules ≠ [] → (st.rules.isEmpty && r.agents.getLast? == some .all) = decide (.all ∈ r.agents)) ↔
        (r.rules ≠ [] → .all ∈ r.agents → (!st.rules.isEmpty) = false ∧ r.agents.getLast? = some .all) := by
      refine imp_congr_right fun _ => ?_
      rw [Bool.eq_iff_iff, Bool.and_eq_true, beq_iff_eq, decide_eq_true_eq, Bool.not_eq_false']
      exact ⟨fun h => h.mpr, fun h => ⟨fun hl => hlast hl.2, h⟩⟩
    rw [hkept]
    refine and_congr_right fun hcond => ?_
    have hfound : (!(st.rules ++ if st.rules.isEmpty && r.agents.getLast? == some .all then r.rules else []).isEmpty) =
        (!st.rules.isEmpty || decide (.all ∈ r.agents) && !r.rules.isEmpty) := by
      cases hR : r.rules with
      | nil => simp
      | cons a l =>
        rw [hkept.mpr hcond (by simp [hR])]
        cases decide (.all ∈ r.agents) with
        | true => cases st.rules <;> simp
        | false => simp
    rw [hfound]

/-! ## The parser and the records -/

theorem notYetOurs_init : NotYetOurs initState := ⟨rfl, by simp [initState], by simp [initState]⟩

/-- **The rules of the parser are the rules for our agent exactly when it keeps the right records.** -/
theorem foldl_recordStep_iff {rs : List Record} (hne : ∀ r ∈ rs, r.agents ≠ [])
    (hnodup : (rs.flatMap Record.rules).Nodup) :
    (rs.foldl recordStep initState).rules = ourRules rs ↔ RecordsKept rs := by
  rw [ourRules, RecordsKept]
  by_cases hus : NamesUs rs
  · rw [if_pos hus, if_pos hus, foldl_recordStep_namesUs notYetOurs_init hus hnodup]
  · rw [if_neg hus, if_neg hus, foldl_recordStep_notYet notYetOurs_init hus]
    exact taken_notYet_iff notYetOurs_init hus hne hnodup

/-- Our name. -/
def udmUserAgent : UserAgent := ⟨"MnoGoSearch/3.4.1".toList, by decide⟩

/-- Two records for everybody. -/
def twoRecords : List Char := "User-agent: *\nDisallow: /a\n\nUser-agent: *\nDisallow: /b\n".toList

end MnoGoSearch.Robots
