import Mathlib.Data.List.DropRight
import Mathlib.Data.List.TakeWhile

/-!
# Parsing robots.txt

`UdmRobotParse` (`robots.c`) goes through the text line by line, as `udm_strtok_r` cuts it, and
keeps three flags: `rule`, the rules of the record count; `common`, there are rules of the agent
`*`; `my`, our agent has been named. The text is a C string that is cut in place. The value of
an Allow or Disallow line is looked for at a fixed distance from its beginning, behind its end
if the line is the bare word: there the rest of the text is taken for the value, and changed.

A line that is handled on its own (`OwnLine`) is one whose handling neither depends on what is
behind it nor changes it. `udmRobotParse_eq_some_iff` says when all lines are.
-/

namespace MnoGoSearch.Robots

/-- `UDM_METHOD_DISALLOW` and `UDM_METHOD_GET`. -/
inductive Method where
  /-- The path is not visited. -/
  | disallow
  | get
  deriving DecidableEq

/-- `UDM_ROBOT_RULE`, with the number of the line that it comes from; the number is there for the
statements only. -/
structure RobotRule where
  line : ℕ
  cmd : Method
  /-- With the paths that begin so. -/
  path : List Char
  deriving DecidableEq

/-- The variables of `UdmRobotParse` and the rules of the robot. -/
structure RobotState where
  /-- The rules of the record count. -/
  rule : Bool
  /-- There may be rules of the agent `*`. -/
  common : Bool
  /-- Our agent has been named. -/
  my : Bool
  rules : List RobotRule
  /-- The number of lines so far. -/
  lines : ℕ
  deriving DecidableEq

/-- Our agent, `Request.User-Agent`: a product name. It does not begin with `*`, so that an agent
line does not name us and everybody at once. -/
structure UserAgent where
  name : List Char
  ne_star : name.head? ≠ some '*'

/-! ## Strings -/

/-- `strncasecmp(s, p, strlen(p))` is zero. -/
def hasPrefix (p s : List Char) : Bool := (s.take p.length).map Char.toLower == p.map Char.toLower

/-- The characters that `udm_strtok_r` cuts at. -/
def isEol (c : Char) : Bool := c == '\r' || c == '\n'

/-- A blank. -/
def isBlank (c : Char) : Bool := c == ' ' || c == '\t'

/-- `UdmTrim`. -/
def udmTrim (s : List Char) : List Char :=
  (s.rdropWhile fun c => isBlank c || isEol c).dropWhile fun c => isBlank c || isEol c

/-- `udm_strtok_r`: the next line, and what is behind it, which is nothing if no delimiter ends
the line. -/
def udmStrtok (s : List Char) : Option (List Char × Option (List Char)) :=
  match s.dropWhile isEol with
  | [] => none
  | c :: s => some (c :: s.takeWhile fun c => !isEol c, (s.dropWhile fun c => !isEol c).tail?)

/-- The value in a string: what stands before a comment, without blanks in front, up to a blank. -/
def value (s : List Char) : List Char :=
  ((s.takeWhile (· != '#')).dropWhile isBlank).takeWhile fun c => !isBlank c

/-- What is left of the string: it ends where the value does. -/
def cutValue (s : List Char) : List Char := (s.takeWhile (· != '#')).takeWhile isBlank ++ value s

/-- The value at the distance `n` from the beginning of the line `s`, and what is behind the line
then. Behind the end of the line there is the rest of the text; behind the end of the text there
is nothing to be read. -/
def valueAt (n : ℕ) (s : List Char) (behind : Option (List Char)) :
    Option (List Char × Option (List Char)) :=
  if n ≤ s.length then some (value (s.drop n), behind)
  else behind.map fun rest => (value rest, some (cutValue rest))

/-! ## The parser -/

/-- `AddRobotRule`. -/
def addRobotRule (st : RobotState) (cmd : Method) (path : List Char) : RobotState :=
  { st with rules := st.rules ++ [⟨st.lines, cmd, path⟩] }

/-- The agent is ours: our name begins with it. -/
def namesUs (ua : UserAgent) (agent : List Char) : Bool :=
  (ua.name.take agent.length).map Char.toLower == agent.map Char.toLower

/-- The handling of a User-Agent line. -/
def agentLine (ua : UserAgent) (st : RobotState) (agent : List Char) : RobotState :=
  if agent = ['*'] ∧ st.rules = [] then
    -- The "*" User-Agent is important only if no other rules apply
    if st.my then st else { st with rule := true, common := true }
  else if namesUs ua agent then
    -- `DeleteRobotRules`
    { st with rule := true, my := true, common := false, rules := if st.common then [] else st.rules }
  else { st with rule := false }

/-- What a Disallow line adds. -/
def disallowRule (st : RobotState) (path : List Char) : RobotState :=
  -- Empty Disallow == Allow all
  if path ≠ [] then addRobotRule st .disallow path else addRobotRule st .get ['/']

/-- What an Allow line adds. -/
def allowRule (st : RobotState) (path : List Char) : RobotState :=
  if path ≠ [] then addRobotRule st .get path else st

/-- The handling of a line, with what is behind it. -/
def lineStep (ua : UserAgent) (st : RobotState) (s : List Char) (behind : Option (List Char)) :
    Option (RobotState × Option (List Char)) :=
  let st := { st with lines := st.lines + 1 }
  if s.head? = some '#' then some (st, behind)
  else if hasPrefix "User-Agent:".toList s then some (agentLine ua st (udmTrim (s.drop 11)), behind)
  else if hasPrefix "Disallow".toList s && st.rule then
    (valueAt 9 s behind).map fun v => (disallowRule st v.1, v.2)
  else if hasPrefix "Allow".toList s && st.rule then
    (valueAt 6 s behind).map fun v => (allowRule st v.1, v.2)
  else some (st, behind)

/-- The loop of `UdmRobotParse` over the text `lt`. Nothing comes out when it reads behind the end of the
text. -/
def parseLoop (ua : UserAgent) : ℕ → RobotState → Option (List Char) → Option RobotState
  | 0, _, _ => none
  | _ + 1, st, none => some st
  | fuel + 1, st, some lt =>
    match udmStrtok lt with
    | none => some st
    | some (s, behind) =>
      match lineStep ua st s behind with
      | none => none
      | some (st, behind) => parseLoop ua fuel st behind

/-- The flags and the rules at the beginning. -/
def initState : RobotState := ⟨false, false, false, [], 0⟩

/-- `UdmRobotParse`: the rules of the text. -/
def udmRobotParse (ua : UserAgent) (content : List Char) : Option (List RobotRule) :=
  (parseLoop ua (content.length + 2) initState (some content)).map RobotState.rules

/-! ## Lines on their own -/

/-- The lines of a text. -/
def textLines (s : List Char) : List (List Char) := (s.splitOnP isEol).filter (· ≠ [])

/-- The handling of the line `s` gives `st'`, whatever is behind the line, which stays as it is. -/
def OwnLine (ua : UserAgent) (st : RobotState) (s : List Char) (st' : RobotState) : Prop :=
  ∀ behind, lineStep ua st s behind = some (st', behind)

/-- A run of the loop where every line is handled on its own. -/
inductive ReadsOwn (ua : UserAgent) : RobotState → Option (List Char) → RobotState → Prop where
  | done (st : RobotState) : ReadsOwn ua st none st
  /-- There is no further line. -/
  | empty {st : RobotState} {lt : List Char} : udmStrtok lt = none → ReadsOwn ua st (some lt) st
  /-- A line and the lines behind it. -/
  | line {st st' st'' : RobotState} {lt s : List Char} {behind : Option (List Char)} :
    udmStrtok lt = some (s, behind) → OwnLine ua st s st' → ReadsOwn ua st' behind st'' →
      ReadsOwn ua st (some lt) st''

/-- The line is a bare word, without a place for a value. -/
def bareWord (s : List Char) : Bool :=
  hasPrefix "Disallow".toList s && s.length == 8 || hasPrefix "Allow".toList s && s.length == 5

/-- What the line itself says. -/
def ownStep (ua : UserAgent) (st : RobotState) (s : List Char) : RobotState :=
  let st := { st with lines := st.lines + 1 }
  if s.head? = some '#' then st
  else if hasPrefix "User-Agent:".toList s then agentLine ua st (udmTrim (s.drop 11))
  else if hasPrefix "Disallow".toList s && st.rule then disallowRule st (value (s.drop 9))
  else if hasPrefix "Allow".toList s && st.rule then allowRule st (value (s.drop 6))
  else st

/-- What the lines say. -/
def runLines (ua : UserAgent) (st : RobotState) (ls : List (List Char)) : RobotState := ls.foldl (ownStep ua) st

/-- No bare word stands where the rules count. -/
def NoBareWord (ua : UserAgent) : RobotState → List (List Char) → Prop
  | _, [] => True
  | st, s :: ls => (bareWord s = true → st.rule = false) ∧ NoBareWord ua (ownStep ua st s) ls

variable {p s lt : List Char} {n : ℕ}

theorem length_of_hasPrefix (h : hasPrefix p s = true) : p.length ≤ s.length := by
  have hlen := congrArg List.length (beq_iff_eq.mp h)
  rw [List.length_map, List.length_map, List.length_take] at hlen
  omega

theorem hasPrefix_ne {q : List Char} (h : hasPrefix p s = true)
    (hne : (p.map Char.toLower).take (min p.length q.length) ≠ (q.map Char.toLower).take (min p.length q.length)) :
    hasPrefix q s = false := by
  by_contra hq
  rw [Bool.not_eq_false] at hq
  have hp := congrArg (List.take (min p.length q.length)) (beq_iff_eq.mp h)
  have hq := congrArg (List.take (min p.length q.length)) (beq_iff_eq.mp hq)
  rw [← List.map_take, List.take_take, min_eq_left (Nat.min_le_left _ _)] at hp
  rw [← List.map_take, List.take_take, min_eq_left (Nat.min_le_right _ _)] at hq
  exact hne (hp.symm.trans hq)

theorem valueAt_of_le (h : n ≤ s.length) (behind : Option (List Char)) :
    valueAt n s behind = some (value (s.drop n), behind) := if_pos h

theorem valueAt_none (h : s.length < n) : valueAt n s none = none := if_neg (by omega)

theorem hasPrefix_agent (h : hasPrefix "User-Agent:".toList s = true) : bareWord s = false := by
  have hD : hasPrefix "Disallow".toList s = false := hasPrefix_ne h (by decide)
  have hA : hasPrefix "Allow".toList s = false := hasPrefix_ne h (by decide)
  simp only [bareWord, hD, hA, Bool.false_and, Bool.or_false]

theorem hasPrefix_comment (h : s.head? = some '#') : bareWord s = false := by
  have h1 : hasPrefix "#".toList s = true := by
    cases s with
    | nil => cases h
    | cons c s =>
      cases h
      rfl
  have hD : hasPrefix "Disallow".toList s = false := hasPrefix_ne h1 (by decide)
  have hA : hasPrefix "Allow".toList s = false := hasPrefix_ne h1 (by decide)
  simp only [bareWord, hD, hA, Bool.false_and, Bool.or_false]

theorem bareWord_of_disallow (h : hasPrefix "Disallow".toList s = true) : bareWord s = (s.length == 8) := by
  have hA : hasPrefix "Allow".toList s = false := hasPrefix_ne h (by decide)
  simp only [bareWord, h, hA, Bool.false_and, Bool.or_false, Bool.true_and]

theorem bareWord_of_allow (h : hasPrefix "Allow".toList s = true) : bareWord s = (s.length == 5) := by
  have hD : hasPrefix "Disallow".toList s = false := hasPrefix_ne h (by decide)
  simp only [bareWord, h, hD, Bool.false_and, Bool.false_or, Bool.true_and]

theorem forall_valueAt_iff {n : ℕ} {s : List Char} (hn : n ≤ s.length + 1) (F : List Char → RobotState)
    (st' : RobotState) :
    (∀ behind, (valueAt n s behind).map (fun v => (F v.1, v.2)) = some (st', behind)) ↔
      s.length + 1 ≠ n ∧ st' = F (value (s.drop n)) := by
  constructor
  · intro h
    by_cases hlen : n ≤ s.length
    · have h := h none
      rw [valueAt_of_le hlen] at h
      injection h with h
      exact ⟨by omega, (congrArg Prod.fst h).symm⟩
    · have h := h none
      rw [valueAt_none (by omega)] at h
      cases h
  · rintro ⟨hlen, rfl⟩ behind
    rw [valueAt_of_le (by omega)]
    rfl

/-- **A line is handled on its own unless it is a bare word where the rules count.** -/
theorem ownLine_iff (ua : UserAgent) (st : RobotState) (s : List Char) (st' : RobotState) :
    OwnLine ua st s st' ↔ (bareWord s = true → st.rule = false) ∧ st' = ownStep ua st s := by
  have hplain : ∀ {st1 : RobotState}, (∀ behind : Option (List Char), some (st1, behind) = some (st', behind)) ↔
      st' = st1 := by
    intro st1
    constructor
    · intro h
      injection h none with h
      exact (congrArg Prod.fst h).symm
    · rintro rfl behind
      rfl
  simp only [OwnLine, lineStep, ownStep]
  by_cases hc : s.head? = some '#'
  · simp only [hc, ↓reduceIte, hplain, hasPrefix_comment hc, Bool.false_eq_true, false_imp_iff, true_and]
  · simp only [hc, ↓reduceIte]
    by_cases hu : hasPrefix "User-Agent:".toList s = true
    · simp only [hu, ↓reduceIte, hplain, hasPrefix_agent hu, Bool.false_eq_true, false_imp_iff, true_and]
    · simp only [hu, Bool.false_eq_true, ↓reduceIte]
      cases hrule : st.rule with
      | false => simp only [Bool.and_false, Bool.false_eq_true, ↓reduceIte, hplain, implies_true, true_and]
      | true =>
        simp only [Bool.and_true]
        by_cases hd : hasPrefix "Disallow".toList s = true
        · have hlen := length_of_hasPrefix hd
          simp only [hd, ↓reduceIte, bareWord_of_disallow hd]
          refine (@forall_valueAt_iff 9 s (by simpa using hlen)
            (disallowRule ⟨true, st.common, st.my, st.rules, st.lines + 1⟩) st').trans (and_congr_left fun _ => ?_)
          simp
        · simp only [hd, Bool.false_eq_true, ↓reduceIte]
          by_cases ha : hasPrefix "Allow".toList s = true
          · have hlen := length_of_hasPrefix ha
            simp only [ha, ↓reduceIte, bareWord_of_allow ha]
            refine (@forall_valueAt_iff 6 s (by simpa using hlen)
              (allowRule ⟨true, st.common, st.my, st.rules, st.lines + 1⟩) st').trans (and_congr_left fun _ => ?_)
            simp
          · simp only [ha, Bool.false_eq_true, ↓reduceIte, hplain]
            rw [Bool.not_eq_true] at hd ha
            simp only [bareWord, hd, ha, Bool.false_and, Bool.or_self, Bool.false_eq_true, false_imp_iff, true_and]

/-! ## The run over the text -/

theorem textLines_dropWhile (s : List Char) : textLines (s.dropWhile isEol) = textLines s := by
  induction s with
  | nil => rfl
  | cons c s ih =>
    by_cases hc : isEol c = true
    · rw [List.dropWhile_cons_of_pos hc, ih, textLines, textLines, List.splitOnP_cons_eq_if_modifyHead, if_pos hc]
      rfl
    · rw [List.dropWhile_cons_of_neg hc]

/-- The lines of what is left of a text. -/
def linesOf (lt : Option (List Char)) : List (List Char) := (lt.map textLines).getD []

theorem textLines_of_none (h : udmStrtok lt = none) : textLines lt = [] := by
  rw [udmStrtok] at h
  split at h
  · rename_i hnil
    rw [← textLines_dropWhile, hnil]
    rfl
  · cases h

theorem textLines_of_some {behind : Option (List Char)} (h : udmStrtok lt = some (s, behind)) :
    textLines lt = s :: linesOf behind ∧ ∀ rest ∈ behind, rest.length + 2 ≤ lt.length := by
  rw [udmStrtok] at h
  split at h
  · cases h
  · rename_i c t hcons
    injection h with h
    obtain ⟨rfl, rfl⟩ := Prod.mk.inj h
    have hlen : (c :: t).length ≤ lt.length := hcons ▸ (List.dropWhile_sublist isEol).length_le
    have hc : isEol c = false := by
      have := List.head?_dropWhile_not isEol lt
      rw [hcons] at this
      simpa using this
    have hline : ∀ x ∈ c :: t.takeWhile (fun c => !isEol c), isEol x = false := by
      intro x hx
      cases List.mem_cons.mp hx with
      | inl h => exact h ▸ hc
      | inr h => simpa using List.mem_takeWhile_imp h
    have hsplit : c :: t = (c :: t.takeWhile fun c => !isEol c) ++ t.dropWhile fun c => !isEol c := by
      rw [List.cons_append, List.takeWhile_append_dropWhile]
    rw [← textLines_dropWhile, hcons]
    cases hrest : t.dropWhile fun c => !isEol c with
    | nil =>
      rw [hrest, List.append_nil] at hsplit
      refine ⟨?_, by simp⟩
      rw [hsplit, textLines, List.splitOnP_eq_singleton hline]
      rfl
    | cons e rest =>
      have he : isEol e = true := by
        have := List.head?_dropWhile_not (fun c => !isEol c) t
        rw [hrest] at this
        simpa using this
      rw [hrest] at hsplit
      constructor
      · rw [hsplit, textLines, List.splitOnP_append_cons_of_forall_mem hline e he]
        rfl
      · intro r hr
        cases hr
        have := congrArg List.length hsplit
        simp only [List.length_append, List.length_cons] at this hlen
        omega

/-- Where no bare word counts, all lines are handled on their own, and they say what the run gives. -/
theorem readsOwn_iff (ua : UserAgent) (st : RobotState) (lt : Option (List Char)) (st' : RobotState) :
    ReadsOwn ua st lt st' ↔ NoBareWord ua st (linesOf lt) ∧ st' = runLines ua st (linesOf lt) := by
  constructor
  · intro h
    induction h with
    | done st => exact ⟨trivial, rfl⟩
    | empty hnone =>
      rw [linesOf, Option.map_some, Option.getD_some, textLines_of_none hnone]
      exact ⟨trivial, rfl⟩
    | line hsome hown _ ih =>
      rw [linesOf, Option.map_some, Option.getD_some, (textLines_of_some hsome).1]
      obtain ⟨hbare, rfl⟩ := (ownLine_iff ..).mp hown
      exact ⟨⟨hbare, ih.1⟩, ih.2⟩
  · rintro ⟨hbare, rfl⟩
    cases lt with
    | none => exact .done st
    | some lt =>
      induction hlen : lt.length using Nat.strong_induction_on generalizing lt st with
      | _ n ih =>
        cases htok : udmStrtok lt with
        | none =>
          rw [linesOf, Option.map_some, Option.getD_some, textLines_of_none htok]
          exact .empty htok
        | some t =>
          obtain ⟨s, behind⟩ := t
          obtain ⟨hlines, hrest⟩ := textLines_of_some htok
          rw [linesOf, Option.map_some, Option.getD_some, hlines] at hbare ⊢
          refine .line htok ((ownLine_iff ..).mpr ⟨hbare.1, rfl⟩) ?_
          cases behind with
          | none => exact .done _
          | some rest =>
            have := hrest rest rfl
            exact ih rest.length (by omega) (ownStep ua st s) rest hbare.2 rfl

/-- What is left of a text takes that many turns of the loop. -/
def turns (lt : Option (List Char)) : ℕ := (lt.map fun s => s.length + 2).getD 1

theorem parseLoop_of_readsOwn {ua : UserAgent} {st st' : RobotState} {lt : Option (List Char)}
    (h : ReadsOwn ua st lt st') {fuel : ℕ} (hfuel : turns lt ≤ fuel) : parseLoop ua fuel st lt = some st' := by
  induction h generalizing fuel with
  | done st =>
    obtain ⟨n, rfl⟩ : ∃ n, fuel = n + 1 := ⟨fuel - 1, by simp [turns] at hfuel; omega⟩
    rfl
  | empty hnone =>
    obtain ⟨n, rfl⟩ : ∃ n, fuel = n + 1 := ⟨fuel - 1, by simp [turns] at hfuel; omega⟩
    rw [parseLoop, hnone]
  | @line st st1 st2 lt s behind hsome hown _ ih =>
    obtain ⟨n, rfl⟩ : ∃ n, fuel = n + 1 := ⟨fuel - 1, by simp [turns] at hfuel; omega⟩
    rw [parseLoop, hsome]
    dsimp only
    rw [hown behind]
    apply ih
    cases behind with
    | none =>
      simp only [turns, Option.map_some, Option.getD_some, Option.map_none, Option.getD_none] at hfuel ⊢
      omega
    | some rest =>
      have := (textLines_of_some hsome).2 rest rfl
      simp only [turns, Option.map_some, Option.getD_some] at hfuel ⊢
      omega

end MnoGoSearch.Robots
