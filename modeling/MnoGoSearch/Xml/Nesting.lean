import MnoGoSearch.Xml.Safe

/-!
# Nesting of elements

What the handlers should see: each element and attribute is left as it was entered, an end tag has the name of the
innermost open element, and the path consists of the names of all open ones. The parser keeps only the path, and compares
only the length of a name with that of the last part of the path. `nestsRight_iff` says for which documents without errors
this is enough.
-/

namespace MnoGoSearch.Xml

/-! ### What is wanted -/

/-- The path to the innermost of the open elements, which stand in the list from the innermost on. -/
def joinPath (names : List (List UInt8)) : List UInt8 := List.intercalate [0x2E] names.reverse

/-- The calls for an attribute, with the path to it. -/
def attrCalls (path : List UInt8) (a : Attr) : List Call :=
  .enter path ::
    (match a.value with
    | some (beg, stop) => [.value beg stop]
    | none => []) ++ [.leave path]

/-- The calls that are wanted in a document with these open elements; nothing if elements are not nested. -/
def nestedCalls : List Action → List (List UInt8) → Option (List Call)
  | [], [] => some []
  | .text beg stop :: as, names => (nestedCalls as names).map (.value beg stop :: ·)
  | .cdata beg stop :: as, names => (nestedCalls as names).map (.value (beg + 9) (stop - 3) :: ·)
  | .enter n attrs :: as, names =>
    (nestedCalls as (n :: names)).map
      (.enter (joinPath (n :: names)) :: (attrs.flatMap fun a => attrCalls (joinPath (a.name :: n :: names)) a) ++ ·)
  | .close n :: as, t :: names =>
    if n = t then (nestedCalls as names).map (.leave (joinPath (t :: names)) :: ·) else none
  | .leave :: as, t :: names => (nestedCalls as names).map (.leave (joinPath (t :: names)) :: ·)
  | [], _ :: _ | .close _ :: _, [] | .leave :: _, [] | .fail _ :: _, _ => none

/-- Every call of the one handler has its call of the other one, with the same path. -/
def Nested : List (List UInt8) → List Call → Prop
  | stack, [] => stack = []
  | stack, .enter path :: cs => Nested (path :: stack) cs
  | stack, .value _ _ :: cs => Nested stack cs
  | [], .leave _ :: _ => False
  | top :: stack, .leave path :: cs => path = top ∧ Nested stack cs

/-- **The calls are right**: they are nested, and are those for the elements of the document. -/
def NestsRight (skip : Bool) (doc : List UInt8) (calls : List Call) : Prop :=
  Nested [] calls ∧ ∃ as, udmXMLCalls skip doc = some as ∧ nestedCalls as [] = some calls

/-- No tag follows. -/
def Tagless (as : List Action) : Prop := ∀ a ∈ as, (∃ beg stop, a = .text beg stop) ∨ ∃ beg stop, a = .cdata beg stop

/-- Cutting at the last dot of the path gives the path to the other open elements, or the wrong path is not used. -/
def CutRight (t : List UInt8) (names : List (List UInt8)) (as : List Action) : Prop :=
  0x2E ∉ t ∨ names = [] ∧ ((∃ t', t = 0x2E :: t' ∧ 0x2E ∉ t') ∨ Tagless as)

/-- **A document that is nested well**: an end tag has the name of the innermost open element, `/`, `?` and `!` leave an
element that is there and whose name has no dot, and all are left in the end. -/
def NestedFrom : List Action → List (List UInt8) → Prop
  | [], names => names = []
  | .text _ _ :: as, names | .cdata _ _ :: as, names => NestedFrom as names
  | .enter n _ :: as, names => NestedFrom as (n :: names)
  | .close _ :: _, [] | .leave :: _, [] | .fail _ :: _, _ => False
  | .close n :: as, t :: names => n = t ∧ NestedFrom as names
  | .leave :: as, t :: names => CutRight t names as ∧ NestedFrom as names

/-! ### The paths of open elements -/

section Paths

variable {n : List UInt8} {names : List (List UInt8)}

theorem intercalate_concat {l : List (List UInt8)} (hl : l ≠ []) (sep n : List UInt8) :
    sep.intercalate (l ++ [n]) = sep.intercalate l ++ sep ++ n := by
  induction l with
  | nil => exact absurd rfl hl
  | cons m l ih =>
    cases l with
    | nil => simp
    | cons k l =>
      rw [List.cons_append, List.intercalate_cons_of_ne_nil (by simp), ih (by simp), List.intercalate_cons_cons]
      simp only [List.append_assoc]

@[simp] theorem joinPath_nil : joinPath [] = [] := rfl

@[simp] theorem joinPath_singleton (n : List UInt8) : joinPath [n] = n := List.intercalate_singleton

theorem joinPath_cons_of_ne_nil (n : List UInt8) (hnames : names ≠ []) :
    joinPath (n :: names) = joinPath names ++ 0x2E :: n := by
  rw [joinPath, joinPath, List.reverse_cons, intercalate_concat (by simpa using hnames), List.append_assoc,
    List.singleton_append]

theorem joinPath_eq_nil_iff (hne : ∀ m ∈ names, m ≠ []) : joinPath names = [] ↔ names = [] := by
  constructor
  · intro h
    cases names with
    | nil => rfl
    | cons m names =>
      by_cases hnames : names = []
      · subst hnames
        rw [joinPath_singleton] at h
        exact absurd h (hne m List.mem_cons_self)
      · rw [joinPath_cons_of_ne_nil m hnames] at h
        exact absurd h (by simp)
  · rintro rfl
    rfl

/-- **Entering an element** joins its name to the path. -/
theorem joinPath_cons (n : List UInt8) (hne : ∀ m ∈ names, m ≠ []) :
    joinPath (n :: names) = enterPath (joinPath names) n := by
  rw [enterPath]
  split_ifs with hnil
  · rw [(joinPath_eq_nil_iff hne).1 hnil, joinPath_singleton]
  · exact joinPath_cons_of_ne_nil n fun h => hnil (by rw [h, joinPath_nil])

theorem exists_last_dot (h : 0x2E ∈ n) : ∃ a b, n = a ++ 0x2E :: b ∧ 0x2E ∉ b := by
  obtain ⟨b, a, hab, hb⟩ := List.eq_append_cons_of_mem (List.mem_reverse.2 h)
  refine ⟨a.reverse, b.reverse, ?_, fun hmem => hb (List.mem_reverse.1 hmem)⟩
  have hrev := congrArg List.reverse hab
  simpa using hrev

/-- **Leaving an element whose name has no dot** gives the path to the others. -/
theorem leavePath_joinPath (hdot : 0x2E ∉ n) : leavePath (joinPath (n :: names)) = joinPath names := by
  by_cases hnames : names = []
  · rw [hnames, joinPath_singleton, joinPath_nil, leavePath_of_not_mem hdot]
  · rw [joinPath_cons_of_ne_nil n hnames, leavePath_append _ hdot]

theorem lastLength_joinPath (n : List UInt8) (names : List (List UInt8)) :
    lastLength (joinPath (n :: names)) = lastLength n := by
  by_cases hnames : names = []
  · rw [hnames, joinPath_singleton]
  · rw [joinPath_cons_of_ne_nil n hnames, lastLength_append]

/-- With a dot in the name, a part of it stays on the path, unless the dot is the first byte of the path and there is no
other. -/
theorem leavePath_joinPath_of_mem (hdot : 0x2E ∈ n) :
    (names = [] ∧ ∃ t, n = 0x2E :: t ∧ 0x2E ∉ t) ∧ leavePath (joinPath (n :: names)) = [] ∨
      ¬(names = [] ∧ ∃ t, n = 0x2E :: t ∧ 0x2E ∉ t) ∧
        (joinPath names).length < (leavePath (joinPath (n :: names))).length := by
  obtain ⟨a, b, rfl, hb⟩ := exists_last_dot hdot
  by_cases hnames : names = []
  · rw [hnames, joinPath_singleton, leavePath_append _ hb, joinPath_nil]
    cases a with
    | nil => exact Or.inl ⟨⟨rfl, b, rfl, hb⟩, rfl⟩
    | cons c a =>
      refine Or.inr ⟨?_, by simp⟩
      rintro ⟨-, t, ht, hnot⟩
      rw [List.cons_append, List.cons.injEq] at ht
      exact hnot (by rw [← ht.2]; simp)
  · refine Or.inr ⟨fun h => hnames h.1, ?_⟩
    rw [joinPath_cons_of_ne_nil _ hnames, ← List.cons_append, ← List.append_assoc, leavePath_append _ hb]
    simp

end Paths

/-! ### What is called -/

section Runs

variable {h : List Call → Bool} {doc : List UInt8} {st st' : ParserState}

/-- The calls of an action without an error, with the path in front of it. -/
def callsOf : Action → List UInt8 → List Call
  | .text beg stop, _ => [.value beg stop]
  | .cdata beg stop, _ => [.value (beg + 9) (stop - 3)]
  | .enter n attrs, path =>
    .enter (enterPath path n) :: attrs.flatMap fun a => attrCalls (enterPath (enterPath path n) a.name) a
  | .close _, path | .leave, path => [.leave path]
  | .fail _, _ => []

/-- All calls, nothing after an error. -/
def runCalls : List Action → List UInt8 → Option (List Call)
  | [], _ => some []
  | a :: as, path => (pathAfter a path).bind fun path' => (runCalls as path').map (callsOf a path ++ ·)

theorem andThen_eq_ok {o : Outcome} {f : ParserState → Outcome} (hok : o.andThen f = .ok st') :
    ∃ st₁, o = .ok st₁ ∧ f st₁ = .ok st' := by
  cases o with
  | ok st₁ => exact ⟨st₁, rfl, hok⟩
  | error errstr st₁ => exact nomatch hok
  | overrun st₁ => exact nomatch hok

theorem callHandler_eq_ok {c : Call} (hok : callHandler h c st = .ok st') : st' = ⟨st.path, st.calls ++ [c]⟩ := by
  rw [callHandler] at hok
  dsimp only at hok
  split_ifs at hok
  exact (Outcome.ok.inj hok).symm

theorem udmXMLEnter_eq_ok {n : List UInt8} (hok : udmXMLEnter h n st = .ok st') :
    Entered st.path n ∧ st' = ⟨enterPath st.path n, st.calls ++ [.enter (enterPath st.path n)]⟩ := by
  rw [udmXMLEnter] at hok
  split_ifs at hok with hdeep hroom
  exact ⟨Nat.not_lt.1 hdeep, callHandler_eq_ok hok⟩

theorem udmXMLLeave_eq_ok {name : Option (List UInt8)} (hok : udmXMLLeave h name st = .ok st') :
    (∀ n ∈ name, n.length = lastLength st.path) ∧ st' = ⟨leavePath st.path, st.calls ++ [.leave st.path]⟩ := by
  have hleave (hok : udmXMLLeave.leave h st = .ok st') : st' = ⟨leavePath st.path, st.calls ++ [.leave st.path]⟩ := by
    rw [udmXMLLeave.leave] at hok
    split at hok
    · rename_i st₁ hrun
      rw [← Outcome.ok.inj hok, callHandler_eq_ok hrun]
    · cases hok
    · cases hok
  cases name with
  | none => exact ⟨by rintro _ ⟨⟩, hleave hok⟩
  | some n =>
    rw [udmXMLLeave] at hok
    split_ifs at hok with hlen
    exact ⟨fun m hm => by rwa [← Option.some.inj hm], hleave hok⟩

theorem parseAttr_eq_ok {a : Attr} (hpath : st.path ≠ []) (hok : parseAttr h a st = .ok st') :
    AttrDone st.path a ∧ st' = ⟨st.path, st.calls ++ attrCalls (enterPath st.path a.name) a⟩ := by
  obtain ⟨st₂, hvalue, hleave⟩ := andThen_eq_ok hok
  obtain ⟨st₁, henter, hvalue⟩ := andThen_eq_ok hvalue
  obtain ⟨hentered, rfl⟩ := udmXMLEnter_eq_ok henter
  obtain ⟨hlen, rfl⟩ := udmXMLLeave_eq_ok hleave
  have hst₂ : st₂.path = enterPath st.path a.name ∧
      st₂.calls ++ [.leave (enterPath st.path a.name)] = st.calls ++ attrCalls (enterPath st.path a.name) a := by
    rw [attrCalls]
    cases hv : a.value with
    | none =>
      rw [hv] at hvalue
      rw [← Outcome.ok.inj hvalue]
      exact ⟨rfl, by simp⟩
    | some v =>
      rw [hv] at hvalue
      rw [callHandler_eq_ok hvalue]
      exact ⟨rfl, by simp⟩
  have hdot : 0x2E ∉ a.name := by
    rw [← length_eq_lastLength_iff, ← lastLength_append st.path, ← enterPath_ne_nil hpath, ← hst₂.1]
    exact hlen _ rfl
  refine ⟨⟨hentered, hdot⟩, ?_⟩
  rw [hst₂.1, hst₂.2, enterPath_ne_nil hpath, leavePath_append _ hdot]

theorem parseAttrs_eq_ok {attrs : List Attr} (hpath : st.path ≠ []) (hok : parseAttrs h attrs st = .ok st') :
    (∀ a ∈ attrs, AttrDone st.path a) ∧
      st' = ⟨st.path, st.calls ++ attrs.flatMap fun a => attrCalls (enterPath st.path a.name) a⟩ := by
  induction attrs generalizing st with
  | nil => exact ⟨nofun, by rw [← Outcome.ok.inj hok, List.flatMap_nil, List.append_nil]⟩
  | cons a attrs ih =>
    obtain ⟨st₁, hfirst, hrest⟩ := andThen_eq_ok hok
    obtain ⟨hdone, rfl⟩ := parseAttr_eq_ok hpath hfirst
    obtain ⟨hall, hst'⟩ := @ih ⟨st.path, st.calls ++ attrCalls (enterPath st.path a.name) a⟩ hpath hrest
    refine ⟨List.forall_mem_cons.2 ⟨hdone, hall⟩, ?_⟩
    rw [hst', List.flatMap_cons, ← List.append_assoc]

/-- **An action without an error** makes the calls of `callsOf`. -/
theorem perform_eq_ok {a : Action} (ha : a.Fine doc) (hok : perform h a st = .ok st') :
    pathAfter a st.path = some st'.path ∧ st'.calls = st.calls ++ callsOf a st.path := by
  have hvalue (beg stop : ℤ) : (udmXMLValue h beg stop st).st = ⟨st.path, st.calls ++ [.value beg stop]⟩ := by
    rw [udmXMLValue, callHandler]
    dsimp only
    split_ifs <;> rfl
  cases a with
  | text beg stop =>
    rw [perform, hvalue] at hok
    rw [← Outcome.ok.inj hok]
    exact ⟨rfl, rfl⟩
  | cdata beg stop =>
    rw [perform, hvalue] at hok
    rw [← Outcome.ok.inj hok]
    exact ⟨rfl, rfl⟩
  | enter n attrs =>
    obtain ⟨st₁, henter, hattrs⟩ := andThen_eq_ok hok
    obtain ⟨hentered, rfl⟩ := udmXMLEnter_eq_ok henter
    have hne : enterPath st.path n ≠ [] := fun hnil => ha.1 (enterPath_eq_nil hnil).2
    obtain ⟨hdone, rfl⟩ := parseAttrs_eq_ok hne hattrs
    refine ⟨?_, by rw [callsOf, List.append_assoc]; rfl⟩
    rw [pathAfter, if_pos ⟨hentered, hdone⟩]
  | close n =>
    obtain ⟨hlen, rfl⟩ := @udmXMLLeave_eq_ok h st st' (some n) hok
    exact ⟨by rw [pathAfter, if_pos (hlen n rfl)], rfl⟩
  | leave =>
    obtain ⟨-, rfl⟩ := @udmXMLLeave_eq_ok h st st' none hok
    exact ⟨rfl, rfl⟩
  | fail errstr => cases hok

theorem performAll_eq_ok {as : List Action} (has : ∀ a ∈ as, a.Fine doc) (hok : performAll h as st = .ok st') :
    ∃ cs, runCalls as st.path = some cs ∧ st'.calls = st.calls ++ cs := by
  induction as generalizing st with
  | nil => exact ⟨[], rfl, by rw [← Outcome.ok.inj hok, List.append_nil]⟩
  | cons a as ih =>
    rw [List.forall_mem_cons] at has
    obtain ⟨st₁, hfirst, hrest⟩ := andThen_eq_ok hok
    obtain ⟨hpath, hcalls⟩ := perform_eq_ok has.1 hfirst
    obtain ⟨cs, hrun, hcs⟩ := ih has.2 hrest
    refine ⟨callsOf a st.path ++ cs, by rw [runCalls, hpath, Option.bind_some, hrun]; rfl, ?_⟩
    rw [hcs, hcalls, List.append_assoc]

end Runs

/-! ### When the calls are right -/

section Right

variable {doc path : List UInt8} {as : List Action} {names : List (List UInt8)} {cs : List Call}
variable {o : Option (List Call)}

theorem map_append_eq_some_iff (a : List Call) :
    o.map (a ++ ·) = some (a ++ cs) ↔ o = some cs := by
  cases o with
  | none => exact ⟨nofun, nofun⟩
  | some bs => simp

theorem head_of_map_cons {f : List Call → List Call} {c d : Call}
    (h : o.map (fun bs => d :: f bs) = some (c :: cs)) : c = d := by
  obtain ⟨bs, -, hbs⟩ := Option.map_eq_some_iff.1 h
  exact (List.cons.inj hbs).1.symm

theorem runCalls_cons {a : Action} (hrun : runCalls (a :: as) path = some cs) :
    ∃ path' cs', pathAfter a path = some path' ∧ runCalls as path' = some cs' ∧ cs = callsOf a path ++ cs' := by
  rw [runCalls, Option.bind_eq_some_iff] at hrun
  obtain ⟨path', hpath, hmap⟩ := hrun
  obtain ⟨cs', hcs', rfl⟩ := Option.map_eq_some_iff.1 hmap
  exact ⟨path', cs', hpath, hcs', rfl⟩

theorem callsOf_enter (n : List UInt8) (attrs : List Attr) (hn : n ≠ []) (hnames : ∀ m ∈ names, m ≠ []) :
    callsOf (.enter n attrs) (joinPath names) =
      .enter (joinPath (n :: names)) :: attrs.flatMap fun a => attrCalls (joinPath (a.name :: n :: names)) a := by
  rw [callsOf, joinPath_cons n hnames]
  congr 1
  refine List.flatMap_congr fun a _ => ?_
  rw [joinPath_cons a.name (List.forall_mem_cons.2 ⟨hn, hnames⟩), joinPath_cons n hnames]

theorem nestedCalls_of_tagless (htagless : Tagless as) (hrun : runCalls as path = some cs) :
    nestedCalls as [] = some cs := by
  induction as generalizing cs with
  | nil => rw [nestedCalls, ← Option.some.inj hrun]
  | cons a as ih =>
    have hrest : Tagless as := fun b hb => htagless b (List.mem_cons_of_mem a hb)
    obtain ⟨path', cs', hpath, hcs', rfl⟩ := runCalls_cons hrun
    rcases htagless a List.mem_cons_self with ⟨beg, stop, rfl⟩ | ⟨beg, stop, rfl⟩ <;>
    · obtain rfl : path = path' := Option.some.inj hpath
      rw [nestedCalls, ih hrest hcs']
      rfl

theorem nestedFrom_of_tagless (htagless : Tagless as) : NestedFrom as [] := by
  induction as with
  | nil => rfl
  | cons a as ih =>
    have hrest : Tagless as := fun b hb => htagless b (List.mem_cons_of_mem a hb)
    rcases htagless a List.mem_cons_self with ⟨beg, stop, rfl⟩ | ⟨beg, stop, rfl⟩ <;> exact ih hrest

theorem tagless_of_nestedCalls (hnames : ∀ m ∈ names, m ≠ []) (hlong : (joinPath names).length < path.length)
    (hrun : runCalls as path = some cs) (hnested : nestedCalls as names = some cs) : names = [] ∧ Tagless as := by
  have hpath : path ≠ [] := fun hnil => absurd hlong (by rw [hnil]; exact Nat.not_lt_zero _)
  induction as generalizing cs with
  | nil =>
    cases names with
    | nil => exact ⟨rfl, by rintro _ ⟨⟩⟩
    | cons m names => cases hnested
  | cons a as ih =>
    obtain ⟨path', cs', hpath', hcs', rfl⟩ := runCalls_cons hrun
    cases a with
    | text beg stop =>
      obtain rfl : path = path' := Option.some.inj hpath'
      obtain ⟨hnil, htagless⟩ := ih hcs' ((map_append_eq_some_iff [_]).1 hnested)
      exact ⟨hnil, List.forall_mem_cons.2 ⟨Or.inl ⟨beg, stop, rfl⟩, htagless⟩⟩
    | cdata beg stop =>
      obtain rfl : path = path' := Option.some.inj hpath'
      obtain ⟨hnil, htagless⟩ := ih hcs' ((map_append_eq_some_iff [_]).1 hnested)
      exact ⟨hnil, List.forall_mem_cons.2 ⟨Or.inr ⟨beg, stop, rfl⟩, htagless⟩⟩
    | enter n attrs =>
      exfalso
      simp only [nestedCalls, callsOf, List.cons_append] at hnested
      have hlen := congrArg List.length (Call.enter.inj (head_of_map_cons hnested))
      rw [joinPath_cons n hnames, enterPath_ne_nil hpath, enterPath, List.length_append, List.length_cons] at hlen
      split_ifs at hlen
      · omega
      · rw [List.length_append, List.length_cons] at hlen
        omega
    | close n =>
      exfalso
      cases names with
      | nil => cases hnested
      | cons t names =>
        rw [nestedCalls] at hnested
        split_ifs at hnested with hname
        rw [← Call.leave.inj (head_of_map_cons hnested)] at hlong
        exact absurd hlong (Nat.lt_irrefl _)
    | leave =>
      exfalso
      cases names with
      | nil => cases hnested
      | cons t names =>
        rw [← Call.leave.inj (head_of_map_cons hnested)] at hlong
        exact absurd hlong (Nat.lt_irrefl _)
    | fail errstr => cases hpath'

/-- **With the right path** the calls are right exactly if the document is nested well. -/
theorem nestedCalls_iff (has : ∀ a ∈ as, a.Fine doc) (hnames : ∀ m ∈ names, m ≠ [])
    (hrun : runCalls as (joinPath names) = some cs) : nestedCalls as names = some cs ↔ NestedFrom as names := by
  induction as generalizing names cs with
  | nil =>
    obtain rfl : [] = cs := Option.some.inj hrun
    cases names with
    | nil => exact ⟨fun _ => rfl, fun _ => rfl⟩
    | cons m names => exact ⟨by rintro ⟨⟩, by rintro ⟨⟩⟩
  | cons a as ih =>
    rw [List.forall_mem_cons] at has
    obtain ⟨path', cs', hpath', hcs', rfl⟩ := runCalls_cons hrun
    cases a with
    | text beg stop =>
      obtain rfl : joinPath names = path' := Option.some.inj hpath'
      exact (map_append_eq_some_iff [_]).trans (ih has.2 hnames hcs')
    | cdata beg stop =>
      obtain rfl : joinPath names = path' := Option.some.inj hpath'
      exact (map_append_eq_some_iff [_]).trans (ih has.2 hnames hcs')
    | enter n attrs =>
      have hn : n ≠ [] := has.1.1
      have hall : ∀ m ∈ n :: names, m ≠ [] := List.forall_mem_cons.2 ⟨hn, hnames⟩
      rw [pathAfter] at hpath'
      split_ifs at hpath'
      rw [← Option.some.inj hpath', ← joinPath_cons n hnames] at hcs'
      rw [callsOf_enter n attrs hn hnames, nestedCalls, NestedFrom]
      exact (map_append_eq_some_iff _).trans (ih has.2 hall hcs')
    | close n =>
      cases names with
      | nil => exact ⟨by rintro ⟨⟩, by rintro ⟨⟩⟩
      | cons t names =>
        rw [nestedCalls, NestedFrom]
        by_cases hname : n = t
        · subst hname
          rw [pathAfter] at hpath'
          split_ifs at hpath' with hlen
          rw [lastLength_joinPath, length_eq_lastLength_iff] at hlen
          rw [← Option.some.inj hpath', leavePath_joinPath hlen] at hcs'
          rw [if_pos rfl]
          have hiff := ih has.2 (fun m hm => hnames m (List.mem_cons_of_mem n hm)) hcs'
          exact ((map_append_eq_some_iff [_]).trans hiff).trans ⟨fun h => ⟨rfl, h⟩, And.right⟩
        · rw [if_neg hname]
          exact ⟨by rintro ⟨⟩, fun h => absurd h.1 hname⟩
    | leave =>
      cases names with
      | nil => exact ⟨by rintro ⟨⟩, by rintro ⟨⟩⟩
      | cons t names =>
        have hnames' : ∀ m ∈ names, m ≠ [] := fun m hm => hnames m (List.mem_cons_of_mem t hm)
        rw [nestedCalls, NestedFrom]
        refine (map_append_eq_some_iff [_]).trans ?_
        obtain rfl : leavePath (joinPath (t :: names)) = path' := Option.some.inj hpath'
        by_cases hdot : 0x2E ∈ t
        · rcases @leavePath_joinPath_of_mem _ names hdot with ⟨⟨rfl, hfirst⟩, hnil⟩ | ⟨hnot, hlong⟩
          · rw [hnil, ← joinPath_nil] at hcs'
            have hiff := ih has.2 hnames' hcs'
            exact hiff.trans ⟨fun h => ⟨Or.inr ⟨rfl, Or.inl hfirst⟩, h⟩, fun h => h.2⟩
          · constructor
            · intro h
              obtain ⟨rfl, htagless⟩ := tagless_of_nestedCalls hnames' hlong hcs' h
              exact ⟨Or.inr ⟨rfl, Or.inr htagless⟩, nestedFrom_of_tagless htagless⟩
            · rintro ⟨hcut, -⟩
              obtain ⟨rfl, hfirst⟩ := hcut.resolve_left (not_not.2 hdot)
              exact nestedCalls_of_tagless (hfirst.resolve_left fun h => hnot ⟨rfl, h⟩) hcs'
        · rw [leavePath_joinPath hdot] at hcs'
          exact (ih has.2 hnames' hcs').trans ⟨fun h => ⟨Or.inl hdot, h⟩, fun h => h.2⟩
    | fail errstr => cases hpath'

/-! ### Nested calls -/

/-- The paths to the open elements. -/
def openPaths : List (List UInt8) → List (List UInt8)
  | [] => []
  | n :: names => joinPath (n :: names) :: openPaths names

theorem nested_attrCalls {stack : List (List UInt8)} (attrs : List Attr) (p : Attr → List UInt8)
    (hcs : Nested stack cs) : Nested stack ((attrs.flatMap fun a => attrCalls (p a) a) ++ cs) := by
  induction attrs with
  | nil => exact hcs
  | cons a attrs ih =>
    rw [List.flatMap_cons, attrCalls]
    cases a.value with
    | none => exact ⟨rfl, ih⟩
    | some v => exact ⟨rfl, ih⟩

theorem nested_of_nestedCalls (h : nestedCalls as names = some cs) : Nested (openPaths names) cs := by
  induction as generalizing names cs with
  | nil =>
    cases names with
    | nil =>
      rw [← Option.some.inj h]
      rfl
    | cons m names => exact nomatch h
  | cons a as ih =>
    cases a with
    | text beg stop =>
      obtain ⟨bs, hbs, rfl⟩ := Option.map_eq_some_iff.1 h
      have hrest : Nested (openPaths names) bs := ih hbs
      exact hrest
    | cdata beg stop =>
      obtain ⟨bs, hbs, rfl⟩ := Option.map_eq_some_iff.1 h
      have hrest : Nested (openPaths names) bs := ih hbs
      exact hrest
    | enter n attrs =>
      obtain ⟨bs, hbs, rfl⟩ := Option.map_eq_some_iff.1 h
      exact nested_attrCalls attrs _ (ih hbs)
    | close n =>
      cases names with
      | nil => exact nomatch h
      | cons t names =>
        rw [nestedCalls] at h
        split_ifs at h
        obtain ⟨bs, hbs, rfl⟩ := Option.map_eq_some_iff.1 h
        exact ⟨rfl, ih hbs⟩
    | leave =>
      cases names with
      | nil => exact nomatch h
      | cons t names =>
        obtain ⟨bs, hbs, rfl⟩ := Option.map_eq_some_iff.1 h
        exact ⟨rfl, ih hbs⟩
    | fail errstr => exact nomatch h

end Right

/-! ### All documents -/

/-- **The handlers see the elements of a document**, if it leads to no error, exactly where each end tag has the name of the
innermost open element, each `/`, `?` and `!` leaves an element whose name has no dot that matters, and no element stays
open. -/
theorem nestsRight_iff {h : List Call → Bool} {skip : Bool} {doc : List UInt8} {st : ParserState}
    (hok : udmXMLParser h skip doc = some (.ok st)) :
    NestsRight skip doc st.calls ↔ ∃ as, udmXMLCalls skip doc = some as ∧ NestedFrom as [] := by
  obtain ⟨as, hcalls, has⟩ := udmXMLCalls_fine skip doc
  rw [udmXMLParser, hcalls, Option.map_some, Option.some.injEq] at hok
  obtain ⟨cs, hrun, hcs⟩ := performAll_eq_ok has hok
  rw [List.nil_append] at hcs
  have hiff := nestedCalls_iff has (fun m hm => absurd hm List.not_mem_nil) hrun
  rw [NestsRight, hcs]
  constructor
  · rintro ⟨-, as', hcalls', hnested⟩
    obtain rfl : as = as' := Option.some.inj (hcalls.symm.trans hcalls')
    exact ⟨as, hcalls, hiff.1 hnested⟩
  · rintro ⟨as', hcalls', hfrom⟩
    obtain rfl : as = as' := Option.some.inj (hcalls.symm.trans hcalls')
    exact ⟨nested_of_nestedCalls (hiff.2 hfrom), as, hcalls, hiff.2 hfrom⟩

/-- `<a><b/></a>`. -/
theorem nestsRight_two :
    NestsRight false [0x3C, 0x61, 0x3E, 0x3C, 0x62, 0x2F, 0x3E, 0x3C, 0x2F, 0x61, 0x3E]
      [.enter [0x61], .enter [0x61, 0x2E, 0x62], .leave [0x61, 0x2E, 0x62], .leave [0x61]] := by
  have hok : udmXMLParser always false [0x3C, 0x61, 0x3E, 0x3C, 0x62, 0x2F, 0x3E, 0x3C, 0x2F, 0x61, 0x3E] =
      some (.ok ⟨[], [.enter [0x61], .enter [0x61, 0x2E, 0x62], .leave [0x61, 0x2E, 0x62], .leave [0x61]]⟩) := by decide
  refine (nestsRight_iff hok).2 ⟨[.enter [0x61] [], .enter [0x62] [], .leave, .close [0x61]], by decide, ?_⟩
  exact ⟨Or.inl (by decide), rfl, rfl⟩

/-- `<a></b>` leads to no error. -/
theorem not_nestsRight : ¬∀ h skip doc st, udmXMLParser h skip doc = some (.ok st) → NestsRight skip doc st.calls := by
  intro hall
  have hok : udmXMLParser always false [0x3C, 0x61, 0x3E, 0x3C, 0x2F, 0x62, 0x3E] =
      some (.ok ⟨[], [.enter [0x61], .leave [0x61]]⟩) := by decide
  obtain ⟨-, as, hcalls, hnested⟩ := hall _ _ _ _ hok
  have hcalls' : udmXMLCalls false [0x3C, 0x61, 0x3E, 0x3C, 0x2F, 0x62, 0x3E] =
      some [.enter [0x61] [], .close [0x62]] := by decide
  rw [hcalls', Option.some.injEq] at hcalls
  rw [← hcalls] at hnested
  exact absurd hnested (by decide)

end MnoGoSearch.Xml
