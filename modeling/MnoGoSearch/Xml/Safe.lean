import MnoGoSearch.Xml.Reading

/-!
# Memory that the XML parser uses

The handlers get ranges of the document, `attr` is not written beyond its end, and an element is left only if one is on the
path. `udmXMLParser_safe_iff` says for which documents.
-/

namespace MnoGoSearch.Xml

open Url

/-! ### The path -/

section Path

variable {path name : List UInt8}

theorem enterPath_ne_nil (hpath : path ≠ []) (name : List UInt8) : enterPath path name = path ++ 0x2E :: name :=
  if_neg hpath

theorem enterPath_eq_nil (h : enterPath path name = []) : path = [] ∧ name = [] := by
  rw [enterPath] at h
  split_ifs at h with hpath
  · exact ⟨hpath, h⟩
  · exact absurd h (by simp)

theorem notDot_of_not_mem (hname : 0x2E ∉ name) : ∀ c ∈ name, notDot c = true := by
  intro c hc
  rw [notDot, bne_iff_ne]
  exact fun h => hname (h ▸ hc)

theorem rdropWhile_dot (path : List UInt8) (hname : 0x2E ∉ name) :
    (path ++ 0x2E :: name).rdropWhile notDot = path ++ [0x2E] := by
  induction name using List.reverseRecOn with
  | nil => exact List.rdropWhile_concat_neg _ _ _ (by simp [notDot])
  | append_singleton name c ih =>
    have hc := notDot_of_not_mem hname c (by simp)
    rw [List.mem_append, not_or] at hname
    rw [← List.cons_append, ← List.append_assoc, List.rdropWhile_concat_pos _ _ _ hc, ih hname.1]

/-- **Leaving what was entered** gives the path as it was. -/
theorem leavePath_append (path : List UInt8) (hname : 0x2E ∉ name) : leavePath (path ++ 0x2E :: name) = path := by
  rw [leavePath, rdropWhile_dot path hname, List.dropLast_concat]

theorem leavePath_of_not_mem (hname : 0x2E ∉ name) : leavePath name = [] := by
  rw [leavePath, List.rdropWhile_eq_nil_iff.2 (notDot_of_not_mem hname), List.dropLast_nil]

theorem lastLength_append (path name : List UInt8) : lastLength (path ++ 0x2E :: name) = lastLength name := by
  rw [lastLength, lastLength]
  induction name using List.reverseRecOn with
  | nil => rw [List.rtakeWhile_concat_neg _ _ _ (by simp [notDot]), List.rtakeWhile_nil]
  | append_singleton name c ih =>
    rw [← List.cons_append, ← List.append_assoc, List.rtakeWhile_concat, List.rtakeWhile_concat]
    split_ifs
    · rw [List.length_append, List.length_append, ih]
    · rfl

theorem length_eq_lastLength_iff : name.length = lastLength name ↔ 0x2E ∉ name := by
  have happ := congrArg List.length (@List.rdropWhile_append_rtakeWhile _ notDot name)
  rw [List.length_append] at happ
  rw [lastLength]
  constructor
  · intro h hmem
    have hnil : name.rdropWhile notDot = [] := List.length_eq_zero_iff.1 (by omega)
    exact absurd (List.rdropWhile_eq_nil_iff.1 hnil _ hmem) (by simp [notDot])
  · intro h
    rw [List.rdropWhile_eq_nil_iff.2 (notDot_of_not_mem h), List.length_nil] at happ
    omega

/-! ### The handler that leaves an element -/

/-- The loop of `endElement` from a place on: where it stops; at the beginning of the path `--i` wraps around. -/
def endElementLoop (path : List UInt8) : ℕ → Option ℕ
  | 0 => none
  | 1 => some 0
  | i + 2 => if path.getD (i + 1) 0 = 0x2E then some (i + 1) else endElementLoop path (i + 1)

/-- `endElement`: how much of the path is kept. -/
def endElement (path : List UInt8) : Option ℕ := endElementLoop path path.length

theorem endElementLoop_eq {i : ℕ} (hi : i < path.length) :
    endElementLoop path (i + 1) = some (leavePath (path.take (i + 1))).length := by
  induction i with
  | zero =>
    rw [List.take_succ_eq_append_getElem hi, List.take_zero, List.nil_append, leavePath, List.rdropWhile_singleton]
    split_ifs <;> rfl
  | succ i ih =>
    rw [endElementLoop, List.take_succ_eq_append_getElem hi, leavePath, List.rdropWhile_concat,
      List.getD_eq_getElem _ _ hi, notDot]
    split_ifs with hdot hne hne
    · exact absurd hdot (bne_iff_ne.1 hne)
    · rw [List.dropLast_concat, List.length_take, Nat.min_eq_left hi.le]
    · rw [ih (Nat.lt_of_succ_lt hi), leavePath]
    · exact absurd (bne_iff_ne.2 hdot) hne

/-- **The handler keeps what the parser keeps**, if there is something on the path. -/
theorem endElement_eq (hpath : path ≠ []) : endElement path = some (leavePath path).length := by
  have hlen := List.length_pos_iff.2 hpath
  have hloop := @endElementLoop_eq path (path.length - 1) (by omega)
  rwa [Nat.sub_add_cancel hlen, List.take_length] at hloop

theorem endElement_isSome_iff : (endElement path).isSome = true ↔ path ≠ [] := by
  constructor
  · rintro h rfl
    exact nomatch h
  · intro h
    rw [endElement_eq h]
    rfl

end Path

/-! ### When the parser is safe -/

/-- A call with arguments that a handler may get: a range of the document, and a path in `attr`. When an element is left,
there is one on the path, and `endElement` stays on the path. -/
def Call.Fine (doc : List UInt8) : Call → Prop
  | .enter path => path.length < attrSize
  | .value beg stop => 0 ≤ beg ∧ beg ≤ stop ∧ stop ≤ doc.length
  | .leave path => path ≠ [] ∧ (endElement path).isSome = true

/-- All calls are fine, nothing was written behind `attr`, and without an error a condition holds. -/
def Outcome.Safe (doc : List UInt8) (Q : ParserState → Prop) : Outcome → Prop
  | .ok st => (∀ c ∈ st.calls, c.Fine doc) ∧ Q st
  | .error _ st => ∀ c ∈ st.calls, c.Fine doc
  | .overrun _ => False

/-- **The parser is safe** on a document: it ends, and makes no other calls, whatever the handlers do. -/
def Safe (skip : Bool) (doc : List UInt8) : Prop :=
  ∀ h, ∃ o, udmXMLParser h skip doc = some o ∧ o.Safe doc fun _ => True

/-- A name that is entered is not the one for which the dot is the byte too many. -/
def Fits (path name : List UInt8) : Prop := path = [] ∨ path.length + name.length + 1 ≠ attrSize

/-- `UdmXMLEnter` has no error. -/
def Entered (path name : List UInt8) : Prop := path.length + name.length + 1 ≤ attrSize

instance (path name : List UInt8) : Decidable (Entered path name) := inferInstanceAs (Decidable (_ ≤ _))

/-- An attribute that is entered and left. -/
def AttrDone (path : List UInt8) (a : Attr) : Prop := Entered path a.name ∧ 0x2E ∉ a.name

instance (path : List UInt8) (a : Attr) : Decidable (AttrDone path a) := inferInstanceAs (Decidable (_ ∧ _))

/-- Every attribute fits, up to the first one with an error. -/
def AttrsFit (path : List UInt8) : List Attr → Prop
  | [] => True
  | a :: as => Fits path a.name ∧ (AttrDone path a → AttrsFit path as)

/-- The path behind an action; nothing after an error. -/
def pathAfter : Action → List UInt8 → Option (List UInt8)
  | .text _ _, path | .cdata _ _, path => some path
  | .enter name attrs, path =>
    if Entered path name ∧ ∀ a ∈ attrs, AttrDone (enterPath path name) a then some (enterPath path name) else none
  | .close name, path => if name.length = lastLength path then some (leavePath path) else none
  | .leave, path => some (leavePath path)
  | .fail _, _ => none

/-- **A step that is safe**: a section has an end, a name fits, and `/`, `?` or `!` leaves an element that is there. -/
def StepFine (doc : List UInt8) : Action → List UInt8 → Prop
  | .cdata beg _, _ => [0x5D, 0x5D, 0x3E] <:+: doc.drop (beg + 9)
  | .enter name attrs, path => Fits path name ∧ (Entered path name → AttrsFit (enterPath path name) attrs)
  | .leave, path => path ≠ []
  | .text _ _, _ | .close _, _ | .fail _, _ => True

/-- Every step is safe, up to an error. -/
def StepsFine (doc : List UInt8) : List Action → List UInt8 → Prop
  | [], _ => True
  | a :: as, path => StepFine doc a path ∧ ∀ path' ∈ pathAfter a path, StepsFine doc as path'

/-! ### One call -/

section Calls

variable {h : List Call → Bool} {doc name : List UInt8} {st : ParserState} {Q R : ParserState → Prop}

theorem Outcome.Safe.andThen {o : Outcome} {f : ParserState → Outcome} (ho : o.Safe doc Q)
    (hf : ∀ st, (∀ c ∈ st.calls, c.Fine doc) → Q st → (f st).Safe doc R) : (o.andThen f).Safe doc R := by
  cases o with
  | ok st => exact hf st ho.1 ho.2
  | error errstr st => exact ho
  | overrun st => exact ho

theorem Outcome.Safe.mono {o : Outcome} (ho : o.Safe doc Q) (hQR : ∀ st, Q st → R st) : o.Safe doc R := by
  cases o with
  | ok st => exact ⟨ho.1, hQR st ho.2⟩
  | error errstr st => exact ho
  | overrun st => exact ho

theorem fine_append {c : Call} (hst : ∀ c ∈ st.calls, c.Fine doc) (hc : c.Fine doc) :
    ∀ c' ∈ st.calls ++ [c], c'.Fine doc := by
  intro c' hc'
  rcases List.mem_append.1 hc' with hc' | hc'
  · exact hst c' hc'
  · rwa [List.mem_singleton.1 hc']

theorem callHandler_safe {c : Call} (hst : ∀ c ∈ st.calls, c.Fine doc) (hc : c.Fine doc) :
    (callHandler h c st).Safe doc fun st' => st'.path = st.path := by
  rw [callHandler]
  split_ifs
  · exact ⟨fine_append hst hc, rfl⟩
  · exact fine_append hst hc

theorem length_enterPath_lt {path : List UInt8} (hfit : Fits path name) (henter : Entered path name) :
    (enterPath path name).length < attrSize := by
  rw [Entered] at henter
  rw [enterPath]
  split_ifs with hpath
  · omega
  · have hne := hfit.resolve_left hpath
    rw [List.length_append, List.length_cons]
    omega

theorem udmXMLEnter_safe (hst : ∀ c ∈ st.calls, c.Fine doc) (hfit : Fits st.path name) :
    (udmXMLEnter h name st).Safe doc fun st' => st'.path = enterPath st.path name ∧ Entered st.path name := by
  rw [udmXMLEnter]
  split_ifs with hdeep hroom
  · exact hst
  · exact absurd (length_enterPath_lt hfit (Nat.not_lt.1 hdeep)) (Nat.not_lt.2 hroom)
  · exact (@callHandler_safe h doc { st with path := enterPath st.path name } (.enter (enterPath st.path name))
      hst (length_enterPath_lt hfit (Nat.not_lt.1 hdeep))).mono fun st' hst' => ⟨hst', Nat.not_lt.1 hdeep⟩

theorem udmXMLLeave_safe {name : Option (List UInt8)} (hst : ∀ c ∈ st.calls, c.Fine doc)
    (hpath : st.path = [] → ∃ n ≠ [], name = some n) :
    (udmXMLLeave h name st).Safe doc fun st' =>
      st'.path = leavePath st.path ∧ ∀ n ∈ name, n.length = lastLength st.path := by
  have hleave (hne : st.path ≠ []) :
      (udmXMLLeave.leave h st).Safe doc fun st' => st'.path = leavePath st.path := by
    have hcall := callHandler_safe (h := h) hst (show (Call.leave st.path).Fine doc from ⟨hne, endElement_isSome_iff.2 hne⟩)
    rw [udmXMLLeave.leave]
    split <;> rename_i hrun <;> rw [hrun] at hcall
    · exact ⟨hcall.1, rfl⟩
    · exact hcall
    · exact hcall
  cases name with
  | none =>
    refine (hleave fun hnil => ?_).mono fun st' hst' => ⟨hst', nofun⟩
    obtain ⟨n, -, hn⟩ := hpath hnil
    exact nomatch hn
  | some n =>
    rw [udmXMLLeave]
    split_ifs with hlen
    · refine (hleave fun hnil => ?_).mono fun st' hst' => ⟨hst', fun m hm => by rwa [← Option.some.inj hm]⟩
      obtain ⟨m, hm, heq⟩ := hpath hnil
      rw [hnil] at hlen
      rw [← Option.some.inj heq] at hm
      exact hm (List.length_eq_zero_iff.1 hlen)
    · exact hst

/-! ### One action -/

theorem parseAttr_safe {a : Attr} (hst : ∀ c ∈ st.calls, c.Fine doc) (hpath : st.path ≠ []) (hfit : Fits st.path a.name)
    (hvalue : ∀ v ∈ a.value, v.1 ≤ v.2 ∧ v.2 ≤ doc.length) :
    (parseAttr h a st).Safe doc fun st' => st'.path = st.path ∧ AttrDone st.path a := by
  rw [parseAttr]
  refine @Outcome.Safe.andThen doc (fun st' => st'.path = enterPath st.path a.name ∧ Entered st.path a.name) _ _ _ ?_
    fun st' hst' hdone => ?_
  · refine (udmXMLEnter_safe hst hfit).andThen fun st' hst' hpath' => ?_
    cases hv : a.value with
    | none => exact ⟨hst', hpath'⟩
    | some v =>
      obtain ⟨hle, hdoc⟩ := hvalue v hv
      have hc : (Call.value v.1 v.2).Fine doc := ⟨Int.natCast_nonneg _, by omega, by omega⟩
      refine (callHandler_safe hst' hc).mono fun st'' hst'' => ?_
      rw [hst'']
      exact hpath'
  obtain ⟨hpath', hentered⟩ := hdone
  rw [enterPath_ne_nil hpath] at hpath'
  refine (udmXMLLeave_safe hst' fun hnil => absurd (hpath'.symm.trans hnil) (by simp)).mono fun st'' hst'' => ?_
  rw [hpath'] at hst''
  have hdot : 0x2E ∉ a.name := by
    rw [← length_eq_lastLength_iff, ← lastLength_append st.path]
    exact hst''.2 _ rfl
  exact ⟨hst''.1.trans (leavePath_append _ hdot), hentered, hdot⟩

theorem parseAttrs_safe {attrs : List Attr} (hst : ∀ c ∈ st.calls, c.Fine doc) (hpath : st.path ≠ [])
    (hfit : AttrsFit st.path attrs) (hvalue : ∀ a ∈ attrs, ∀ v ∈ a.value, v.1 ≤ v.2 ∧ v.2 ≤ doc.length) :
    (parseAttrs h attrs st).Safe doc fun st' => st'.path = st.path ∧ ∀ a ∈ attrs, AttrDone st.path a := by
  induction attrs generalizing st with
  | nil => exact ⟨hst, rfl, nofun⟩
  | cons a attrs ih =>
    refine (parseAttr_safe hst hpath hfit.1 (hvalue a List.mem_cons_self)).andThen fun st' hst' ⟨hpath', hdone⟩ => ?_
    have hsafe := ih hst' (by rwa [hpath']) (by rw [hpath']; exact hfit.2 hdone) fun b hb =>
      hvalue b (List.mem_cons_of_mem a hb)
    rw [hpath'] at hsafe
    exact hsafe.mono fun st'' hst'' => ⟨hst''.1, List.forall_mem_cons.2 ⟨hdone, hst''.2⟩⟩

theorem perform_value_safe {beg stop : ℤ} (hst : ∀ c ∈ st.calls, c.Fine doc) (hc : (Call.value beg stop).Fine doc) :
    (Outcome.ok (udmXMLValue h beg stop st).st).Safe doc fun st' => st'.path = st.path := by
  rw [udmXMLValue, callHandler]
  dsimp only
  split_ifs <;> exact ⟨fine_append hst hc, rfl⟩

/-- **An action that is safe** is done without harm. -/
theorem perform_safe {a : Action} (ha : a.Fine doc) (hst : ∀ c ∈ st.calls, c.Fine doc)
    (hstep : StepFine doc a st.path) : (perform h a st).Safe doc fun st' => pathAfter a st.path = some st'.path := by
  cases a with
  | text beg stop =>
    exact (perform_value_safe hst ⟨Int.natCast_nonneg _, Int.ofNat_le.2 ha.1, Int.ofNat_le.2 ha.2⟩).mono
      fun st' hst' => congrArg some hst'.symm
  | cdata beg stop =>
    obtain ⟨hdoc, hend⟩ := ha
    rw [if_pos (show [0x5D, 0x5D, 0x3E] <:+: doc.drop (beg + 9) from hstep)] at hend
    have hc : (Call.value (beg + 9) (stop - 3)).Fine doc := ⟨by omega, by omega, by omega⟩
    exact (perform_value_safe hst hc).mono fun st' hst' => congrArg some hst'.symm
  | enter name attrs =>
    refine (udmXMLEnter_safe hst hstep.1).andThen fun st' hst' ⟨hpath, hentered⟩ => ?_
    have hne : st'.path ≠ [] := by
      rw [hpath]
      exact fun hnil => ha.1 (enterPath_eq_nil hnil).2
    refine (parseAttrs_safe hst' hne (by rw [hpath]; exact hstep.2 hentered) ha.2).mono fun st'' hst'' => ?_
    rw [hpath] at hst''
    rw [pathAfter, if_pos ⟨hentered, hst''.2⟩, hst''.1]
  | close name =>
    refine (udmXMLLeave_safe hst fun _ => ⟨name, ha, rfl⟩).mono fun st' hst' => ?_
    rw [pathAfter, if_pos (hst'.2 _ rfl), hst'.1]
  | leave =>
    exact (@udmXMLLeave_safe h doc st none hst fun hnil => absurd hnil hstep).mono
      fun st' hst' => congrArg some hst'.1.symm
  | fail errstr => exact hst

theorem performAll_safe {as : List Action} (has : ∀ a ∈ as, a.Fine doc) (hst : ∀ c ∈ st.calls, c.Fine doc)
    (hsteps : StepsFine doc as st.path) : (performAll h as st).Safe doc fun _ => True := by
  induction as generalizing st with
  | nil => exact ⟨hst, trivial⟩
  | cons a as ih =>
    rw [List.forall_mem_cons] at has
    exact (perform_safe has.1 hst hsteps.1).andThen fun st' hst' hpath => ih has.2 hst' (hsteps.2 _ hpath)

end Calls

/-! ### Calls stay made -/

section Extends

variable {h : List Call → Bool} {st : ParserState}

/-- What was called before has still been called. -/
def Outcome.Extends (st : ParserState) (o : Outcome) : Prop := st.calls <+: o.st.calls

theorem Outcome.Extends.andThen {o : Outcome} {f : ParserState → Outcome} (ho : o.Extends st)
    (hf : ∀ st', (f st').Extends st') : (o.andThen f).Extends st := by
  cases o with
  | ok st' => exact List.IsPrefix.trans ho (hf st')
  | error errstr st' => exact ho
  | overrun st' => exact ho

theorem callHandler_extends (c : Call) : (callHandler h c st).Extends st := by
  rw [callHandler]
  dsimp only
  split_ifs <;> exact List.prefix_append _ _

theorem udmXMLEnter_extends (name : List UInt8) (st : ParserState) : (udmXMLEnter h name st).Extends st := by
  rw [udmXMLEnter]
  split_ifs
  · exact List.prefix_rfl
  · exact List.prefix_rfl
  · exact @callHandler_extends h { st with path := enterPath st.path name } _

theorem udmXMLLeave_extends (name : Option (List UInt8)) (st : ParserState) : (udmXMLLeave h name st).Extends st := by
  have hleave : (udmXMLLeave.leave h st).Extends st := by
    have hcall := @callHandler_extends h st (.leave st.path)
    rw [udmXMLLeave.leave]
    split <;> rename_i hrun <;> rw [hrun] at hcall <;> exact hcall
  cases name with
  | none => exact hleave
  | some n =>
    rw [udmXMLLeave]
    split_ifs
    · exact hleave
    · exact List.prefix_rfl

theorem parseAttrs_extends (attrs : List Attr) (st : ParserState) : (parseAttrs h attrs st).Extends st := by
  induction attrs generalizing st with
  | nil => exact List.prefix_rfl
  | cons a attrs ih =>
    refine Outcome.Extends.andThen (Outcome.Extends.andThen (Outcome.Extends.andThen (udmXMLEnter_extends a.name st)
      fun st' => ?_) fun st' => udmXMLLeave_extends (some a.name) st') fun st' => ih st'
    cases a.value with
    | none => exact List.prefix_rfl
    | some v => exact callHandler_extends _

theorem perform_extends (a : Action) (st : ParserState) : (perform h a st).Extends st := by
  cases a with
  | text beg stop => exact @callHandler_extends h st (.value beg stop)
  | cdata beg stop => exact @callHandler_extends h st (.value (beg + 9) (stop - 3))
  | enter name attrs => exact (udmXMLEnter_extends name st).andThen (parseAttrs_extends attrs)
  | close name => exact udmXMLLeave_extends (some name) st
  | leave => exact udmXMLLeave_extends none st
  | fail errstr => exact List.prefix_rfl

theorem performAll_extends (as : List Action) (st : ParserState) : (performAll h as st).Extends st := by
  induction as generalizing st with
  | nil => exact List.prefix_rfl
  | cons a as ih => exact (perform_extends a st).andThen ih

theorem Outcome.Safe.of_extends {doc : List UInt8} {o : Outcome} {Q : ParserState → Prop} (ho : o.Safe doc Q)
    (hext : o.Extends st) : ∀ c ∈ st.calls, c.Fine doc := by
  intro c hc
  have hmem : c ∈ o.st.calls := hext.subset hc
  cases o with
  | ok st' => exact ho.1 c hmem
  | error errstr st' => exact ho c hmem
  | overrun st' => exact ho.elim

end Extends

/-! ### Handlers without errors -/

section Always

variable {doc name : List UInt8} {st : ParserState} {Q : ParserState → Prop} {a : Action}

/-- Handlers that always return `UDM_XML_OK`. -/
def always : List Call → Bool := fun _ => true

theorem udmXMLEnter_overrun (hfit : ¬Fits st.path name) : ∃ st', udmXMLEnter always name st = .overrun st' := by
  rw [Fits, not_or, not_not] at hfit
  obtain ⟨hpath, hlen⟩ := hfit
  refine ⟨st, ?_⟩
  have hroom : attrSize ≤ (enterPath st.path name).length := by
    rw [enterPath_ne_nil hpath, List.length_append, List.length_cons]
    omega
  rw [udmXMLEnter, if_neg (by omega), if_pos hroom]

theorem udmXMLEnter_ok (hfit : Fits st.path name) (henter : Entered st.path name) :
    udmXMLEnter always name st = .ok ⟨enterPath st.path name, st.calls ++ [.enter (enterPath st.path name)]⟩ := by
  rw [udmXMLEnter, if_neg (Nat.not_lt.2 henter), if_neg (Nat.not_le.2 (length_enterPath_lt hfit henter))]
  rfl

theorem udmXMLLeave_ok {name : Option (List UInt8)} (hname : ∀ n ∈ name, n.length = lastLength st.path) :
    udmXMLLeave always name st = .ok ⟨leavePath st.path, st.calls ++ [.leave st.path]⟩ := by
  cases name with
  | none => rfl
  | some n =>
    rw [udmXMLLeave, if_pos (hname n rfl)]
    rfl

theorem parseAttr_ok {a : Attr} (hpath : st.path ≠ []) (hfit : Fits st.path a.name) (hdone : AttrDone st.path a) :
    ∃ st', parseAttr always a st = .ok st' ∧ st'.path = st.path := by
  have hlast : ∀ n ∈ some a.name, n.length = lastLength (enterPath st.path a.name) := by
    rintro n hn
    obtain rfl : a.name = n := Option.some.inj hn
    rw [enterPath_ne_nil hpath, lastLength_append]
    exact length_eq_lastLength_iff.2 hdone.2
  have hleave : leavePath (enterPath st.path a.name) = st.path := by
    rw [enterPath_ne_nil hpath]
    exact leavePath_append _ hdone.2
  have hok (calls : List Call) : udmXMLLeave always (some a.name) ⟨enterPath st.path a.name, calls⟩ =
      .ok ⟨st.path, calls ++ [.leave (enterPath st.path a.name)]⟩ := by
    rw [@udmXMLLeave_ok ⟨enterPath st.path a.name, calls⟩ _ hlast, hleave]
  rw [parseAttr, udmXMLEnter_ok hfit hdone.1, Outcome.andThen]
  cases a.value with
  | none => exact ⟨_, hok _, rfl⟩
  | some v => exact ⟨_, hok _, rfl⟩

theorem parseAttrs_ok {attrs : List Attr} (hpath : st.path ≠ []) (hfit : AttrsFit st.path attrs)
    (hdone : ∀ a ∈ attrs, AttrDone st.path a) : ∃ st', parseAttrs always attrs st = .ok st' ∧ st'.path = st.path := by
  induction attrs generalizing st with
  | nil => exact ⟨st, rfl, rfl⟩
  | cons a attrs ih =>
    rw [List.forall_mem_cons] at hdone
    obtain ⟨st', hrun, hpath'⟩ := parseAttr_ok hpath hfit.1 hdone.1
    obtain ⟨st'', hrun', hpath''⟩ := @ih st' (by rwa [hpath']) (by rw [hpath']; exact hfit.2 hdone.1)
      (by rw [hpath']; exact hdone.2)
    exact ⟨st'', by rw [parseAttrs, hrun]; exact hrun', hpath''.trans hpath'⟩

theorem parseAttrs_overrun {attrs : List Attr} (hpath : st.path ≠ []) (hfit : ¬AttrsFit st.path attrs) :
    ∃ st', parseAttrs always attrs st = .overrun st' := by
  induction attrs generalizing st with
  | nil => exact absurd trivial hfit
  | cons a attrs ih =>
    rw [AttrsFit, not_and, Classical.not_imp] at hfit
    by_cases hfirst : Fits st.path a.name
    · obtain ⟨hdone, hrest⟩ := hfit hfirst
      obtain ⟨st', hrun, hpath'⟩ := parseAttr_ok hpath hfirst hdone
      obtain ⟨st'', hrun'⟩ := @ih st' (by rwa [hpath']) (by rwa [hpath'])
      exact ⟨st'', by rw [parseAttrs, hrun]; exact hrun'⟩
    · obtain ⟨st', hrun⟩ := udmXMLEnter_overrun hfirst
      exact ⟨st', by rw [parseAttrs, parseAttr, hrun]; rfl⟩

theorem perform_ok {path' : List UInt8} (ha : a.Fine doc) (hstep : StepFine doc a st.path)
    (hafter : pathAfter a st.path = some path') : ∃ st', perform always a st = .ok st' ∧ st'.path = path' := by
  cases a with
  | text beg stop => exact ⟨_, rfl, Option.some.inj hafter⟩
  | cdata beg stop => exact ⟨_, rfl, Option.some.inj hafter⟩
  | enter name attrs =>
    rw [pathAfter] at hafter
    split_ifs at hafter with hdone
    have hne : enterPath st.path name ≠ [] := fun hnil => ha.1 (enterPath_eq_nil hnil).2
    obtain ⟨st', hrun, hpath⟩ := @parseAttrs_ok ⟨enterPath st.path name, st.calls ++ [.enter (enterPath st.path name)]⟩
      attrs hne (hstep.2 hdone.1) hdone.2
    exact ⟨st', by rw [perform, udmXMLEnter_ok hstep.1 hdone.1]; exact hrun, hpath.trans (Option.some.inj hafter)⟩
  | close name =>
    rw [pathAfter] at hafter
    split_ifs at hafter with hlen
    have hname : ∀ n ∈ some name, n.length = lastLength st.path := fun n hn => by rwa [← Option.some.inj hn]
    exact ⟨_, udmXMLLeave_ok hname, Option.some.inj hafter⟩
  | leave => exact ⟨_, rfl, Option.some.inj hafter⟩
  | fail errstr => exact nomatch hafter

/-- **An action that is not safe** does harm. -/
theorem not_safe_perform (ha : a.Fine doc) (hstep : ¬StepFine doc a st.path) : ¬(perform always a st).Safe doc Q := by
  cases a with
  | text beg stop => exact absurd trivial hstep
  | cdata beg stop =>
    obtain ⟨-, hend⟩ := ha
    rw [if_neg (show ¬[0x5D, 0x5D, 0x3E] <:+: doc.drop (beg + 9) from hstep)] at hend
    intro hsafe
    obtain ⟨-, hle, -⟩ := hsafe.1 (.value (beg + 9) (stop - 3)) (List.mem_append_right _ (List.mem_singleton.2 rfl))
    omega
  | enter name attrs =>
    intro hsafe
    rw [StepFine, not_and, Classical.not_imp] at hstep
    rw [perform] at hsafe
    by_cases hfit : Fits st.path name
    · obtain ⟨hentered, hattrs⟩ := hstep hfit
      have hne : enterPath st.path name ≠ [] := fun hnil => ha.1 (enterPath_eq_nil hnil).2
      obtain ⟨st', hrun⟩ := @parseAttrs_overrun
        ⟨enterPath st.path name, st.calls ++ [.enter (enterPath st.path name)]⟩ attrs hne hattrs
      rw [udmXMLEnter_ok hfit hentered, Outcome.andThen, hrun] at hsafe
      exact hsafe
    · obtain ⟨st', hrun⟩ := udmXMLEnter_overrun hfit
      rw [hrun] at hsafe
      exact hsafe
  | close name => exact absurd trivial hstep
  | leave =>
    intro hsafe
    exact hstep (hsafe.1 (.leave st.path) (List.mem_append_right _ (List.mem_singleton.2 rfl))).1
  | fail errstr => exact absurd trivial hstep

theorem stepsFine_of_safe {as : List Action} (has : ∀ a ∈ as, a.Fine doc)
    (hsafe : (performAll always as st).Safe doc Q) : StepsFine doc as st.path := by
  induction as generalizing st with
  | nil => trivial
  | cons a as ih =>
    rw [List.forall_mem_cons] at has
    rw [performAll] at hsafe
    have hstep : StepFine doc a st.path := by
      by_contra hstep
      refine not_safe_perform (Q := fun _ => True) has.1 hstep ?_
      cases hrun : perform always a st with
      | ok st' =>
        rw [hrun] at hsafe
        exact ⟨hsafe.of_extends (performAll_extends as st'), trivial⟩
      | error errstr st' =>
        rw [hrun] at hsafe
        exact hsafe
      | overrun st' =>
        rw [hrun] at hsafe
        exact hsafe
    refine ⟨hstep, fun path' hpath' => ?_⟩
    obtain ⟨st', hrun, rfl⟩ := perform_ok has.1 hstep hpath'
    rw [hrun] at hsafe
    exact ih has.2 hsafe

end Always

/-! ### All documents -/

/-- **The parser is safe exactly where every step is**: each section has its end, no name together with its dot is one byte
too long for `attr`, and `/`, `?` and `!` leave an element only where one is on the path. -/
theorem udmXMLParser_safe_iff (skip : Bool) (doc : List UInt8) :
    Safe skip doc ↔ ∃ as, udmXMLCalls skip doc = some as ∧ StepsFine doc as [] := by
  obtain ⟨as, hcalls, has⟩ := udmXMLCalls_fine skip doc
  constructor
  · intro hsafe
    obtain ⟨o, hrun, ho⟩ := hsafe always
    rw [udmXMLParser, hcalls, Option.map_some, Option.some.injEq] at hrun
    rw [← hrun] at ho
    exact ⟨as, hcalls, stepsFine_of_safe has ho⟩
  · rintro ⟨as', hcalls', hsteps⟩ h
    obtain rfl : as = as' := Option.some.inj (hcalls.symm.trans hcalls')
    exact ⟨_, by rw [udmXMLParser, hcalls]; rfl, performAll_safe has (fun c hc => absurd hc List.not_mem_nil) hsteps⟩

/-- The section in `<![CDATA[x` has no end. -/
theorem udmXMLParser_not_safe : ¬∀ skip doc, Safe skip doc := by
  intro h
  obtain ⟨o, hrun, ho⟩ := h false [0x3C, 0x21, 0x5B, 0x43, 0x44, 0x41, 0x54, 0x41, 0x5B, 0x78] always
  have hcall : udmXMLParser always false [0x3C, 0x21, 0x5B, 0x43, 0x44, 0x41, 0x54, 0x41, 0x5B, 0x78] =
      some (.ok ⟨[], [.value 9 (-3)]⟩) := by decide
  rw [hcall, Option.some.injEq] at hrun
  rw [← hrun] at ho
  obtain ⟨-, hle, -⟩ := ho.1 _ (List.mem_singleton.2 rfl)
  exact absurd hle (by decide)

end MnoGoSearch.Xml
