import MnoGoSearch.Http.Response
import MnoGoSearch.Template.Meaning
import MnoGoSearch.Template.Text
import MnoGoSearch.Url.Idempotent

/-!
# Loops over a range

`<!FOR Name="i" From="1" To="3">`: the compiler sets the variable in front of the body, and behind it increments the
variable and goes back as long as the variable does not exceed the last value. `forRight_iff` says for which ranges the
body is executed exactly once for each value.
-/

namespace MnoGoSearch.Template

open Url Vars Words Http
open Lib.Machine
open MnoGoSearch.Lib (Buffer)
open MnoGoSearch.Lib.Sorting

variable {ρ : Type} {s : List UInt8}

/-! ### Variables -/

/-- The variables, and what else a template works on. -/
structure LoopState (ρ : Type) where
  vars : UdmVarList
  inOrder : InOrder vars.vars
  rest : ρ

/-- The value of a variable. -/
def LoopState.value (s : LoopState ρ) (name : CString) : Option CString :=
  (udmVarListFind s.vars name).bind fun v => v.1.val

/-- `UdmVarListReplaceStr`. -/
def LoopState.replaceStr (udmSort : QSort VarLE) (s : LoopState ρ) (name val : CString) : LoopState ρ where
  vars := udmVarListReplaceStr udmSort s.vars name (some val)
  inOrder := inOrder_udmVarListReplaceStr udmSort s.inOrder name (some val)
  rest := s.rest

/-- `UdmVarListAddStr`. -/
def LoopState.addStr (udmSort : QSort VarLE) (s : LoopState ρ) (name val : CString) : LoopState ρ where
  vars := udmVarListAddStr udmSort s.vars name (some val)
  inOrder := inOrder_udmVarListAddStr udmSort s.inOrder name (some val)
  rest := s.rest

/-- What templates are executed with. Numbers are compared as the machine's floating point numbers, which have every
`int`. -/
structure LoopAgent (ρ : Type) where
  udmSort : QSort VarLE
  /-- `A->doccount`. -/
  doccount : LoopState ρ → ℕ
  /-- The documents are counted, and `ndocs` is set. -/
  countDocs : LoopState ρ → LoopState ρ
  convDup : List UInt8 → List UInt8
  hlBeg : List UInt8
  hlEnd : List UInt8
  malloc : (size : ℕ) → { bytes : List UInt8 // bytes.length = size }
  Float : Type
  atof : List UInt8 → Float
  /-- `<=`. -/
  le : Float → Float → Bool
  /-- `<`. -/
  lt : Float → Float → Bool
  /-- A number is compared with an `int` as it is. -/
  lt_decText : ∀ m n : ℤ, -0x80000000 ≤ n → n < 0x80000000 → lt (atof (decText m)) (atof (decText n)) = decide (m < n)
  exec : Exec → PrgItem → LoopState ρ → LoopState ρ

/-- What texts are printed with. -/
def LoopAgent.agent (A : LoopAgent ρ) : Agent (LoopState ρ) where
  varListFind s name :=
    (udmVarListFind s.vars (CString.take name)).map fun v => ⟨v.1.sec, v.1.val.map Subtype.val⟩
  doccount := A.doccount
  countDocs := A.countDocs
  convDup := A.convDup
  hlBeg := A.hlBeg
  hlEnd := A.hlEnd

/-- An argument is printed into memory of some size. -/
def LoopAgent.print (A : LoopAgent ρ) (size : ℕ) (arg : List UInt8) (s : LoopState ρ) : List UInt8 × LoopState ρ :=
  let r := printTextTemplate A.agent false ⟨(A.malloc size).val, false⟩ 0 size s arg
  (r.buf.str, r.vars)

/-- `TemplateSetOrPut`. -/
def templateSetOrPut (A : LoopAgent ρ) (it : PrgItem) (s : LoopState ρ) : LoopState ρ :=
  let arg1 := it.arg1.getD []
  let (vurl, s) := A.print (256 + 4 * arg1.length) arg1 s
  let name := CString.take (it.arg0.getD [])
  if it.cmdnum = .tmplSet then s.replaceStr A.udmSort name (CString.take vurl)
  else s.addStr A.udmSort name (CString.take vurl)

/-- `TemplateIncOrDec`. -/
def templateIncOrDec (A : LoopAgent ρ) (it : PrgItem) (s : LoopState ρ) : LoopState ρ :=
  let name := CString.take (it.arg0.getD [])
  let val := udmVarListFindInt s.vars name 0
  let val := if it.cmdnum = .tmplInc then val + 1 else if it.cmdnum = .tmplDec then val - 1 else val
  s.replaceStr A.udmSort name (CString.take (decText (val.bmod 0x100000000)))

/-- The commands on variables. -/
def LoopAgent.host (A : LoopAgent ρ) : Host (LoopState ρ) where
  varListFindStr s name := udmRemoveHiLightDup (((s.value (CString.take name)).map Subtype.val).getD [])
  printTextTemplate s size arg := A.print size arg s
  Float := A.Float
  atof := A.atof
  le := A.le
  lt := A.lt
  exec e it s :=
    match e with
    | .setOrPut => templateSetOrPut A it s
    | .incOrDec => templateIncOrDec A it s
    | e => A.exec e it s

/-! ### What is wanted -/

/-- `<!FOR>` with its range: the attributes are there, and the bounds are numbers. -/
structure ForTag where
  tag : HtmlTok
  name : List UInt8
  /-- `From`. -/
  first : ℤ
  /-- `To`. -/
  last : ℤ
  name_eq : udmHTMLTokAttrDup tag "Name" (some []) = some name
  first_eq : (udmHTMLTokAttrDup tag "Content" none).or (udmHTMLTokAttrDup tag "From" (some [])) = some (decText first)
  last_eq : (udmHTMLTokAttrDup tag "Result" none).or (udmHTMLTokAttrDup tag "To" (some [])) = some (decText last)

/-- The command that sets the variable. -/
def ForTag.command (t : ForTag) : Command := forCommand t.tag

/-- The loop variable. -/
def ForTag.var (t : ForTag) : CString := CString.take t.name

/-- Some integers, one after another. -/
def integersFrom (v : ℤ) (n : ℕ) : List ℤ := (List.range n).map fun (k : ℕ) => v + (k : ℤ)

/-- The values of the range. -/
def ForTag.values (t : ForTag) : List ℤ := integersFrom t.first (t.last + 1 - t.first).toNat

section

variable (A : LoopAgent ρ) (t : ForTag) (body : Block)

/-- The body is executed once for each of some values of the variable, which is incremented behind it, without an
overflow. -/
inductive ForRun : List ℤ → LoopState ρ → List (Event (LoopState ρ)) → LoopState ρ → Prop
  /-- There is no value any more. -/
  | nil (s : LoopState ρ) : ForRun [] s [] s
  /-- The body for a value, and for the next ones. -/
  | cons {v m : ℤ} {vs : List ℤ} {n : ℕ} {s s1 s' : LoopState ρ} {T T' : List (Event (LoopState ρ))}
      (value : s.value t.var = some (CString.take (decText v)))
      (ends : body.eval A.host n s = (T, some s1))
      (isInt : (s1.value t.var).bind (fun val => atoi val.val) = some m) (fits : m + 1 < 0x80000000)
      (rest : ForRun vs (t.command.exceeds.run A.host (t.command.inc.run A.host s1)).1 T' s') :
      ForRun (v :: vs) s
        (T ++ [(t.command.inc.item, s1), (t.command.exceeds.item, t.command.inc.run A.host s1)] ++ T') s'

/-- The body does not assign the loop variable. -/
def Keeps : Prop :=
  ∀ n s T s', body.eval A.host n s = (T, some s') → s'.value t.var = s.value t.var

/-- The body ends each time it is executed. -/
def Ends (s : LoopState ρ) : Prop :=
  ∀ vs T s', vs.length ≤ t.values.length - 1 → ForRun A t body vs (t.command.run A.host s) T s' →
    ∃ n T' s'', body.eval A.host n s' = (T', some s'')

/-- **The loop iterates over its range**: it is compiled, and wherever its code is in a program, the program sets the
variable, executes the body once for each value of the range, and leaves the variable behind the range. -/
def ForRight (cs : CompileState) (tokens : List Token) (s : LoopState ρ) : Prop :=
  ∃ code, htmlTemplateCompileTokens cs tokens = .ok ⟨.ofItems (cs.prg.items ++ code), cs.st⟩ ∧
    ∀ (items : List PrgItem) (reg : Bool), CodeAt items cs.prg.items.length code → ∃ k T reg' s',
      Steps (printHtmlTemplateStep A.host items) k ⟨cs.prg.items.length, reg, s⟩ ((t.command.item, s) :: T)
        ⟨cs.prg.items.length + code.length, reg', s'⟩ ∧
      ForRun A t body t.values (t.command.run A.host s) T s' ∧
      s'.value t.var = some (CString.take (decText (max t.first (t.last + 1))))

end

/-! ### Texts of numbers -/

/-- A character of a number. -/
def isNumeral (c : UInt8) : Bool := isdigit c || c == 0x2D

theorem isNumeral_decText (n : ℤ) : ∀ c ∈ decText n, isNumeral c = true := by
  intro c hc
  rw [isNumeral, Bool.or_eq_true, beq_iff_eq]
  cases n with
  | ofNat n => exact .inl (isdigit_natDigits c hc)
  | negSucc n =>
    rcases List.mem_cons.1 hc with rfl | hc
    · exact .inr rfl
    · exact .inl (isdigit_natDigits c hc)

theorem isNumeral_plain {c : UInt8} (h : isNumeral c = true) :
    c ≠ 0 ∧ c ≠ 2 ∧ c ≠ 3 ∧ c ≠ 0x24 ∧ c ≠ 0x26 ∧ tolower c ≠ 0x24 :=
  @forall_byte (fun c => isNumeral c = true → c ≠ 0 ∧ c ≠ 2 ∧ c ≠ 3 ∧ c ≠ 0x24 ∧ c ≠ 0x26 ∧ tolower c ≠ 0x24)
    (by decide +kernel) c h

theorem take_numeral (h : ∀ c ∈ s, isNumeral c = true) : (CString.take s).val = s :=
  List.takeWhile_eq_self_iff.2 fun c hc => by simpa using (isNumeral_plain (h c hc)).1

theorem removeHiLight_numeral (h : ∀ c ∈ s, isNumeral c = true) : udmRemoveHiLightDup s = s := by
  have hloop : removeHiLight s.length s = s := by
    induction s with
    | nil => rfl
    | cons c s ih =>
      rw [List.forall_mem_cons] at h
      obtain ⟨-, htwo, hthree, -, hamp, -⟩ := isNumeral_plain h.1
      rw [List.length_cons, removeHiLight, if_neg (by simp [htwo, hthree]), ih h.2]
      exact fun _ hc => absurd hc hamp
  rw [udmRemoveHiLightDup, hloop]
  exact take_numeral h

theorem pieces_numeral (h : ∀ c ∈ s, isNumeral c = true) : pieces s = s.map .char := by
  rw [pieces]
  induction s with
  | nil => rfl
  | cons c s ih =>
    rw [List.forall_mem_cons] at h
    obtain ⟨-, -, -, hdollar, -, hlower⟩ := isNumeral_plain h.1
    have hbase64 : ¬strcaseeq ((c :: s).take 8) (bytes "$base64(") = true := by
      intro heq
      rw [strcaseeq, beq_iff_eq, List.take_succ_cons, List.map_cons] at heq
      exact hlower (List.cons.inj heq).1
    have htype : varType (c :: s) = none := by
      rw [varType, if_neg hbase64]
      all_goals exact fun _ heq => hdollar (List.cons.inj heq).1
    rw [List.length_cons, piecesAux, nextPiece, htype]
    simp only [List.map_cons, ih h.2]

theorem printPieces_char {V : Type*} (A : Agent V) {size : ℕ} (s : List UInt8) {st : PrintState V}
    (hsize : st.buf.bytes.length = size) (hroom : st.dlen + s.length < size) (hnul : st.buf.NulAt st.dlen) :
    let r := printPieces A false 0 size st (s.map .char)
    r.vars = st.vars ∧ r.buf.bytes.take (st.dlen + s.length) = st.buf.bytes.take st.dlen ++ s ∧
      r.buf.NulAt (st.dlen + s.length) := by
  induction s generalizing st with
  | nil => exact ⟨rfl, by simp [printPieces], hnul⟩
  | cons c s ih =>
    rw [List.length_cons] at hroom ⊢
    simp only [List.map_cons, printPieces, Nat.zero_add]
    rw [if_pos (by omega)]
    have hstep := @ih { st with buf := (st.buf.write st.dlen c).write (st.dlen + 1) 0, dlen := st.dlen + 1 }
      (by simpa using hsize) (show st.dlen + 1 + s.length < size by omega)
      (Buffer.nulAt_write (by rw [Buffer.length_write]; omega))
    obtain ⟨hvars, htake, hnul'⟩ := hstep
    simp only at hvars htake hnul'
    have hfirst : ((st.buf.write st.dlen c).write (st.dlen + 1) 0).bytes.take (st.dlen + 1) =
        st.buf.bytes.take st.dlen ++ [c] := by
      rw [Buffer.take_write_of_le le_rfl]
      exact Buffer.take_writes_add (b := st.buf) (i := st.dlen) (s := [c])
        (show st.dlen + 1 ≤ st.buf.bytes.length by omega)
    refine ⟨hvars, ?_, ?_⟩
    · rw [show st.dlen + (s.length + 1) = st.dlen + 1 + s.length by omega, htake, hfirst, List.append_assoc]
      rfl
    · rw [show st.dlen + (s.length + 1) = st.dlen + 1 + s.length by omega]
      exact hnul'

/-- **A number is printed as it is.** -/
theorem print_numeral (A : LoopAgent ρ) {size : ℕ} {arg : List UInt8} (h : ∀ c ∈ arg, isNumeral c = true)
    (hroom : arg.length < size) (s : LoopState ρ) : A.print size arg s = (arg, s) := by
  have hlen := (A.malloc size).property
  have hnul : ((Buffer.mk (A.malloc size).val false).write 0 0).NulAt 0 :=
    Buffer.nulAt_write (show 0 < (A.malloc size).val.length by omega)
  obtain ⟨hvars, htake, hend⟩ := @printPieces_char _ A.agent size arg
    ⟨(Buffer.mk (A.malloc size).val false).write 0 0, 0, s⟩ (by simpa using hlen) (by simpa using hroom) hnul
  simp only [Nat.zero_add, List.take_zero, List.nil_append] at hvars htake hend
  rw [LoopAgent.print, printTextTemplate, pieces_numeral h]
  simp only [hvars]
  rw [Buffer.str_eq_of_take (fun hzero => (isNumeral_plain (h 0 hzero)).1 rfl) htake hend]

/-! ### Commands on the loop variable -/

theorem value_replaceStr (udmSort : QSort VarLE) (s : LoopState ρ) (name val : CString) :
    (s.replaceStr udmSort name val).value name = some val := by
  obtain ⟨v, i, hfind, hval⟩ := udmVarListFind_replaceStr udmSort s.inOrder name (some val)
  rw [LoopState.value, LoopState.replaceStr, hfind, Option.bind_some, hval]

theorem numberAt_decText (n : ℤ) : numberAt (decText n) = n := by
  have h := @numberAt_append n [] (by simp)
  rwa [List.append_nil] at h

theorem val_take_decText (n : ℤ) : (CString.take (decText n)).val = decText n := take_numeral (isNumeral_decText n)

section Commands

variable (A : LoopAgent ρ) (t : ForTag) {s : LoopState ρ} {v : ℤ}

theorem length_decText_lt (n : ℤ) : (decText n).length < 256 + 4 * (decText n).length := by omega

theorem value_command (s : LoopState ρ) :
    (t.command.run A.host s).value t.var = some (CString.take (decText t.first)) := by
  have harg0 : t.command.item.arg0 = some t.name := t.name_eq
  have harg1 : t.command.item.arg1 = some (decText t.first) := t.first_eq
  have hrun : t.command.run A.host s = templateSetOrPut A t.command.item s := rfl
  have hnum : t.command.item.cmdnum = .tmplSet := rfl
  rw [hrun, templateSetOrPut, harg0, harg1, hnum]
  simp only [Option.getD_some, if_true, print_numeral A (isNumeral_decText t.first) (length_decText_lt t.first)]
  exact value_replaceStr A.udmSort s t.var _

theorem value_inc (hs : s.value t.var = some (CString.take (decText v))) (hlo : -0x80000000 ≤ v) (hhi : v + 1 < 0x80000000) :
    (t.command.inc.run A.host s).value t.var = some (CString.take (decText (v + 1))) := by
  have harg0 : t.command.inc.item.arg0 = some t.name := t.name_eq
  have hrun : t.command.inc.run A.host s = templateIncOrDec A t.command.inc.item s := rfl
  have hnum : t.command.inc.item.cmdnum = .tmplInc := rfl
  have hint : udmVarListFindInt s.vars t.var 0 = v := by
    rw [LoopState.value] at hs
    obtain ⟨⟨w, i⟩, hfind, hval⟩ := Option.bind_eq_some_iff.1 hs
    rw [udmVarListFindInt, hfind]
    simp only at hval
    simp only [hval, Option.elim_some, atoiInt, val_take_decText, numberAt_decText]
    rw [max_eq_right (by omega), min_eq_right (by omega)]
    exact Int.bmod_eq_of_le (by omega) (by omega)
  rw [hrun, templateIncOrDec, harg0, hnum]
  simp only [Option.getD_some, if_true]
  rw [← ForTag.var, hint, Int.bmod_eq_of_le (by omega) (by omega)]
  exact value_replaceStr A.udmSort s t.var _

theorem run_exceeds (hs : s.value t.var = some (CString.take (decText v))) (hlo : -0x80000000 ≤ v) (hhi : v < 0x80000000) :
    t.command.exceeds.run A.host s = (s, decide (t.last < v)) := by
  have harg0 : t.command.exceeds.item.arg0 = some t.name := t.name_eq
  have harg1 : t.command.exceeds.item.arg1 = some (decText t.last) := t.last_eq
  have hnum : t.command.exceeds.item.cmdnum = .tmplIfgt := rfl
  have hneg : t.command.exceeds.negated = false := rfl
  have hnhvar : A.host.varListFindStr s t.name = decText v := by
    show udmRemoveHiLightDup (((s.value t.var).map Subtype.val).getD []) = decText v
    rw [hs, Option.map_some, Option.getD_some, val_take_decText, removeHiLight_numeral (isNumeral_decText v)]
  have hvurl : A.host.printTextTemplate s (256 + 4 * (decText t.last).length) (decText t.last) = (decText t.last, s) :=
    print_numeral A (isNumeral_decText t.last) (length_decText_lt t.last) s
  rw [Test.run, templateCompare, harg0, harg1, hnum, hneg]
  simp only [Option.getD_some, hnhvar, hvurl]
  rw [show A.host.lt (A.host.atof (decText t.last)) (A.host.atof (decText v)) = decide (t.last < v) from
    A.lt_decText t.last v hlo hhi]
  cases decide (t.last < v) <;> rfl

end Commands

/-! ### The loop -/

theorem integersFrom_succ (v : ℤ) (n : ℕ) : integersFrom v (n + 1) = v :: integersFrom (v + 1) n := by
  rw [integersFrom, integersFrom, List.range_succ_eq_map, List.map_cons, List.map_map]
  congr 1
  · simp
  · refine List.map_congr_left fun k _ => ?_
    simp only [Function.comp_apply]
    omega

section Loop

variable {A : LoopAgent ρ} {t : ForTag} {body : Block} {vs : List ℤ} {p m : ℕ} {v : ℤ}
variable {T : List (Event (LoopState ρ))}

/-- **One turn**: the body, the increment, the comparison, and the way back if there is a next value. -/
theorem turn_steps (hkeeps : Keeps A t body) {items rest : List PrgItem}
    (hcode : CodeAt items p (body.code p ++ t.command.inc.item :: t.command.exceeds.item ::
      t.command.exceeds.jump p :: rest)) (hlo : -0x80000000 ≤ v) (hhi : v + 1 < 0x80000000)
    {s s1 : LoopState ρ} (hs : s.value t.var = some (CString.take (decText v)))
    (hend : body.eval A.host m s = (T, some s1)) (reg : Bool) :
    (t.command.inc.run A.host s1).value t.var = some (CString.take (decText (v + 1))) ∧
      ∃ k reg', Steps (printHtmlTemplateStep A.host items) k ⟨p, reg, s⟩
        (T ++ [(t.command.inc.item, s1), (t.command.exceeds.item, t.command.inc.run A.host s1)])
        ⟨if t.last < v + 1 then p + size body.instrs + 3 else p, reg', t.command.inc.run A.host s1⟩ := by
  have hs1 : s1.value t.var = some (CString.take (decText v)) := by rw [hkeeps m s T s1 hend, hs]
  have hs2 := value_inc A t hs1 hlo hhi
  have hbody := (eval_follows A.host items m).1 body p reg s hcode.left
  rw [hend] at hbody
  obtain ⟨k, reg1, hk⟩ := hbody
  have htail := hcode.right
  rw [body.length_code] at htail
  have hinc := Steps.event (step_command A.host htail.head reg1 s1) (.zero _)
  obtain ⟨reg2, htest⟩ := steps_test A.host htail.tail.head htail.tail.tail.head reg1 (t.command.inc.run A.host s1)
  rw [run_exceeds A t hs2 (by omega) (by omega)] at htest
  simp only [decide_eq_true_eq] at htest
  have hrun := hk.trans (hinc.trans htest)
  exact ⟨hs2, _, reg2, hrun⟩

theorem forRun_turn (hkeeps : Keeps A t body) (hlo : -0x80000000 ≤ v) (hhi : v + 1 < 0x80000000)
    {s s1 s' : LoopState ρ} (hs : s.value t.var = some (CString.take (decText v)))
    {T' : List (Event (LoopState ρ))} (hend : body.eval A.host m s = (T, some s1))
    (hrest : ForRun A t body vs (t.command.inc.run A.host s1) T' s') :
    ForRun A t body (v :: vs) s
      (T ++ [(t.command.inc.item, s1), (t.command.exceeds.item, t.command.inc.run A.host s1)] ++ T') s' := by
  have hs1 : s1.value t.var = some (CString.take (decText v)) := by rw [hkeeps m s T s1 hend, hs]
  have hs2 := value_inc A t hs1 hlo hhi
  have hint : (s1.value t.var).bind (fun val => atoi val.val) = some v := by
    rw [hs1, Option.bind_some, val_take_decText, atoi, numberAt_decText, if_pos ⟨hlo, by omega⟩]
  refine .cons hs hend hint hhi ?_
  rw [run_exceeds A t hs2 (by omega) (by omega)]
  exact hrest

/-- **The loop from a value on**: by induction on how many values are left. -/
theorem loop_steps (hkeeps : Keeps A t body) (hlast : t.last + 1 < 0x80000000) {items rest : List PrgItem}
    (hcode : CodeAt items p (body.code p ++ t.command.inc.item :: t.command.exceeds.item ::
      t.command.exceeds.jump p :: rest)) (n : ℕ) (hn : t.last = v + n) (hv : -0x80000000 ≤ v) {s : LoopState ρ}
    (hs : s.value t.var = some (CString.take (decText v)))
    (hends : ∀ vs T s', vs.length ≤ n → ForRun A t body vs s T s' → ∃ m T' s'', body.eval A.host m s' = (T', some s''))
    (reg : Bool) : ∃ k T reg' s', Steps (printHtmlTemplateStep A.host items) k ⟨p, reg, s⟩ T
        ⟨p + size body.instrs + 3, reg', s'⟩ ∧
      ForRun A t body (integersFrom v (n + 1)) s T s' ∧ s'.value t.var = some (CString.take (decText (t.last + 1))) := by
  induction n generalizing v s reg with
  | zero =>
    obtain ⟨m, T, s1, hend⟩ := hends [] [] s le_rfl (.nil s)
    obtain ⟨hs2, k, reg', hk⟩ := turn_steps hkeeps hcode hv (by omega) hs hend reg
    rw [if_pos (by omega)] at hk
    refine ⟨k, _, reg', _, hk, ?_, by rw [hs2, show v + 1 = t.last + 1 by omega]⟩
    have hrun := forRun_turn hkeeps hv (by omega) hs hend (.nil _)
    rw [List.append_nil] at hrun
    rw [integersFrom_succ]
    exact hrun
  | succ n ih =>
    obtain ⟨m, T, s1, hend⟩ := hends [] [] s (Nat.zero_le _) (.nil s)
    obtain ⟨hs2, k, reg1, hk⟩ := turn_steps hkeeps hcode hv (by omega) hs hend reg
    rw [if_neg (by omega)] at hk
    obtain ⟨k', T', reg', s', hk', hrun, hvalue⟩ := ih (v := v + 1) (by omega) (by omega) hs2
      (fun vs T' s' hlen hrun => hends (v :: vs) _ s' (Nat.succ_le_succ hlen)
        (forRun_turn hkeeps hv (by omega) hs hend hrun)) reg1
    refine ⟨k + k', _, reg', s', hk.trans hk', ?_, hvalue⟩
    rw [integersFrom_succ]
    exact forRun_turn hkeeps hv (by omega) hs hend hrun

theorem int_of_forRun (hkeeps : Keeps A t body) {s s' : LoopState ρ}
    (h : ForRun A t body vs s T s') : ∀ v ∈ vs, -0x80000000 ≤ v ∧ v + 1 < 0x80000000 := by
  induction h with
  | nil s => exact fun v hv => absurd hv List.not_mem_nil
  | cons value ends isInt fits rest ih =>
    refine List.forall_mem_cons.2 ⟨?_, ih⟩
    rw [hkeeps _ _ _ _ ends, value, Option.bind_some, val_take_decText, atoi, numberAt_decText] at isInt
    split_ifs at isInt with hrange
    rw [Option.some.injEq] at isInt
    omega

theorem compile_for {cs : CompileState} (hcs : cs.Ok) {tokens : List Token}
    (htokens : tokens.map Token.instr = .tmplFor t.command :: (body.instrs ++ [.tmplEndfor])) :
    (∀ code, htmlTemplateCompileTokens cs tokens = .ok ⟨.ofItems (cs.prg.items ++ code), cs.st⟩ →
      EndforInPlace cs.prg.items.length (tokens.map Token.instr)) ∧
    (EndforInPlace cs.prg.items.length (tokens.map Token.instr) → htmlTemplateCompileTokens cs tokens =
      .ok ⟨.ofItems (cs.prg.items ++ (Block.tmplFor t.command body .nil).code cs.prg.items.length), cs.st⟩) := by
  rw [htmlTemplateCompileTokens_eq, htokens]
  refine ⟨fun code h => emitAll_ok hcs h, fun h => ?_⟩
  obtain ⟨prg, st⟩ := cs
  obtain ⟨I, rfl⟩ : ∃ I, prg = .ofItems I := ⟨_, hcs.memory⟩
  have hcompile := (Block.tmplFor t.command body .nil).compile I st [] h
  rw [List.append_nil] at hcompile
  exact hcompile

theorem not_set_only {items rest : List PrgItem} {q k : ℕ} (hfor : items[p]? = some t.command.item)
    (hcode : CodeAt items (p + 1) (body.code (p + 1) ++ t.command.inc.item :: t.command.exceeds.item ::
      t.command.exceeds.jump (p + 1) :: rest)) {s s' : LoopState ρ} {reg reg' : Bool}
    (hsteps : Steps (printHtmlTemplateStep A.host items) k ⟨p, reg, s⟩ [(t.command.item, s)] ⟨q, reg', s'⟩)
    (hhalted : printHtmlTemplateStep A.host items ⟨q, reg', s'⟩ = none)
    (hends : ∃ n T s1, body.eval A.host n (t.command.run A.host s) = (T, some s1)) : False := by
  obtain ⟨n, T, s1, hend⟩ := hends
  have hset := Steps.event (step_command A.host hfor reg s) (.zero _)
  have hbody := (eval_follows A.host items n).1 body (p + 1) reg (t.command.run A.host s) hcode.left
  rw [hend] at hbody
  obtain ⟨k', reg1, hk'⟩ := hbody
  have htail := hcode.right
  rw [body.length_code] at htail
  have hinc := Steps.event (step_command A.host htail.head reg1 s1) (.zero _)
  have hall := hset.trans (hk'.trans hinc)
  have hle := (hall.prefix_of_le hsteps (hsteps.le_of_halted hall hhalted)).length_le
  simp at hle

theorem first_le_last {cs : CompileState} (hcs : cs.Ok) {tokens : List Token}
    (htokens : tokens.map Token.instr = .tmplFor t.command :: (body.instrs ++ [.tmplEndfor])) {s : LoopState ρ}
    (hends : Ends A t body s) (h : ForRight A t body cs tokens s) : t.first ≤ t.last := by
  obtain ⟨code, hcode, hright⟩ := h
  obtain ⟨hplace, hcompile⟩ := @compile_for t body cs hcs tokens htokens
  have hsame := (hcompile (hplace code hcode)).symm.trans hcode
  rw [Except.ok.injEq, CompileState.mk.injEq, Prg.ofItems, Prg.ofItems, Prg.mk.injEq] at hsame
  have hcode' := List.append_cancel_left hsame.1.1
  have hat : CodeAt (cs.prg.items ++ code) cs.prg.items.length code := ⟨[], by simp⟩
  obtain ⟨k, T, reg', s', hsteps, hrun, -⟩ := hright (cs.prg.items ++ code) false hat
  by_contra hlt
  have hvalues : t.values = [] := by
    rw [ForTag.values, show (t.last + 1 - t.first).toNat = 0 by omega]
    rfl
  rw [hvalues] at hrun
  cases hrun
  rw [← List.length_append] at hsteps
  have hblock : CodeAt (cs.prg.items ++ code) cs.prg.items.length
      (t.command.item :: (body.code (cs.prg.items.length + 1) ++ t.command.inc.item :: t.command.exceeds.item ::
        t.command.exceeds.jump (cs.prg.items.length + 1) :: [])) := by
    rw [← hcode'] at hat ⊢
    exact hat
  exact not_set_only hblock.head hblock.tail hsteps (step_end ..) (hends [] [] _ (Nat.zero_le _) (.nil _))

/-- **A loop iterates over its range** exactly if its code is compiled, the range is not empty, and its values and the one
behind them are of type `int`. -/
theorem forRight_iff (hkeeps : Keeps A t body) {cs : CompileState} (hcs : cs.Ok) {tokens : List Token}
    (htokens : tokens.map Token.instr = .tmplFor t.command :: (body.instrs ++ [.tmplEndfor])) {s : LoopState ρ}
    (hends : Ends A t body s) :
    ForRight A t body cs tokens s ↔
      EndforInPlace cs.prg.items.length (tokens.map Token.instr) ∧
        -0x80000000 ≤ t.first ∧ t.first ≤ t.last ∧ t.last + 1 < 0x80000000 := by
  obtain ⟨hplace, hcompile⟩ := @compile_for t body cs hcs tokens htokens
  constructor
  · intro h
    have hle := first_le_last hcs htokens hends h
    obtain ⟨code, hcode, hright⟩ := h
    obtain ⟨k, T, reg', s', -, hrun, -⟩ := hright (cs.prg.items ++ code) false ⟨[], by simp⟩
    have hint := int_of_forRun hkeeps hrun
    have hmem : ∀ k : ℕ, k < (t.last + 1 - t.first).toNat → t.first + (k : ℤ) ∈ t.values := fun k hk =>
      List.mem_map.2 ⟨k, List.mem_range.2 hk, rfl⟩
    have hfirst := hint _ (hmem 0 (by omega))
    have hlast := hint _ (hmem (t.last - t.first).toNat (by omega))
    refine ⟨hplace code hcode, ?_, hle, ?_⟩
    · simpa using hfirst.1
    · omega
  · rintro ⟨hin, hlo, hle, hhi⟩
    have hblock : (Block.tmplFor t.command body .nil).code cs.prg.items.length =
        t.command.item :: (body.code (cs.prg.items.length + 1) ++ t.command.inc.item :: t.command.exceeds.item ::
          t.command.exceeds.jump (cs.prg.items.length + 1) :: []) := rfl
    have hlen := (Block.tmplFor t.command body .nil).length_code cs.prg.items.length
    simp only [Block.instrs, size_cons, size_append, size_nil, Instr.size] at hlen
    rw [hblock] at hcompile hlen
    refine ⟨_, hcompile hin, fun items reg hat => ?_⟩
    have hset := Steps.event (step_command A.host hat.head reg s) (.zero _)
    have hvalues : t.values = integersFrom t.first ((t.last - t.first).toNat + 1) := by
      rw [ForTag.values, show (t.last + 1 - t.first).toNat = (t.last - t.first).toNat + 1 by omega]
    have hends' : ∀ vs T s', vs.length ≤ (t.last - t.first).toNat → ForRun A t body vs (t.command.run A.host s) T s' →
        ∃ m T' s'', body.eval A.host m s' = (T', some s'') := by
      intro vs T s' hlen' hrun
      refine hends vs T s' ?_ hrun
      rw [hvalues, integersFrom, List.length_map, List.length_range]
      omega
    obtain ⟨k, T, reg', s', hsteps, hrun, hvalue⟩ := loop_steps hkeeps hhi hat.tail (t.last - t.first).toNat (by omega) hlo
      (value_command A t s) hends' reg
    have hall := hset.trans hsteps
    have hend : cs.prg.items.length + 1 + size body.instrs + 3 =
        cs.prg.items.length + (1 + (size body.instrs + (3 + 0))) := by omega
    rw [hend, ← hlen] at hall
    refine ⟨_, T, reg', s', hall, ?_, ?_⟩
    · rw [hvalues]
      exact hrun
    · rw [max_eq_right (by omega)]
      exact hvalue

end Loop

/-! ### Loops -/

/-- Texts are not printed. -/
def silent : LoopAgent Unit where
  udmSort := byInsertion
  doccount _ := 1
  countDocs s := s
  convDup s := s
  hlBeg := []
  hlEnd := []
  malloc size := ⟨List.replicate size 0, List.length_replicate⟩
  Float := ℤ
  atof := numberAt
  le m n := m ≤ n
  lt m n := m < n
  lt_decText m n _ _ := by rw [numberAt_decText, numberAt_decText]
  exec _ _ s := s

/-- Nothing is set. -/
def noLoopVars : LoopState Unit := ⟨udmVarListInit, List.Pairwise.nil, ()⟩

theorem eval_nil {s s' : LoopState Unit} {n : ℕ} {T : List (Event (LoopState Unit))}
    (h : Block.nil.eval silent.host n s = (T, some s')) : s' = s := by
  cases n with
  | zero => cases h
  | succ n =>
    cases h
    rfl

/-- The attributes of a loop over a range. -/
def forTag (first last : String) : HtmlTok :=
  ⟨[(bytes "!FOR", []), (bytes "Name", bytes "i"), (bytes "From", bytes first), (bytes "To", bytes last)]⟩

/-- `<!FOR Name="i" From="1" To="2">`. -/
def oneToTwo : ForTag := ⟨forTag "1" "2", bytes "i", 1, 2, by decide, by decide, by decide⟩

/-- `<!FOR Name="i" From="2" To="1">`. -/
def twoToOne : ForTag := ⟨forTag "2" "1", bytes "i", 2, 1, by decide, by decide, by decide⟩

/-- `<!FOR Name="i" From="1" To="2"><!ENDFOR>`. -/
def oneToTwoLoop : List Token := [⟨bytes "<!FOR Name=\"i\" From=\"1\" To=\"2\">", oneToTwo.tag⟩, nameToken "ENDFOR"]

/-- `<!FOR Name="i" From="2" To="1"><!ENDFOR>`. -/
def twoToOneLoop : List Token := [⟨bytes "<!FOR Name=\"i\" From=\"2\" To=\"1\">", twoToOne.tag⟩, nameToken "ENDFOR"]

theorem forRight_oneToTwo :
    ForRight silent oneToTwo .nil ⟨⟨[], 0⟩, []⟩ oneToTwoLoop noLoopVars ↔
      EndforInPlace 0 (oneToTwoLoop.map Token.instr) ∧ -0x80000000 ≤ oneToTwo.first ∧
        oneToTwo.first ≤ oneToTwo.last ∧ oneToTwo.last + 1 < 0x80000000 :=
  forRight_iff (fun _ _ _ _ h => by rw [eval_nil h]) ok_nil rfl fun _ _ s' _ _ => ⟨1, [], s', rfl⟩

/-- The body of a loop over an empty range is executed. -/
theorem not_forRight :
    ¬∀ (t : ForTag) (tokens : List Token), tokens.map Token.instr = [.tmplFor t.command, .tmplEndfor] →
      Keeps silent t .nil → Ends silent t .nil noLoopVars → ForRight silent t .nil ⟨⟨[], 0⟩, []⟩ tokens noLoopVars := by
  intro h
  have hends : Ends silent twoToOne .nil noLoopVars := fun _ _ s' _ _ => ⟨1, [], s', rfl⟩
  have hright := h twoToOne twoToOneLoop rfl (fun _ _ _ _ h => by rw [eval_nil h]) hends
  exact absurd (first_le_last ok_nil rfl hends hright) (by decide)

end MnoGoSearch.Template
