import MnoGoSearch.Sql.WhereCondition
import Mathlib

/-!
# No limit gets out of its literal

The condition for the limits of a search (`UdmSQLBuildWhereCondition`, `sql.c`) has the same tokens as the condition for
harmless values, but for the numbers and what stands in the literals. A name of 64 bytes and a value of 128 bytes are
written behind the end of their buffers.
-/

namespace MnoGoSearch.Sql

set_option maxRecDepth 2000

open Lib.SqlTokens Url Http Nntp
open MnoGoSearch.Lib (Buffer)
open Words (CString)

/-! ## Texts of the same structure -/

section Pieces

variable {escapes : Bool} {c : UInt8}

theorem numeral_decText (n : ℤ) : Numeral (decText n) := by
  cases n with
  | ofNat n => exact ⟨_, isdigit_natDigits, natDigits_ne_nil (Nat.lt_succ_self n), Or.inl rfl⟩
  | negSucc n => exact ⟨_, isdigit_natDigits, natDigits_ne_nil (Nat.lt_succ_self (n + 1)), Or.inr rfl⟩

theorem similar_decText (n m : ℤ) : Similar escapes (decText n) (decText m) [] :=
  .num (numeral_decText n) (numeral_decText m)

theorem similar_word_decText (hc : isLetter c = true) {w v : List UInt8} (hw : ∀ d ∈ w, isWordChar d = true)
    (hv : ∀ d ∈ v, isWordChar d = true) (n : ℕ) :
    Similar escapes (c :: (w ++ (decText n ++ v))) (c :: (w ++ (decText n ++ v))) [] := by
  refine .word hc fun d hd => ?_
  rcases List.mem_append.mp hd with hd | hd
  · exact hw d hd
  · rcases List.mem_append.mp hd with hd | hd
    · have hdigit : isDigit d = true := isdigit_natDigits d hd
      rw [isWordChar, hdigit, Bool.or_true, Bool.true_or]
    · exact hv d hd

theorem similar_delim {s s' : List UInt8} {l : List (List UInt8)} (h : Similar escapes s s' l)
    (hc : isDelim c = true) : Similar escapes (c :: s) (c :: s') l := Similar.nil.append_delim h hc

theorem similar_sqlname (p : IntParam) : Similar escapes p.sqlname p.sqlname [] := by
  have hname : ∃ c w, p.sqlname = c :: w ∧ isLetter c = true ∧ ∀ d ∈ w, isWordChar d = true := by
    cases p
    · exact ⟨0x75, bytes "rl.status", by decide, by decide, by decide⟩
    · exact ⟨0x75, bytes "rl.seed", by decide, by decide, by decide⟩
    · exact ⟨0x75, bytes "rl.site_id", by decide, by decide, by decide⟩
  obtain ⟨c, w, hname, hc, hw⟩ := hname
  rw [hname]
  exact .word hc hw

theorem StrParam.similar_sqlname (p : StrParam) : Similar escapes p.sqlname p.sqlname [] := by
  have hname : ∃ c w, p.sqlname = c :: w ∧ isLetter c = true ∧ ∀ d ∈ w, isWordChar d = true := by
    cases p
    · exact ⟨0x75, bytes "rl.url", by decide, by decide, by decide⟩
    · exact ⟨0x75, bytes "rl.url", by decide, by decide, by decide⟩
    · exact ⟨0x75, bytes "rl.url", by decide, by decide, by decide⟩
    · exact ⟨0x73, bytes ".tag", by decide, by decide, by decide⟩
    · exact ⟨0x69, bytes "l.sval", by decide, by decide, by decide⟩
    · exact ⟨0x63, bytes ".path", by decide, by decide, by decide⟩
    · exact ⟨0x69, bytes "t.sval", by decide, by decide, by decide⟩
  obtain ⟨c, w, hname, hc, hw⟩ := hname
  rw [hname]
  exact .word hc hw

end Pieces

/-! ## The text of one kind -/

/-- Two texts of one kind, and the literals in the first one. -/
def CondLike (s s' : List UInt8) (literals : List (List UInt8)) : Prop :=
  (s = [] ∧ s' = [] ∧ literals = []) ∨
    ∃ b b', s = b ++ [0x29] ∧ s' = b' ++ [0x29] ∧ ∀ escapes, Similar escapes b b' literals

/-- Two ways to add a condition to a text do the same but for numbers and literals. -/
structure AddsLike (f f' : List UInt8 → List UInt8) (literals : List (List UInt8)) : Prop where
  /-- The first condition of the text. -/
  first : ∃ b b', f [] = b ++ [0x29] ∧ f' [] = b' ++ [0x29] ∧ ∀ escapes, Similar escapes b b' literals
  next : ∃ c b b', isDelim c = true ∧ (∀ d, f (d ++ [0x29]) = d ++ c :: b ++ [0x29]) ∧
    (∀ d, f' (d ++ [0x29]) = d ++ c :: b' ++ [0x29]) ∧ ∀ escapes, Similar escapes b b' literals

variable {s t s' : List UInt8} {l m : List (List UInt8)}

/-- **A condition is added to both texts.** -/
theorem CondLike.add (h : CondLike s s' l)
    {f f' : List UInt8 → List UInt8} (hf : AddsLike f f' m) : CondLike (f s) (f' s') (l ++ m) := by
  rcases h with ⟨rfl, rfl, rfl⟩ | ⟨b, b', rfl, rfl, hsim⟩
  · exact Or.inr hf.first
  · obtain ⟨c, t, t', hc, hnext, hnext', ht⟩ := hf.next
    exact Or.inr ⟨b ++ c :: t, b' ++ c :: t', hnext b, hnext' b', fun escapes => (hsim escapes).append_delim (ht escapes) hc⟩

theorem addsLike_joiner {f f' : List UInt8 → List UInt8} {joiner core core' : List UInt8} {c : UInt8} {w : List UInt8}
    (hjoiner : joiner = 0x20 :: (c :: w ++ [0x20])) (hc : isLetter c = true) (hw : ∀ d ∈ w, isWordChar d = true)
    (hf : ∀ d, f d = udmSQLWhereAddJoiner d joiner ++ (core ++ [0x29]))
    (hf' : ∀ d, f' d = udmSQLWhereAddJoiner d joiner ++ (core' ++ [0x29]))
    (hcore : ∀ escapes, Similar escapes core core' l) : AddsLike f f' l := by
  have hopen : bytes "(" = [0x28] := by decide
  have hfirst : udmSQLWhereAddJoiner [] joiner = [0x28] := by rw [udmSQLWhereAddJoiner, if_neg (not_not_intro rfl), hopen]
  have hnext : ∀ d : List UInt8, udmSQLWhereAddJoiner (d ++ [0x29]) joiner = d ++ 0x20 :: (c :: w ++ [0x20]) := by
    intro d
    rw [udmSQLWhereAddJoiner, if_pos (List.append_ne_nil_of_right_ne_nil d (List.cons_ne_nil _ _)), List.dropLast_concat,
      hjoiner]
  have hmore : ∀ escapes, Similar escapes (c :: w ++ 0x20 :: core) (c :: w ++ 0x20 :: core') l := fun escapes =>
    (Similar.word hc hw).append_delim (hcore escapes) (by decide)
  refine ⟨⟨0x28 :: core, 0x28 :: core', ?_, ?_, fun escapes => similar_delim (hcore escapes) (by decide)⟩,
    ⟨0x20, c :: w ++ 0x20 :: core, c :: w ++ 0x20 :: core', by decide, fun d => ?_, fun d => ?_, hmore⟩⟩
  · rw [hf, hfirst]
    rfl
  · rw [hf', hfirst]
    rfl
  · rw [hf, hnext]
    simp only [List.append_assoc, List.cons_append, List.nil_append]
  · rw [hf', hnext]
    simp only [List.append_assoc, List.cons_append, List.nil_append]

/-! ## The limits -/

section Limits

variable {escapes : Bool} {val' val : List UInt8}

theorem similar_cmpText (p : IntParam) (hrange : (scanRange val).isSome = (scanRange val').isSome) :
    Similar escapes (cmpText p.sqlname (paramItem val)) (cmpText p.sqlname (paramItem val')) [] := by
  have hand : Similar escapes [0x41, 0x4E, 0x44] [0x41, 0x4E, 0x44] [] := .word (by decide) (by decide)
  have hop : ∀ n m : ℤ, Similar escapes (0x3D :: decText n) (0x3D :: decText m) [] := fun n m =>
    similar_delim (similar_decText n m) (by decide)
  rw [paramItem, paramItem]
  cases hval : scanRange val with
  | none =>
    have hval' : scanRange val' = none := by
      rw [hval, Option.isSome_none] at hrange
      exact Option.not_isSome_iff_eq_none.mp (Bool.eq_false_iff.mp hrange.symm)
    rw [hval']
    exact (similar_sqlname p).append_delim (similar_decText _ _) (by decide)
  | some r =>
    rw [hval, Option.isSome_some] at hrange
    obtain ⟨r', hval'⟩ := Option.isSome_iff_exists.mp hrange.symm
    rw [hval']
    have hsecond := (@similar_sqlname escapes p).append_delim (hop r.2.toInt r'.2.toInt)
      (show isDelim 0x3C = true by decide)
    have hrest := (similar_decText r.1.toInt r'.1.toInt).append_delim
      (hand.append_delim hsecond (show isDelim 0x20 = true by decide)) (show isDelim 0x20 = true by decide)
    exact (similar_sqlname p).append_delim (similar_delim hrest (by decide)) (by decide)

/-- **A limit by numbers**, for a value of the same kind. -/
theorem addsLike_int (p : IntParam) (DBSQL_IN : Bool) (hminus : 0x2D ∈ val ↔ 0x2D ∈ val')
    (hrange : (scanRange val).isSome = (scanRange val').isSome) :
    AddsLike (fun d => udmSQLWhereIntParam DBSQL_IN p.sqlname d val)
      (fun d => udmSQLWhereIntParam DBSQL_IN p.sqlname d val') [] := by
  have hin : ∀ escapes, Similar escapes [0x49, 0x4E] [0x49, 0x4E] [] := fun escapes => .word (by decide) (by decide)
  have hor : ∀ escapes, Similar escapes [0x4F, 0x52] [0x4F, 0x52] [] := fun escapes => .word (by decide) (by decide)
  have hcmp : ∀ escapes, Similar escapes (cmpText p.sqlname (paramItem val)) (cmpText p.sqlname (paramItem val')) [] :=
    fun escapes => similar_cmpText p hrange
  have hnum : ∀ escapes, Similar escapes (decText (atoiInt val)) (decText (atoiInt val')) [] := fun escapes =>
    similar_decText _ _
  have hlist : Listed DBSQL_IN val ↔ Listed DBSQL_IN val' := and_congr_right fun _ => not_congr hminus
  refine ⟨⟨firstText DBSQL_IN p.sqlname val, firstText DBSQL_IN p.sqlname val', udmSQLWhereIntParam_first ..,
    udmSQLWhereIntParam_first .., fun escapes => ?_⟩, ?_⟩
  · rw [firstText, firstText]
    by_cases hlisted : Listed DBSQL_IN val
    · rw [if_pos hlisted, if_pos (hlist.mp hlisted)]
      have hparen := (hin escapes).append_delim (similar_delim (hnum escapes) (show isDelim 0x28 = true by decide))
        (show isDelim 0x20 = true by decide)
      exact similar_delim ((similar_sqlname p).append_delim hparen (by decide)) (by decide)
    · rw [if_neg hlisted, if_neg (mt hlist.mpr hlisted)]
      exact similar_delim (hcmp escapes) (by decide)
  · by_cases hlisted : Listed DBSQL_IN val
    · refine ⟨0x2C, _, _, by decide, fun d => ?_, fun d => ?_, hnum⟩
      · rw [udmSQLWhereIntParam_next, nextText, if_pos hlisted]
      · rw [udmSQLWhereIntParam_next, nextText, if_pos (hlist.mp hlisted)]
    · refine ⟨0x20, _, _, by decide, fun d => ?_, fun d => ?_,
        fun escapes => (hor escapes).append_delim (hcmp escapes) (show isDelim 0x20 = true by decide)⟩
      · rw [udmSQLWhereIntParam_next, nextText, if_neg hlisted]
        rfl
      · rw [udmSQLWhereIntParam_next, nextText, if_neg (mt hlist.mpr hlisted)]
        rfl

theorem ne_of_mem_escStrSimple : ∀ c ∈ udmSQLEscStrSimple s, c ≠ 0x27 ∧ c ≠ 0x5C := by
  intro c hc
  obtain ⟨d, -, rfl⟩ := List.mem_map.mp hc
  exact @forall_byte (fun d => (if dangerousCharacter d = true then (0x3F : UInt8) else d) ≠ 0x27 ∧
    (if dangerousCharacter d = true then (0x3F : UInt8) else d) ≠ 0x5C) (by decide +kernel) d

/-- A text with no quote and no backslash. -/
def Plain (s : List UInt8) : Prop := ∀ c ∈ s, c ≠ 0x27 ∧ c ≠ 0x5C

theorem StrParam.plain_literal (p : StrParam) (hval : Plain val) : Plain (p.literal val) := by
  have hpercent : Plain (bytes "%") := show ∀ c ∈ bytes "%", c ≠ 0x27 ∧ c ≠ 0x5C by decide
  have hnil : Plain [] := List.forall_mem_nil _
  rw [StrParam.literal]
  refine List.forall_mem_append.mpr ⟨List.forall_mem_append.mpr ⟨?_, hval⟩, ?_⟩
  · split_ifs
    · exact hpercent
    · exact hnil
  · split_ifs
    · exact hpercent
    · exact hnil

theorem similar_like {v v' : List UInt8} (hv : Plain v) (hv' : Plain v') :
    Similar escapes (bytes "LIKE" ++ 0x20 :: 0x27 :: (v ++ [0x27])) (bytes "LIKE" ++ 0x20 :: 0x27 :: (v' ++ [0x27])) [v] :=
  (Similar.word (show isLetter 0x4C = true by decide) (show ∀ d ∈ bytes "IKE", isWordChar d = true by decide)).append_delim
    (.literal hv hv') (by decide)

/-- **A limit by strings.** -/
theorem addsLike_str (p : StrParam) (hval : Plain val) (hval' : Plain val') :
    AddsLike (fun d => udmSQLWhereStrParam p d val) (fun d => udmSQLWhereStrParam p d val') [p.literal val] := by
  have hcore : ∀ escapes, Similar escapes
      (p.sqlname ++ 0x20 :: ((if p.neg then bytes "NOT " else []) ++ (bytes "LIKE" ++ 0x20 :: 0x27 :: (p.literal val ++ [0x27]))))
      (p.sqlname ++ 0x20 :: ((if p.neg then bytes "NOT " else []) ++ (bytes "LIKE" ++ 0x20 :: 0x27 :: (p.literal val' ++ [0x27]))))
      [p.literal val] := by
    intro escapes
    refine (p.similar_sqlname).append_delim ?_ (show isDelim 0x20 = true by decide)
    have hnot : Similar escapes (bytes "NOT") (bytes "NOT") [] :=
      .word (show isLetter 0x4E = true by decide) (show ∀ d ∈ bytes "OT", isWordChar d = true by decide)
    have hblank : bytes "NOT " = bytes "NOT" ++ [0x20] := by decide
    rw [hblank]
    have hlike : Similar escapes _ _ _ := similar_like (p.plain_literal hval) (p.plain_literal hval')
    split_ifs
    · simpa using hnot.append_delim hlike (show isDelim 0x20 = true by decide)
    · exact hlike
  have htext : ∀ d v, udmSQLWhereStrParam p d v =
      udmSQLWhereAddJoiner d (if p.neg then bytes " AND " else bytes " OR ") ++
        (p.sqlname ++ 0x20 :: ((if p.neg then bytes "NOT " else []) ++ (bytes "LIKE" ++ 0x20 :: 0x27 :: (p.literal v ++ [0x27])))
          ++ [0x29]) := by
    intro d v
    have h₁ : bytes " " = [0x20] := by decide
    have h₂ : bytes "LIKE '" = bytes "LIKE" ++ [0x20, 0x27] := by decide
    have h₃ : bytes "')" = [0x27, 0x29] := by decide
    rw [udmSQLWhereStrParam, h₁, h₂, h₃]
    simp only [List.append_assoc, List.cons_append, List.nil_append]
  by_cases hneg : p.neg
  · refine addsLike_joiner (c := 0x41) (w := bytes "ND") ?_ (by decide) (by decide) (fun d => htext d val)
      (fun d => htext d val') hcore
    rw [if_pos hneg]
    decide
  · refine addsLike_joiner (c := 0x4F) (w := bytes "R") ?_ (by decide) (by decide) (fun d => htext d val)
      (fun d => htext d val') hcore
    rw [if_neg hneg]
    decide

/-- **A limit by a section.** -/
theorem addsLike_sl (n : ℕ) {name name' : List UInt8} (hname : Plain name) (hname' : Plain name') (hval : Plain val)
    (hval' : Plain val') : AddsLike (fun d => whereSl n d name val) (fun d => whereSl n d name' val') [name, val] := by
  have hisl : ∀ escapes (v : List UInt8), (∀ d ∈ v, isWordChar d = true) →
      Similar escapes (bytes "isl" ++ (decText n ++ v)) (bytes "isl" ++ (decText n ++ v)) [] := fun escapes v hv =>
    similar_word_decText (show isLetter 0x69 = true by decide) (show ∀ d ∈ bytes "sl", isWordChar d = true by decide) hv n
  have hand : ∀ escapes, Similar escapes (bytes "AND") (bytes "AND") [] := fun escapes =>
    .word (show isLetter 0x41 = true by decide) (show ∀ d ∈ bytes "ND", isWordChar d = true by decide)
  have hcore : ∀ escapes, Similar escapes
      (bytes "isl" ++ (decText n ++ bytes ".sname") ++ 0x3D :: (0x27 :: (name ++ [0x27]) ++ 0x20 :: (bytes "AND" ++ 0x20 ::
        (bytes "isl" ++ (decText n ++ bytes ".sval") ++ 0x20 :: (bytes "LIKE" ++ 0x20 :: 0x27 :: (val ++ [0x27]))))))
      (bytes "isl" ++ (decText n ++ bytes ".sname") ++ 0x3D :: (0x27 :: (name' ++ [0x27]) ++ 0x20 :: (bytes "AND" ++ 0x20 ::
        (bytes "isl" ++ (decText n ++ bytes ".sval") ++ 0x20 :: (bytes "LIKE" ++ 0x20 :: 0x27 :: (val' ++ [0x27]))))))
      [name, val] := fun escapes =>
    (hisl escapes (bytes ".sname") (by decide)).append_delim
      ((Similar.literal hname hname').append_delim
        ((hand escapes).append_delim
          ((hisl escapes (bytes ".sval") (by decide)).append_delim (similar_like hval hval') (by decide)) (by decide)) (by decide))
      (by decide)
  have htext : ∀ d name val : List UInt8, whereSl n d name val = udmSQLWhereAddJoiner d (bytes " AND ") ++
      (bytes "isl" ++ (decText n ++ bytes ".sname") ++ 0x3D :: (0x27 :: (name ++ [0x27]) ++ 0x20 :: (bytes "AND" ++ 0x20 ::
        (bytes "isl" ++ (decText n ++ bytes ".sval") ++ 0x20 :: (bytes "LIKE" ++ 0x20 :: 0x27 :: (val ++ [0x27]))))) ++
        [0x29]) := by
    intro d name val
    have h₁ : bytes ".sname='" = bytes ".sname" ++ [0x3D, 0x27] := by decide
    have h₂ : bytes "' AND isl" = [0x27, 0x20] ++ bytes "AND" ++ [0x20] ++ bytes "isl" := by decide
    have h₃ : bytes ".sval LIKE '" = bytes ".sval" ++ [0x20] ++ bytes "LIKE" ++ [0x20, 0x27] := by decide
    have h₄ : bytes "')" = [0x27, 0x29] := by decide
    rw [whereSl, h₁, h₂, h₃, h₄]
    simp only [List.append_assoc, List.cons_append, List.nil_append]
  exact addsLike_joiner (c := 0x41) (w := bytes "ND") (by decide) (by decide) (by decide) (fun d => htext d name val)
    (fun d => htext d name' val') hcore

end Limits

/-! ## Harmless values -/

/-- A variable is passed over. -/
def Skipped (v : RequestVar) : Prop := v.val.val = [] ∨ 64 < v.name.val.length

instance (v : RequestVar) : Decidable (Skipped v) := inferInstanceAs (Decidable (_ ∨ _))

/-- `var`, when it is escaped. -/
def RequestVar.limitName (v : RequestVar) : List UInt8 := udmSQLEscStrSimple v.name.val

/-- `val`, when it is escaped. -/
def RequestVar.limitVal (v : RequestVar) : List UInt8 := udmSQLEscStrSimple (v.val.val.take 128)

/-- A value for which the same is done as for the value of a variable. -/
def harmlessVal (v : RequestVar) : List UInt8 :=
  match paramOf v.limitName with
  | .int p =>
    if p = .site ∧ atoiInt v.val.val = 0 then bytes "0"
    else if (scanRange v.limitVal).isSome then bytes "1-2"
    else if 0x2D ∈ v.limitVal then bytes "-1"
    else bytes "1"
  | .date .dt =>
    if strcaseeq v.limitVal (bytes "back") then bytes "back"
    else if strcaseeq v.limitVal (bytes "er") then bytes "er"
    else if strcaseeq v.limitVal (bytes "range") then bytes "range"
    else bytes "x"
  | .date .dx => if Int32.ofInt (atoiInt v.limitVal) = -1 then bytes "-1" else bytes "1"
  | .date .dp => if udmDp2timeT v.limitVal = 0 then bytes "0" else bytes "1"
  | .date _ => bytes "1"
  | _ => bytes "x"

/-- A variable with a harmless value; the name of a section is harmless too. -/
def harmless (v : RequestVar) : RequestVar :=
  if Skipped v then ⟨v.name, CString.empty⟩
  else ⟨if paramOf v.limitName = .sl then CString.take (bytes "sl.x") else v.name, CString.take (harmlessVal v)⟩

/-- What is written of a variable in the literals of a kind. -/
def RequestVar.literals (v : RequestVar) (k : CondKind) : List (List UInt8) :=
  if Skipped v then []
  else
    match paramOf v.limitName with
    | .str p => if p.kind = k then [p.literal v.limitVal] else []
    | .sl => if CondKind.urlinfo = k then [v.limitName.drop 3, v.limitVal] else []
    | _ => []

/-- The literals of the limits, in the order in which the texts are joined. -/
def limitLiterals (vars : List RequestVar) : List (List UInt8) :=
  [CondKind.url, .ue, .tag, .lang, .cat, .type, .urlinfo].flatMap fun k => vars.flatMap fun v => v.literals k

/-- The literals for the names of sections that the source has. -/
def Constant (s : List UInt8) : Prop := s = bytes "Content-Language" ∨ s = bytes "Content-Type"

/-- **Nothing is written behind a buffer**, and the condition has the tokens of the one for harmless values, but for the
numbers and the literals. These are the values, as they are escaped, and constants. -/
def WhereSafe (clock : Clock) (DBSQL_IN needNew : Bool) (vars : List RequestVar) : Prop :=
  (udmSQLBuildWhereCondition clock DBSQL_IN needNew vars).overflow = false ∧
    ∀ text, (udmSQLBuildWhereCondition clock DBSQL_IN needNew vars).where_ = some text →
      ∃ text', (udmSQLBuildWhereCondition clock DBSQL_IN needNew (vars.map harmless)).where_ = some text' ∧
        ∃ constants, (∀ s ∈ constants, Constant s) ∧
          ∀ escapes, Similar escapes text text' (limitLiterals vars ++ constants)

/-- Every variable that is read has a name of less than 64 bytes and a value of less than 128 bytes. Nothing is read
behind a limit that is too long. -/
def Fits : List RequestVar → Prop
  | [] => True
  | v :: vars =>
    if Skipped v then Fits vars
    else if 128 < v.val.val.length ∧ udmFindStringParam v.name.val then True
    else v.name.val.length < 64 ∧ v.val.val.length < 128 ∧ Fits vars

/-! ## The harmless values are read like the values -/

section Harmless

variable {v : RequestVar}

theorem harmlessVal_mem (v : RequestVar) : harmlessVal v ∈ [bytes "0", bytes "1-2", bytes "-1", bytes "1", bytes "back",
    bytes "er", bytes "range", bytes "x"] := by
  rw [harmlessVal]
  split
  · split_ifs <;> simp
  · split_ifs <;> simp
  · split_ifs <;> simp
  · split_ifs <;> simp
  · simp
  · simp

theorem harmlessVal_spec (v : RequestVar) : (CString.take (harmlessVal v)).val = harmlessVal v ∧
    udmSQLEscStrSimple ((harmlessVal v).take 128) = harmlessVal v ∧ harmlessVal v ≠ [] ∧ (harmlessVal v).length ≤ 128 := by
  have hall : ∀ s ∈ [bytes "0", bytes "1-2", bytes "-1", bytes "1", bytes "back", bytes "er", bytes "range", bytes "x"],
      (CString.take s).val = s ∧ udmSQLEscStrSimple (s.take 128) = s ∧ s ≠ [] ∧ s.length ≤ 128 := by decide
  exact hall _ (harmlessVal_mem v)

theorem skipped_harmless (h : Skipped v) : Skipped (harmless v) := by
  rw [harmless, if_pos h]
  exact Or.inl rfl

theorem not_skipped_harmless (h : ¬Skipped v) : ¬Skipped (harmless v) := by
  obtain ⟨htake, -, hne, -⟩ := harmlessVal_spec v
  rw [harmless, if_neg h, Skipped, htake]
  refine not_or.mpr ⟨hne, ?_⟩
  split_ifs
  · exact show ¬64 < (CString.take (bytes "sl.x")).val.length by decide
  · exact (not_or.mp h).2

theorem limitVal_harmless (h : ¬Skipped v) : (harmless v).limitVal = harmlessVal v := by
  obtain ⟨htake, hesc, -, -⟩ := harmlessVal_spec v
  rw [harmless, if_neg h, RequestVar.limitVal, htake, hesc]

theorem paramOf_harmless (h : ¬Skipped v) : paramOf (harmless v).limitName = paramOf v.limitName := by
  rw [harmless, if_neg h, RequestVar.limitName]
  by_cases hsl : paramOf v.limitName = .sl
  · rw [if_pos hsl, hsl]
    exact show paramOf (udmSQLEscStrSimple (CString.take (bytes "sl.x")).val) = .sl by decide
  · rw [if_neg hsl]
    rfl

end Harmless

/-! ## Limits by time -/

/-- Two texts are empty, or have the same structure. -/
def TextLike (s s' : List UInt8) (literals : List (List UInt8)) : Prop :=
  (s = [] ∧ s' = [] ∧ literals = []) ∨ (s ≠ [] ∧ s' ≠ [] ∧ ∀ escapes, Similar escapes s s' literals)

/-- The same is known of two limits by time. -/
structure DateLike (d d' : UdmDateParam) : Prop where
  dt : d.dt = d'.dt
  dx : d.dx = 1 ↔ d'.dx = 1
  dp : d.dp = 0 ↔ d'.dp = 0

variable {v : RequestVar}

/-- **A limit by time is read.** -/
theorem DateLike.check {d d' : UdmDateParam} (h : DateLike d d') (clock : Clock) {p : DateParam}
    (hp : paramOf v.limitName = .date p) :
    DateLike (udmCheckDateParam clock d p v.limitVal) (udmCheckDateParam clock d' p (harmlessVal v)) := by
  cases p with
  | dt =>
    have hback : strcaseeq (bytes "back") (bytes "back") = true := by decide
    have her : strcaseeq (bytes "er") (bytes "back") = false ∧ strcaseeq (bytes "er") (bytes "er") = true := by decide
    have hrange : strcaseeq (bytes "range") (bytes "back") = false ∧ strcaseeq (bytes "range") (bytes "er") = false ∧
        strcaseeq (bytes "range") (bytes "range") = true := by decide
    have hother : strcaseeq (bytes "x") (bytes "back") = false ∧ strcaseeq (bytes "x") (bytes "er") = false ∧
        strcaseeq (bytes "x") (bytes "range") = false := by decide
    simp only [udmCheckDateParam, harmlessVal, hp]
    by_cases h₁ : strcaseeq v.limitVal (bytes "back") = true
    · simp only [if_pos h₁, if_pos hback]
      exact ⟨rfl, h.dx, h.dp⟩
    · simp only [if_neg h₁]
      by_cases h₂ : strcaseeq v.limitVal (bytes "er") = true
      · simp only [if_pos h₂, her.1, her.2]
        exact ⟨rfl, h.dx, h.dp⟩
      · simp only [if_neg h₂]
        by_cases h₃ : strcaseeq v.limitVal (bytes "range") = true
        · simp only [if_pos h₃, hrange.1, hrange.2.1, hrange.2.2]
          exact ⟨rfl, h.dx, h.dp⟩
        · simp only [if_neg h₃, hother.1, hother.2.1, hother.2.2]
          exact h
  | dx =>
    have hminus : Int32.ofInt (atoiInt (bytes "-1")) = -1 := by decide
    have hone : Int32.ofInt (atoiInt (bytes "1")) = 1 := by decide
    refine ⟨h.dt, ?_, h.dp⟩
    simp only [udmCheckDateParam, harmlessVal, hp]
    by_cases hneg : Int32.ofInt (atoiInt v.limitVal) = -1
    · rw [if_pos hneg, hneg, hminus]
    · rw [if_neg hneg, hone, if_pos (Or.inl rfl)]
      refine iff_of_true ?_ rfl
      by_cases hpos : Int32.ofInt (atoiInt v.limitVal) = 1
      · rw [if_pos (Or.inl hpos), hpos]
      · rw [if_neg (not_or.mpr ⟨hpos, hneg⟩)]
  | dp =>
    have hzero : udmDp2timeT (bytes "0") = 0 := by decide
    have hone : udmDp2timeT (bytes "1") ≠ 0 := by decide
    refine ⟨h.dt, h.dx, ?_⟩
    simp only [udmCheckDateParam, harmlessVal, hp]
    by_cases hval : udmDp2timeT v.limitVal = 0
    · rw [if_pos hval]
      exact iff_of_true hval hzero
    · rw [if_neg hval]
      exact iff_of_false hval hone
  | dm => exact ⟨h.dt, h.dx, h.dp⟩
  | dy => exact ⟨h.dt, h.dx, h.dp⟩
  | dd => exact ⟨h.dt, h.dx, h.dp⟩
  | dstmp => exact ⟨h.dt, h.dx, h.dp⟩
  | db => exact ⟨h.dt, h.dx, h.dp⟩
  | de => exact ⟨h.dt, h.dx, h.dp⟩

theorem similar_lastModTime {escapes : Bool} {c : UInt8} (hc : isDelim c = true) (n m : ℤ) :
    Similar escapes (bytes "url.last_mod_time" ++ 0x20 :: c :: 0x3D :: 0x20 :: decText n)
      (bytes "url.last_mod_time" ++ 0x20 :: c :: 0x3D :: 0x20 :: decText m) [] := by
  have hop : Similar escapes (c :: 0x3D :: 0x20 :: decText n) (c :: 0x3D :: 0x20 :: decText m) [] :=
    similar_delim (similar_delim (similar_delim (similar_decText n m) (by decide)) (by decide)) hc
  exact (Similar.word (show isLetter 0x75 = true by decide)
    (show ∀ d ∈ bytes "rl.last_mod_time", isWordChar d = true by decide)).append_delim hop (by decide)

/-- **The conditions for the times** have the same structure. -/
theorem DateLike.textLike {d d' : UdmDateParam} (h : DateLike d d') (clock : Clock) :
    TextLike (udmSQLWhereDateParam clock d) (udmSQLWhereDateParam clock d') [] := by
  have hge : bytes "url.last_mod_time >= " = bytes "url.last_mod_time" ++ [0x20, 0x3E, 0x3D, 0x20] := by decide
  have hle : bytes " AND url.last_mod_time <= " =
      0x20 :: (bytes "AND" ++ 0x20 :: (bytes "url.last_mod_time" ++ [0x20, 0x3C, 0x3D, 0x20])) := by decide
  have hblank : bytes "url.last_mod_time " = bytes "url.last_mod_time" ++ [0x20] := by decide
  have hops : bytes ">=" = [0x3E, 0x3D] ∧ bytes "<=" = [0x3C, 0x3D] ∧ bytes " " = [0x20] := by decide
  have hne : ∀ s : List UInt8, bytes "url.last_mod_time" ++ s ≠ [] := fun s =>
    List.append_ne_nil_of_left_ne_nil (show bytes "url.last_mod_time" ≠ [] by decide) s
  rw [udmSQLWhereDateParam, udmSQLWhereDateParam, ← h.dt]
  cases d.dt with
  | unknown => exact Or.inl ⟨rfl, rfl, rfl⟩
  | back =>
    by_cases hdp : d.dp = 0
    · simp only [hdp, h.dp.mp hdp, ne_eq, not_true_eq_false, if_false]
      exact Or.inl ⟨rfl, rfl, rfl⟩
    · simp only [ne_eq, hdp, mt h.dp.mpr hdp, not_false_eq_true, if_true, hge, List.append_assoc, List.cons_append,
        List.nil_append]
      exact Or.inr ⟨hne _, hne _, fun escapes => similar_lastModTime (by decide) _ _⟩
  | er =>
    by_cases hdx : d.dx = 1
    · simp only [hdx, h.dx.mp hdx, if_true, hblank, hops.1, hops.2.2, List.append_assoc, List.cons_append, List.nil_append]
      exact Or.inr ⟨hne _, hne _, fun escapes => similar_lastModTime (by decide) _ _⟩
    · simp only [hdx, mt h.dx.mpr hdx, if_false, hblank, hops.2.1, hops.2.2, List.append_assoc, List.cons_append,
        List.nil_append]
      exact Or.inr ⟨hne _, hne _, fun escapes => similar_lastModTime (by decide) _ _⟩
  | range =>
    have hand : ∀ escapes, Similar escapes (bytes "AND") (bytes "AND") [] := fun escapes =>
      .word (show isLetter 0x41 = true by decide) (show ∀ d ∈ bytes "ND", isWordChar d = true by decide)
    simp only [hge, hle, List.append_assoc, List.cons_append, List.nil_append]
    refine Or.inr ⟨hne _, hne _, fun escapes => ?_⟩
    have hboth := (@similar_lastModTime escapes 0x3E (by decide) d.DB.toInt d'.DB.toInt).append_delim
      ((hand escapes).append_delim (@similar_lastModTime escapes 0x3C (by decide) d.DE.toInt d'.DE.toInt)
        (show isDelim 0x20 = true by decide)) (show isDelim 0x20 = true by decide)
    simpa using hboth

/-! ## What is collected -/

/-- Conditions with constants only, behind a blank. -/
def ServerText (s : List UInt8) : Prop :=
  s = [] ∨ ∃ t l, s = 0x20 :: t ∧ (∀ c ∈ l, Constant c) ∧ ∀ escapes, Similar escapes t t l

theorem ServerText.append (h : ServerText s)
    (hm : ∀ c ∈ m, Constant c) (ht : ∀ escapes, Similar escapes t t m) : ServerText (s ++ 0x20 :: t) := by
  rcases h with rfl | ⟨b, l, rfl, hl, hb⟩
  · exact Or.inr ⟨t, m, rfl, hm, ht⟩
  · exact Or.inr ⟨b ++ 0x20 :: t, l ++ m, rfl, List.forall_mem_append.mpr ⟨hl, hm⟩, fun escapes =>
      (hb escapes).append_delim (ht escapes) (by decide)⟩

theorem similar_constant (hclosed : ∀ escapes, Closed escapes t)
    (hl : ∀ escapes, (lex escapes t).filterMap Token.literal = l) (escapes : Bool) : Similar escapes t t l :=
  ⟨hclosed escapes, hclosed escapes, rfl, hl escapes⟩

/-- What has been collected of the variables, and of the harmless ones. -/
structure WhereLike (st st' : WhereState) (literals : CondKind → List (List UInt8)) : Prop where
  /-- The texts of the kinds. -/
  cond : ∀ k, CondLike (st.cond k) (st'.cond k) (literals k)
  date : DateLike st.datep st'.datep
  /-- The tables are the same. -/
  same : st' = { st with cond := st'.cond, datep := st'.datep, overflow := st'.overflow }
  /-- The conditions that join the tables. -/
  server : ServerText st.server
  /-- The table with the categories is joined by a condition. -/
  joined : st.fromserver = false → st.server ≠ []
  cat : st.cond .cat ≠ [] → st.fromserver = false

section Collect

variable {st st' : WhereState} {literals : CondKind → List (List UInt8)}

theorem WhereLike.cond_update (h : WhereLike st st' literals) (k : CondKind) {f f' : List UInt8 → List UInt8}
    (hf : AddsLike f f' m) (j : CondKind) :
    CondLike ((st.update k f).cond j) ((st'.update k f').cond j) (literals j ++ if k = j then m else []) := by
  simp only [WhereState.update]
  by_cases hj : j = k
  · subst hj
    rw [Function.update_self, Function.update_self, if_pos rfl]
    exact (h.cond j).add hf
  · rw [Function.update_of_ne hj, Function.update_of_ne hj, if_neg (Ne.symm hj), List.append_nil]
    exact h.cond j

theorem joinTables_with (st : WhereState) (f : CondKind → List UInt8) (d : UdmDateParam) (o : Bool) (p : StrParam) :
    joinTables { st with cond := f, datep := d, overflow := o } p =
      { joinTables st p with cond := f, datep := d, overflow := o } := by
  cases p <;> simp only [joinTables] <;> split_ifs <;> rfl

@[simp] theorem joinTables_cond (st : WhereState) (p : StrParam) : (joinTables st p).cond = st.cond := by
  cases p <;> simp only [joinTables] <;> split_ifs <;> rfl

@[simp] theorem joinTables_datep (st : WhereState) (p : StrParam) : (joinTables st p).datep = st.datep := by
  cases p <;> simp only [joinTables] <;> split_ifs <;> rfl

@[simp] theorem joinTables_overflow (st : WhereState) (p : StrParam) : (joinTables st p).overflow = st.overflow := by
  cases p <;> simp only [joinTables] <;> split_ifs <;> rfl

theorem serverText_joinTables (h : ServerText st.server) (p : StrParam) : ServerText (joinTables st p).server := by
  cases p with
  | ul => exact h
  | ue => exact h
  | u => exact h
  | tag =>
    rw [joinTables]
    split_ifs
    · exact h.append (t := bytes "AND s.rec_id=url.server_id") (List.forall_mem_nil _)
        (similar_constant (by decide) (by decide))
    · exact h
  | lang =>
    rw [joinTables]
    split_ifs
    · exact h.append (t := bytes "AND il.url_id=url.rec_id AND il.sname='Content-Language'")
        (List.forall_mem_singleton.mpr (Or.inl rfl)) (similar_constant (by decide) (by decide))
    · exact h
  | cat =>
    rw [joinTables]
    split_ifs
    · exact h.append (t := bytes "AND s.rec_id=url.server_id AND s.category=c.rec_id") (List.forall_mem_nil _)
        (similar_constant (by decide) (by decide))
    · exact h
  | type =>
    rw [joinTables]
    split_ifs
    · exact h.append (t := bytes "AND it.url_id=url.rec_id AND it.sname='Content-Type'")
        (List.forall_mem_singleton.mpr (Or.inr rfl)) (similar_constant (by decide) (by decide))
    · exact h

theorem joinTables_spec (st : WhereState) (p : StrParam) : ∃ t, (joinTables st p).server = st.server ++ t ∧
    (st.fromserver = false → (joinTables st p).fromserver = false) ∧
    ((joinTables st p).fromserver = false → st.fromserver = false ∨ t ≠ []) ∧
    (p = .cat → (joinTables st p).fromserver = false) := by
  have hsame : ∀ {P : Prop}, ¬P → ∃ t, st.server = st.server ++ t ∧
      (st.fromserver = false → st.fromserver = false) ∧ (st.fromserver = false → st.fromserver = false ∨ t ≠ []) ∧
      (P → st.fromserver = false) := fun hP =>
    ⟨[], (List.append_nil _).symm, id, Or.inl, fun h => absurd h hP⟩
  cases p with
  | ul => exact hsame (show StrParam.ul ≠ .cat by decide)
  | ue => exact hsame (show StrParam.ue ≠ .cat by decide)
  | u => exact hsame (show StrParam.u ≠ .cat by decide)
  | tag =>
    rw [joinTables]
    split_ifs
    · exact ⟨_, rfl, fun _ => rfl, fun _ => Or.inr (by decide), fun _ => rfl⟩
    · exact hsame not_false
  | lang =>
    rw [joinTables]
    split_ifs
    · exact ⟨_, rfl, id, Or.inl, fun h => absurd h (by decide)⟩
    · exact hsame not_false
  | cat =>
    rw [joinTables]
    split_ifs with hs
    · exact ⟨_, rfl, fun _ => rfl, fun _ => Or.inr (by decide), fun _ => rfl⟩
    · exact ⟨[], (List.append_nil _).symm, id, Or.inl, fun _ => Bool.eq_false_iff.mpr hs⟩
  | type =>
    rw [joinTables]
    split_ifs
    · exact ⟨_, rfl, id, Or.inl, fun h => absurd h (by decide)⟩
    · exact hsame not_false

theorem serverText_isl (h : ServerText s) (n : ℕ) :
    ServerText (s ++ bytes " AND isl" ++ decText n ++ bytes ".url_id=url.rec_id") := by
  have hand : bytes " AND isl" = 0x20 :: (bytes "AND" ++ 0x20 :: bytes "isl") := by decide
  have hkey : bytes ".url_id=url.rec_id" = bytes ".url_id" ++ 0x3D :: bytes "url.rec_id" := by decide
  have happend := h.append (t := bytes "AND" ++ 0x20 :: (bytes "isl" ++ (decText n ++ bytes ".url_id") ++
    0x3D :: bytes "url.rec_id")) (List.forall_mem_nil _) fun escapes => ?_
  · rw [hand, hkey]
    simpa only [List.append_assoc, List.cons_append] using happend
  · have hurl : Similar escapes (bytes "url.rec_id") (bytes "url.rec_id") [] :=
      .word (show isLetter 0x75 = true by decide) (show ∀ d ∈ bytes "rl.rec_id", isWordChar d = true by decide)
    have hisl : Similar escapes (bytes "isl" ++ (decText n ++ bytes ".url_id"))
        (bytes "isl" ++ (decText n ++ bytes ".url_id")) [] :=
      similar_word_decText (show isLetter 0x69 = true by decide) (show ∀ d ∈ bytes "sl", isWordChar d = true by decide)
        (by decide) n
    have hword : Similar escapes (bytes "AND") (bytes "AND") [] :=
      .word (show isLetter 0x41 = true by decide) (show ∀ d ∈ bytes "ND", isWordChar d = true by decide)
    exact hword.append_delim (hisl.append_delim hurl (by decide)) (by decide)

theorem harmlessVal_int {p : IntParam} (hp : paramOf v.limitName = .int p)
    (hsite : ¬(p = .site ∧ atoiInt v.val.val = 0)) : (0x2D ∈ v.limitVal ↔ 0x2D ∈ harmlessVal v) ∧
      (scanRange v.limitVal).isSome = (scanRange (harmlessVal v)).isSome ∧ atoiInt (harmlessVal v) ≠ 0 := by
  have hrange : (0x2D : UInt8) ∈ bytes "1-2" ∧ (scanRange (bytes "1-2")).isSome = true ∧ atoiInt (bytes "1-2") ≠ 0 := by
    decide
  have hminus : (0x2D : UInt8) ∈ bytes "-1" ∧ (scanRange (bytes "-1")).isSome = false ∧ atoiInt (bytes "-1") ≠ 0 := by
    decide
  have hone : (0x2D : UInt8) ∉ bytes "1" ∧ (scanRange (bytes "1")).isSome = false ∧ atoiInt (bytes "1") ≠ 0 := by decide
  have hmem : (scanRange v.limitVal).isSome = true → 0x2D ∈ v.limitVal := by
    intro h
    by_contra hnot
    rw [scanRange] at h
    split at h
    · rename_i first s heq
      exact hnot (mem_of_scanInt heq List.mem_cons_self)
    · exact Bool.false_ne_true h
  simp only [harmlessVal, hp, if_neg hsite]
  by_cases h₁ : (scanRange v.limitVal).isSome = true
  · rw [if_pos h₁, hrange.2.1]
    exact ⟨iff_of_true (hmem h₁) hrange.1, h₁, hrange.2.2⟩
  · rw [if_neg h₁]
    have hfalse : (scanRange v.limitVal).isSome = false := Bool.eq_false_iff.mpr h₁
    by_cases h₂ : 0x2D ∈ v.limitVal
    · rw [if_pos h₂, hminus.2.1]
      exact ⟨iff_of_true h₂ hminus.1, hfalse, hminus.2.2⟩
    · rw [if_neg h₂, hone.2.1]
      exact ⟨iff_of_false h₂ hone.1, hfalse, hone.2.2⟩

/-- **A limit is added to both.** -/
theorem WhereLike.addParam (h : WhereLike st st' literals) (clock : Clock) (DBSQL_IN : Bool)
    (hv : ¬Skipped v) : WhereLike (addParam clock DBSQL_IN st v.limitName v.limitVal (atoiInt v.val.val))
      (addParam clock DBSQL_IN st' (harmless v).limitName (harmless v).limitVal (atoiInt (harmless v).val.val))
      (fun k => literals k ++ v.literals k) := by
  have hplain : Plain v.limitVal := ne_of_mem_escStrSimple
  have hplain' : Plain (harmlessVal v) := by
    rw [← limitVal_harmless hv]
    exact ne_of_mem_escStrSimple
  have hval : (harmless v).val.val = harmlessVal v := by
    rw [harmless, if_neg hv]
    exact (harmlessVal_spec v).1
  rw [limitVal_harmless hv, hval, Sql.addParam, Sql.addParam, paramOf_harmless hv]
  cases hp : paramOf v.limitName with
  | int p =>
    have hlit : ∀ k, v.literals k = [] := fun k => by rw [RequestVar.literals, if_neg hv, hp]
    simp only [hlit, List.append_nil]
    by_cases hsite : p = .site ∧ atoiInt v.val.val = 0
    · have hzero : harmlessVal v = bytes "0" := by rw [harmlessVal, hp]; exact if_pos hsite
      rw [if_pos hsite, hzero, if_pos ⟨hsite.1, by decide⟩]
      exact h
    · obtain ⟨hminus, hrange, hne⟩ := harmlessVal_int hp hsite
      rw [if_neg hsite, if_neg fun hs => hne hs.2]
      have hadd := addsLike_int p DBSQL_IN hminus hrange
      refine ⟨fun k => ?_, h.date, ?_, h.server, h.joined, fun hcat => h.cat ?_⟩
      · simpa using h.cond_update p.kind hadd k
      · obtain ⟨cond', datep', overflow', rfl⟩ : ∃ f d o, st' = { st with cond := f, datep := d, overflow := o } :=
          ⟨_, _, _, h.same⟩
        rfl
      · have hkind : CondKind.cat ≠ p.kind := by cases p <;> decide
        simpa only [WhereState.update, Function.update_of_ne hkind] using hcat
  | str p =>
    have hlit : ∀ k, v.literals k = if p.kind = k then [p.literal v.limitVal] else [] := fun k => by
      rw [RequestVar.literals, if_neg hv, hp]
    have hcond := h.cond_update p.kind (addsLike_str p hplain hplain')
    obtain ⟨t, hserver, hkeep, hnew, hmust⟩ :=
      joinTables_spec (st.update p.kind fun t => udmSQLWhereStrParam p t v.limitVal) p
    refine ⟨fun k => ?_, ?_, ?_, @serverText_joinTables (st.update p.kind _) h.server p, ?_, ?_⟩
    · rw [joinTables_cond, joinTables_cond, hlit]
      exact hcond k
    · rw [joinTables_datep, joinTables_datep]
      exact h.date
    · obtain ⟨cond', datep', overflow', rfl⟩ : ∃ f d o, st' = { st with cond := f, datep := d, overflow := o } :=
        ⟨_, _, _, h.same⟩
      simp only [WhereState.update, joinTables_with]
    · intro hfrom
      rw [hserver]
      rcases hnew hfrom with hold | ht
      · exact List.append_ne_nil_of_left_ne_nil (h.joined hold) t
      · exact List.append_ne_nil_of_right_ne_nil _ ht
    · intro hcat
      by_cases hkind : p = .cat
      · exact hmust hkind
      · have hne : CondKind.cat ≠ p.kind := by
          cases p with
          | cat => exact absurd rfl hkind
          | _ => decide
        rw [joinTables_cond] at hcat
        refine hkeep (h.cat ?_)
        simpa only [WhereState.update, Function.update_of_ne hne] using hcat
  | sl =>
    have hlit : ∀ k, v.literals k = if CondKind.urlinfo = k then [v.limitName.drop 3, v.limitVal] else [] := fun k => by
      rw [RequestVar.literals, if_neg hv, hp]
    have hname : Plain (v.limitName.drop 3) := fun c hc => ne_of_mem_escStrSimple c (List.mem_of_mem_drop hc)
    have hname' : Plain ((harmless v).limitName.drop 3) := fun c hc => ne_of_mem_escStrSimple c (List.mem_of_mem_drop hc)
    have hcond := h.cond_update .urlinfo (addsLike_sl st.fromurlinfo hname hname' hplain hplain')
    have hnum : st'.fromurlinfo = st.fromurlinfo := by rw [h.same]
    refine ⟨fun k => ?_, h.date, ?_, ?_, fun hfrom => ?_, fun hcat => h.cat ?_⟩
    · rw [hlit, hnum]
      exact hcond k
    · obtain ⟨cond', datep', overflow', rfl⟩ : ∃ f d o, st' = { st with cond := f, datep := d, overflow := o } :=
        ⟨_, _, _, h.same⟩
      rfl
    · exact serverText_isl h.server st.fromurlinfo
    · exact List.append_ne_nil_of_right_ne_nil _ (show bytes ".url_id=url.rec_id" ≠ [] by decide)
    · simpa only [WhereState.update, Function.update_of_ne (show CondKind.cat ≠ .urlinfo by decide)] using hcat
  | date p =>
    have hlit : ∀ k, v.literals k = [] := fun k => by rw [RequestVar.literals, if_neg hv, hp]
    simp only [hlit, List.append_nil]
    refine ⟨h.cond, h.date.check clock hp, ?_, h.server, h.joined, h.cat⟩
    obtain ⟨cond', datep', overflow', rfl⟩ : ∃ f d o, st' = { st with cond := f, datep := d, overflow := o } :=
      ⟨_, _, _, h.same⟩
    rfl
  | other =>
    have hlit : ∀ k, v.literals k = [] := fun k => by rw [RequestVar.literals, if_neg hv, hp]
    simp only [hlit, List.append_nil]
    exact h

theorem WhereLike.overflow (h : WhereLike st st' literals) (o o' : Bool) :
    WhereLike { st with overflow := o } { st' with overflow := o' } literals := by
  refine ⟨h.cond, h.date, ?_, h.server, h.joined, h.cat⟩
  obtain ⟨cond', datep', overflow', rfl⟩ : ∃ f d o, st' = { st with cond := f, datep := d, overflow := o } :=
    ⟨_, _, _, h.same⟩
  rfl

/-- **A round of the loop.** -/
theorem WhereLike.addVar (h : WhereLike st st' literals) (clock : Clock) (DBSQL_IN : Bool)
    (hv : ¬Skipped v) : WhereLike (addVar clock DBSQL_IN st v) (addVar clock DBSQL_IN st' (harmless v))
      (fun k => literals k ++ v.literals k) := (h.overflow _ _).addParam clock DBSQL_IN hv

/-- **What is collected** has the same structure, when no limit is too long. -/
theorem WhereLike.collect (h : WhereLike st st' literals) (clock : Clock) (DBSQL_IN : Bool) (vars : List RequestVar)
    (hok : (collect clock DBSQL_IN vars st).2 = true) : (collect clock DBSQL_IN (vars.map harmless) st').2 = true ∧
      WhereLike (collect clock DBSQL_IN vars st).1 (collect clock DBSQL_IN (vars.map harmless) st').1
        (fun k => literals k ++ vars.flatMap fun v => v.literals k) := by
  induction vars generalizing st st' literals with
  | nil =>
    refine ⟨rfl, ?_⟩
    simp only [List.flatMap_nil, List.append_nil]
    exact h
  | cons v vars ih =>
    simp only [List.flatMap_cons, ← List.append_assoc]
    rw [Sql.collect] at hok ⊢
    rw [List.map_cons, Sql.collect]
    by_cases hv : Skipped v
    · rw [if_pos (show v.val.val = [] ∨ 64 < v.name.val.length from hv)] at hok ⊢
      rw [if_pos (show (harmless v).val.val = [] ∨ 64 < (harmless v).name.val.length from skipped_harmless hv)]
      have hlit : ∀ k, v.literals k = [] := fun k => by rw [RequestVar.literals, if_pos hv]
      simp only [hlit, List.append_nil]
      exact ih h hok
    · have hval : (harmless v).val.val = harmlessVal v := by
        rw [harmless, if_neg hv]
        exact (harmlessVal_spec v).1
      have hshort : ¬(128 < (harmless v).val.val.length ∧ udmFindStringParam (harmless v).name.val = true) := fun hl => by
        have hle := (harmlessVal_spec v).2.2.2
        rw [← hval] at hle
        exact absurd hl.1 (Nat.not_lt.mpr hle)
      rw [if_neg (show ¬(v.val.val = [] ∨ 64 < v.name.val.length) from hv)] at hok ⊢
      rw [if_neg (show ¬((harmless v).val.val = [] ∨ 64 < (harmless v).name.val.length) from not_skipped_harmless hv),
        if_neg hshort]
      by_cases hlong : 128 < v.val.val.length ∧ udmFindStringParam v.name.val = true
      · rw [if_pos hlong] at hok
        exact absurd hok Bool.false_ne_true
      · rw [if_neg hlong] at hok ⊢
        exact ih (h.addVar clock DBSQL_IN hv) hok

theorem whereLike_init (clock : Clock) : WhereLike (whereStateInit clock) (whereStateInit clock) fun _ => [] :=
  ⟨fun _ => Or.inl ⟨rfl, rfl, rfl⟩, ⟨rfl, Iff.rfl, Iff.rfl⟩, rfl, Or.inl rfl, fun h => absurd h.symm Bool.false_ne_true,
    fun h => absurd rfl h⟩

end Collect

/-! ## The texts are joined -/

theorem CondLike.textLike (h : CondLike s s' l) : TextLike s s' l := by
  rcases h with h | ⟨b, b', rfl, rfl, hsim⟩
  · exact Or.inl h
  · refine Or.inr ⟨List.append_ne_nil_of_right_ne_nil b (List.cons_ne_nil _ _),
      List.append_ne_nil_of_right_ne_nil b' (List.cons_ne_nil _ _), fun escapes => ?_⟩
    have hclose := (hsim escapes).append_delim .nil (show isDelim 0x29 = true by decide)
    rwa [List.append_nil] at hclose

/-- **`AND` between two texts.** -/
theorem TextLike.addAnd {t' : List UInt8} (hs : TextLike s s' l) (ht : TextLike t t' m) :
    TextLike (whereConditionAddAnd s t) (whereConditionAddAnd s' t') (l ++ m) := by
  have hjoin : bytes " AND " = 0x20 :: (bytes "AND" ++ [0x20]) := by decide
  have hand : ∀ escapes, Similar escapes (bytes "AND") (bytes "AND") [] := fun escapes =>
    .word (show isLetter 0x41 = true by decide) (show ∀ d ∈ bytes "ND", isWordChar d = true by decide)
  rw [whereConditionAddAnd, whereConditionAddAnd]
  rcases ht with ⟨rfl, rfl, rfl⟩ | ⟨htne, htne', ht⟩
  · rw [if_pos rfl, if_pos rfl, List.append_nil]
    exact hs
  · rw [if_neg htne, if_neg htne']
    rcases hs with ⟨rfl, rfl, rfl⟩ | ⟨hsne, hsne', hs⟩
    · rw [if_pos rfl, if_pos rfl]
      exact Or.inr ⟨htne, htne', ht⟩
    · rw [if_neg hsne, if_neg hsne']
      refine Or.inr ⟨List.append_ne_nil_of_right_ne_nil _ htne, List.append_ne_nil_of_right_ne_nil _ htne', fun escapes => ?_⟩
      have hboth := (hs escapes).append_delim ((hand escapes).append_delim (ht escapes) (show isDelim 0x20 = true by decide))
        (show isDelim 0x20 = true by decide)
      rw [hjoin]
      simpa using hboth

theorem TextLike.server (h : TextLike s s' l) {server : List UInt8}
    (hserver : ServerText server) : ∃ m, (∀ c ∈ m, Constant c) ∧
      TextLike (if server = [] then s else (if s = [] then bytes " 1=1 " else s) ++ server)
        (if server = [] then s' else (if s' = [] then bytes " 1=1 " else s') ++ server) (l ++ m) := by
  rcases hserver with rfl | ⟨t, m, rfl, hm, ht⟩
  · refine ⟨[], List.forall_mem_nil _, ?_⟩
    rw [if_pos rfl, if_pos rfl, List.append_nil]
    exact h
  · refine ⟨m, hm, ?_⟩
    have hne : ∀ u : List UInt8, u ++ 0x20 :: t ≠ [] := fun u =>
      List.append_ne_nil_of_right_ne_nil u (List.cons_ne_nil _ _)
    rw [if_neg (List.cons_ne_nil _ _), if_neg (List.cons_ne_nil _ _)]
    refine Or.inr ⟨hne _, hne _, fun escapes => ?_⟩
    rcases h with ⟨rfl, rfl, rfl⟩ | ⟨hs, hs', hsim⟩
    · rw [if_pos rfl]
      exact (similar_constant (l := []) (by decide) (by decide) escapes).append_delim (ht escapes) (by decide)
    · rw [if_neg hs, if_neg hs']
      exact (hsim escapes).append_delim (ht escapes) (by decide)

theorem textLike_needNewStr (needNew : Bool) : TextLike (needNewStr needNew) (needNewStr needNew) [] := by
  cases needNew with
  | false => exact Or.inl ⟨rfl, rfl, rfl⟩
  | true =>
    have hne : needNewStr true ≠ [] := by decide
    exact Or.inr ⟨hne, hne, similar_constant (by decide) (by decide)⟩

/-- **The whole condition.** -/
theorem WhereLike.buildWhere {st st' : WhereState} {literals : CondKind → List (List UInt8)} (h : WhereLike st st' literals)
    (hint : ∀ p : IntParam, literals p.kind = []) (clock : Clock) (needNew : Bool) : ∃ m, (∀ c ∈ m, Constant c) ∧
      TextLike (buildWhere clock needNew st) (buildWhere clock needNew st')
        ([CondKind.url, .ue, .tag, .lang, .cat, .type, .urlinfo].flatMap literals ++ m) := by
  have hserver : st'.server = st.server := by rw [h.same]
  have hcond : ∀ k, TextLike (st.cond k) (st'.cond k) (literals k) := fun k => (h.cond k).textLike
  have hlimits := ((((((((((hcond .url).addAnd (hcond .ue)).addAnd (hcond .seed)).addAnd (hcond .status)).addAnd
    (hcond .site)).addAnd (hcond .tag)).addAnd (hcond .lang)).addAnd (hcond .cat)).addAnd (hcond .type)).addAnd
    (hcond .urlinfo)).addAnd (h.date.textLike clock)
  rw [show literals .seed = [] from hint .seed, show literals .status = [] from hint .status,
    show literals .site = [] from hint .site] at hlimits
  obtain ⟨m, hm, hjoined⟩ := hlimits.server h.server
  refine ⟨m, hm, ?_⟩
  have htext := hjoined.addAnd (textLike_needNewStr needNew)
  simp only [List.append_nil, List.append_assoc] at htext
  simp only [List.flatMap_cons, List.flatMap_nil, List.append_nil, List.append_assoc]
  rw [Sql.buildWhere, Sql.buildWhere, hserver]
  exact htext

theorem WhereLike.not_noLimits {st st' : WhereState} {literals : CondKind → List (List UInt8)} (h : WhereLike st st' literals)
    (clock : Clock) (needNew : Bool) : ¬noLimits clock needNew st := by
  rintro ⟨-, -, hcat, -, -, -, -, -, -, hserver, -⟩
  exact h.joined (h.cat hcat) hserver

theorem WhereLike.not_noLimits' {st st' : WhereState} {literals : CondKind → List (List UInt8)}
    (h : WhereLike st st' literals) (clock : Clock) (needNew : Bool) : ¬noLimits clock needNew st' := by
  rintro ⟨-, -, hcat', -, -, -, -, -, -, hserver, -⟩
  rw [h.same] at hserver
  refine h.joined (h.cat fun hcat => ?_) hserver
  rcases (h.cond .cat).textLike with ⟨-, hnil, -⟩ | ⟨hne, -, -⟩
  · exact hcat' hnil
  · exact hne hcat

theorem literals_intParam (v : RequestVar) (p : IntParam) : v.literals p.kind = [] := by
  rw [RequestVar.literals]
  by_cases hv : Skipped v
  · rw [if_pos hv]
  · rw [if_neg hv]
    have hstr : ∀ q : StrParam, q.kind ≠ p.kind := fun q => by cases q <;> cases p <;> decide
    have hsl : CondKind.urlinfo ≠ p.kind := by cases p <;> decide
    cases paramOf v.limitName with
    | str q => exact if_neg (hstr q)
    | sl => exact if_neg hsl
    | int q => rfl
    | date q => rfl
    | other => rfl

/-- **The condition for harmless values** has the same structure. -/
theorem similar_buildWhereCondition (clock : Clock) (DBSQL_IN needNew : Bool) {vars : List RequestVar} {text : List UInt8}
    (h : (udmSQLBuildWhereCondition clock DBSQL_IN needNew vars).where_ = some text) :
    ∃ text', (udmSQLBuildWhereCondition clock DBSQL_IN needNew (vars.map harmless)).where_ = some text' ∧
      ∃ constants, (∀ s ∈ constants, Constant s) ∧
        ∀ escapes, Similar escapes text text' (limitLiterals vars ++ constants) := by
  simp only [udmSQLBuildWhereCondition] at h ⊢
  by_cases hok : (collect clock DBSQL_IN vars (whereStateInit clock)).2 = true
  · obtain ⟨hok', hlike⟩ := (whereLike_init clock).collect clock DBSQL_IN vars hok
    rw [if_pos hok, if_neg (hlike.not_noLimits clock needNew)] at h
    rw [if_pos hok', if_neg (hlike.not_noLimits' clock needNew), ← Option.some.inj h]
    obtain ⟨m, hm, htext⟩ := hlike.buildWhere (fun p => by simp [literals_intParam]) clock needNew
    simp only [List.nil_append] at htext
    refine ⟨_, rfl, m, hm, fun escapes => ?_⟩
    rcases htext with ⟨hs, hs', hnil⟩ | ⟨-, -, hsim⟩
    · rw [hs, hs', limitLiterals, hnil]
      exact .nil
    · exact hsim escapes
  · rw [if_neg hok] at h
    exact absurd h (Option.some_ne_none _).symm

/-! ## The buffers -/

@[simp] theorem overflow_addParam (clock : Clock) (DBSQL_IN : Bool) (st : WhereState) (var val : List UInt8) (n : ℤ) :
    (addParam clock DBSQL_IN st var val n).overflow = st.overflow := by
  rw [addParam]
  cases paramOf var with
  | int p =>
    simp only
    split_ifs <;> rfl
  | str p => exact joinTables_overflow _ p
  | sl => rfl
  | date p => rfl
  | other => rfl

theorem overflow_escapeSimple {size : ℕ} {src : List UInt8} (h : src.length ≤ size) :
    (escapeSimple size src).overflow = false ↔ src.length < size := by
  have hlen : (udmSQLEscStrSimple src ++ [0]).length = src.length + 1 := by
    rw [List.length_append, udmSQLEscStrSimple, List.length_map, List.length_singleton]
  rw [escapeSimple]
  constructor
  · intro hfalse
    by_contra hge
    have htrue := Buffer.overflow_writes_of_lt (b := ⟨List.replicate size 0, false⟩) (i := 0) (s := udmSQLEscStrSimple src ++ [0])
      (Nat.zero_le _) (by simp only [List.length_replicate, hlen]; omega)
    rw [htrue] at hfalse
    exact Bool.false_ne_true hfalse.symm
  · intro hlt
    rw [Buffer.overflow_writes_of_le (by simp only [List.length_replicate, hlen]; omega)]

/-- **Nothing is written behind a buffer** exactly where all that is read fits. -/
theorem overflow_collect (clock : Clock) (DBSQL_IN : Bool) (vars : List RequestVar) (st : WhereState) :
    (collect clock DBSQL_IN vars st).1.overflow = false ↔ st.overflow = false ∧ Fits vars := by
  induction vars generalizing st with
  | nil => simp [collect, Fits]
  | cons v vars ih =>
    rw [collect, Fits]
    by_cases hv : Skipped v
    · rw [if_pos (show v.val.val = [] ∨ 64 < v.name.val.length from hv), if_pos hv, ih]
    · rw [if_neg (show ¬(v.val.val = [] ∨ 64 < v.name.val.length) from hv), if_neg hv]
      by_cases hlong : 128 < v.val.val.length ∧ udmFindStringParam v.name.val = true
      · rw [if_pos hlong, if_pos hlong, and_iff_left trivial]
      · have hname := @overflow_escapeSimple 64 v.name.val (Nat.not_lt.mp (not_or.mp hv).2)
        have hval := @overflow_escapeSimple 128 (v.val.val.take 128) (List.length_take_le _ _)
        have htake : (v.val.val.take 128).length < 128 ↔ v.val.val.length < 128 := by
          rw [List.length_take]
          omega
        rw [if_neg hlong, if_neg hlong, ih, addVar, overflow_addParam]
        simp only [Bool.or_eq_false_iff, hname, hval, htake, and_assoc]

theorem overflow_buildWhereCondition (clock : Clock) (DBSQL_IN needNew : Bool) (vars : List RequestVar) :
    (udmSQLBuildWhereCondition clock DBSQL_IN needNew vars).overflow = false ↔ Fits vars :=
  (overflow_collect clock DBSQL_IN vars (whereStateInit clock)).trans (and_iff_right rfl)

/-- **The limits are safe exactly where every variable that is read has a name of less than 64 bytes and a value of less
than 128 bytes.** -/
theorem whereSafe_iff (clock : Clock) (DBSQL_IN needNew : Bool) (vars : List RequestVar) :
    WhereSafe clock DBSQL_IN needNew vars ↔ Fits vars := by
  rw [WhereSafe, overflow_buildWhereCondition]
  exact and_iff_left fun text htext => similar_buildWhereCondition clock DBSQL_IN needNew htext

theorem not_fits (hname : v.name.val.length = 64) (hne : v.val.val ≠ [])
    (hval : v.val.val.length ≤ 128) : ¬Fits [v] := by
  have hv : ¬Skipped v := not_or.mpr ⟨hne, by omega⟩
  have hshort : ¬(128 < v.val.val.length ∧ udmFindStringParam v.name.val = true) := fun h => absurd h.1 (Nat.not_lt.mpr hval)
  rw [Fits, if_neg hv, if_neg hshort, hname]
  exact fun h => lt_irrefl 64 h.1

theorem not_forall_whereSafe : ¬∀ (clock : Clock) (DBSQL_IN needNew : Bool) (vars : List RequestVar),
    WhereSafe clock DBSQL_IN needNew vars := by
  intro h
  have hsafe := (h ⟨0, fun _ => 0⟩ true false [⟨CString.take (List.replicate 64 0x61), CString.take (bytes "1")⟩]).1
  exact not_fits (by decide) (by decide) (by decide) ((overflow_buildWhereCondition _ _ _ _).mp hsafe)

end MnoGoSearch.Sql
