import MnoGoSearch.Lib.SqlCondition
import MnoGoSearch.Nntp.Client
import MnoGoSearch.Url.Idempotent
import Mathlib

/-!
# Limits by numbers

The condition for a parameter like `status` that may be given more than once, each time as a number or as a range
(`UdmSQLWhereIntParam`, `sql.c`). Where the database knows `IN`, numbers are collected in a list and ranges are joined
by `OR`; the closing parenthesis is taken back for each new value. `whereRight_iff` says when this comes to a condition
for the values.
-/

namespace MnoGoSearch.Sql

set_option maxRecDepth 2000

open Lib.SqlCondition Url Http Nntp

/-! ## The condition -/

/-- The parameters with numbers. -/
inductive IntParam where
  | status
  | seed
  | site
  deriving DecidableEq

/-- `sqlname`. -/
def IntParam.sqlname : IntParam → List UInt8
  | .status => bytes "url.status"
  | .seed => bytes "url.seed"
  | .site => bytes "url.site_id"

/-- `UdmSQLWhereAddJoiner`. -/
def udmSQLWhereAddJoiner (dstr joiner : List UInt8) : List UInt8 :=
  if dstr ≠ [] then dstr.dropLast ++ joiner else bytes "("

/-- `sscanf(val, "%d-%d", &first, &second)`, where it returns 2. -/
def scanRange (val : List UInt8) : Option (Int32 × Int32) :=
  match scanInt val with
  | some (first, 0x2D :: s) => (scanInt s).map fun r => (first, r.1)
  | _ => none

/-- `UdmSQLWhereIntParam`; `DBSQL_IN` says that the database knows `IN`. -/
def udmSQLWhereIntParam (DBSQL_IN : Bool) (sqlname dstr val : List UInt8) : List UInt8 :=
  if DBSQL_IN = true ∧ 0x2D ∉ val then
    if dstr = [] then bytes " " ++ sqlname ++ bytes " IN (" ++ decText (atoiInt val) ++ bytes ")"
    else dstr.dropLast ++ (bytes "," ++ decText (atoiInt val) ++ bytes ")")
  else
    udmSQLWhereAddJoiner dstr (bytes " OR ") ++
      match scanRange val with
      | some (first, second) =>
        sqlname ++ bytes ">=" ++ decText first.toInt ++ bytes " AND " ++ sqlname ++ bytes "<=" ++ decText second.toInt ++
          bytes ")"
      | none => sqlname ++ bytes "=" ++ decText (atoiInt val) ++ bytes ")"

/-- The condition for some values. -/
def whereInt (DBSQL_IN : Bool) (sqlname : List UInt8) (vals : List (List UInt8)) : List UInt8 :=
  vals.foldl (udmSQLWhereIntParam DBSQL_IN sqlname) []

/-! ## What is wanted -/

/-- What a value stands for. -/
inductive ParamItem where
  | value (n : ℤ)
  | range (first second : ℤ)

/-- The text of a value. -/
def paramItem (val : List UInt8) : ParamItem :=
  match scanRange val with
  | some (first, second) => .range first.toInt second.toInt
  | none => .value (atoiInt val)

/-- A number is the value, or lies in the range. -/
def ParamItem.Has (x : ℤ) : ParamItem → Prop
  | .value n => x = n
  | .range first second => first ≤ x ∧ x ≤ second

/-- Without values there is no condition; else it is well-formed, and satisfied by the numbers that one of the values
has. -/
def WhereRight (sqlname : List UInt8) (vals : List (List UInt8)) (text : List UInt8) : Prop :=
  if vals = [] then text = []
  else ∃ c, Derives sqlname decText .expr (lex text) c ∧ ∀ x, c.Holds x ↔ ∃ val ∈ vals, (paramItem val).Has x

/-! ## The values as they are written -/

theorem isdigit_of_mem_decText {p : ℤ} {c : UInt8} (h : c ∈ decText p) : isdigit c = true ∨ c = 0x2D := by
  by_contra hc
  obtain ⟨hdigit, hminus⟩ := not_or.mp hc
  exact not_mem_decText (Bool.eq_false_iff.mpr hdigit) hminus h

/-! ## The pieces of the condition -/

/-- A value that is put in a list. -/
def Listed (DBSQL_IN : Bool) (val : List UInt8) : Prop := DBSQL_IN = true ∧ 0x2D ∉ val

instance (DBSQL_IN : Bool) (val : List UInt8) : Decidable (Listed DBSQL_IN val) := inferInstanceAs (Decidable (_ ∧ _))

/-- The comparison for a value. -/
def cmpText (sqlname : List UInt8) : ParamItem → List UInt8
  | .value n => sqlname ++ 0x3D :: decText n
  | .range first second =>
    sqlname ++ 0x3E :: 0x3D :: (decText first ++ 0x20 :: 0x41 :: 0x4E :: 0x44 :: 0x20 ::
      (sqlname ++ 0x3C :: 0x3D :: decText second))

/-- Its tokens. -/
def cmpTokens (sqlname : List UInt8) : ParamItem → List Token
  | .value n => [.word sqlname, .sym 0x3D, .word (decText n)]
  | .range first second =>
    [.word sqlname, .sym 0x3E, .sym 0x3D, .word (decText first), andWord, .word sqlname, .sym 0x3C, .sym 0x3D,
      .word (decText second)]

section Pieces

variable (DBSQL_IN : Bool) (sqlname : List UInt8)

/-- What the first value adds, without the closing parenthesis. -/
def firstText (val : List UInt8) : List UInt8 :=
  if Listed DBSQL_IN val then 0x20 :: (sqlname ++ 0x20 :: 0x49 :: 0x4E :: 0x20 :: 0x28 :: decText (atoiInt val))
  else 0x28 :: cmpText sqlname (paramItem val)

/-- What another value adds. -/
def nextText (val : List UInt8) : List UInt8 :=
  if Listed DBSQL_IN val then 0x2C :: decText (atoiInt val)
  else 0x20 :: 0x4F :: 0x52 :: 0x20 :: cmpText sqlname (paramItem val)

/-- The tokens of the first value. -/
def firstTokens (val : List UInt8) : List Token :=
  if Listed DBSQL_IN val then [.word sqlname, inWord, lpar, .word (decText (atoiInt val))]
  else lpar :: cmpTokens sqlname (paramItem val)

/-- The tokens of another value. -/
def nextTokens (val : List UInt8) : List Token :=
  if Listed DBSQL_IN val then [comma, .word (decText (atoiInt val))] else orWord :: cmpTokens sqlname (paramItem val)

theorem cmpText_eq (val : List UInt8) :
    (match scanRange val with
      | some (first, second) =>
        sqlname ++ bytes ">=" ++ decText first.toInt ++ bytes " AND " ++ sqlname ++ bytes "<=" ++ decText second.toInt ++
          bytes ")"
      | none => sqlname ++ bytes "=" ++ decText (atoiInt val) ++ bytes ")") =
      cmpText sqlname (paramItem val) ++ [0x29] := by
  have hge : bytes ">=" = [0x3E, 0x3D] := by decide
  have hle : bytes "<=" = [0x3C, 0x3D] := by decide
  have heq : bytes "=" = [0x3D] := by decide
  have hand : bytes " AND " = [0x20, 0x41, 0x4E, 0x44, 0x20] := by decide
  have hpar : bytes ")" = [0x29] := by decide
  rw [hge, hle, heq, hand, hpar, paramItem]
  cases scanRange val with
  | none => simp [cmpText]
  | some r => simp [cmpText]

theorem udmSQLWhereIntParam_first (val : List UInt8) :
    udmSQLWhereIntParam DBSQL_IN sqlname [] val = firstText DBSQL_IN sqlname val ++ [0x29] := by
  rw [udmSQLWhereIntParam, firstText]
  by_cases hlisted : Listed DBSQL_IN val
  · have hblank : bytes " " = [0x20] := by decide
    have hin : bytes " IN (" = [0x20, 0x49, 0x4E, 0x20, 0x28] := by decide
    have hpar : bytes ")" = [0x29] := by decide
    rw [if_pos (show DBSQL_IN = true ∧ 0x2D ∉ val from hlisted), if_pos rfl, if_pos hlisted, hblank, hin, hpar]
    simp
  · have hopen : bytes "(" = [0x28] := by decide
    rw [if_neg (show ¬ (DBSQL_IN = true ∧ 0x2D ∉ val) from hlisted), if_neg hlisted, cmpText_eq, udmSQLWhereAddJoiner,
      if_neg (by simp), hopen]
    rfl

theorem udmSQLWhereIntParam_next (d val : List UInt8) :
    udmSQLWhereIntParam DBSQL_IN sqlname (d ++ [0x29]) val = d ++ nextText DBSQL_IN sqlname val ++ [0x29] := by
  have hne : d ++ [0x29] ≠ [] := by simp
  rw [udmSQLWhereIntParam, nextText]
  by_cases hlisted : Listed DBSQL_IN val
  · have hcomma : bytes "," = [0x2C] := by decide
    have hpar : bytes ")" = [0x29] := by decide
    rw [if_pos (show DBSQL_IN = true ∧ 0x2D ∉ val from hlisted), if_neg hne, if_pos hlisted, hcomma, hpar,
      List.dropLast_concat]
    simp
  · have hor : bytes " OR " = [0x20, 0x4F, 0x52, 0x20] := by decide
    rw [if_neg (show ¬ (DBSQL_IN = true ∧ 0x2D ∉ val) from hlisted), if_neg hlisted, cmpText_eq, udmSQLWhereAddJoiner,
      if_pos hne, hor, List.dropLast_concat]
    simp

theorem whereInt_cons (val : List UInt8) (vals : List (List UInt8)) :
    whereInt DBSQL_IN sqlname (val :: vals) =
      firstText DBSQL_IN sqlname val ++ (vals.flatMap (nextText DBSQL_IN sqlname) ++ [0x29]) := by
  have hrest : ∀ d, vals.foldl (udmSQLWhereIntParam DBSQL_IN sqlname) (d ++ [0x29]) =
      d ++ (vals.flatMap (nextText DBSQL_IN sqlname) ++ [0x29]) := by
    induction vals with
    | nil => simp
    | cons v vals ih =>
      intro d
      rw [List.foldl_cons, udmSQLWhereIntParam_next, ih, List.flatMap_cons]
      simp
  rw [whereInt, List.foldl_cons, udmSQLWhereIntParam_first, hrest]

end Pieces

/-! ## Their tokens -/

section Tokens

variable {p : IntParam} {DBSQL_IN : Bool} {c : UInt8}

theorem lex_sqlname (hc : isWordChar c = false) (s : List UInt8) :
    lex (p.sqlname ++ c :: s) = .word p.sqlname :: lex (c :: s) :=
  lex_word (by cases p <;> decide) (by cases p <;> decide) hc s

theorem lex_decText {n : ℤ} (hc : isWordChar c = false) (s : List UInt8) :
    lex (decText n ++ c :: s) = .word (decText n) :: lex (c :: s) := by
  refine lex_word (fun d hd => ?_) (decText_ne_nil n) hc s
  rcases isdigit_of_mem_decText hd with hdigit | rfl
  · exact @forall_byte (fun d => isdigit d = true → isWordChar d = true) (by decide +kernel) d hdigit
  · decide

theorem lex_keyword {w : List UInt8} (hw : ∀ c ∈ w, isWordChar c = true) (hne : w ≠ []) (s : List UInt8) :
    lex (0x20 :: (w ++ 0x20 :: s)) = .word w :: lex s := by
  rw [lex_blank, lex_word hw hne (by decide), lex_blank]

theorem lex_cmpText (item : ParamItem) (hc : isWordChar c = false) (s : List UInt8) :
    lex (cmpText p.sqlname item ++ c :: s) = cmpTokens p.sqlname item ++ lex (c :: s) := by
  cases item with
  | value n =>
    rw [cmpText, List.append_assoc, List.cons_append, lex_sqlname (by decide), lex_sym (by decide) (by decide),
      lex_decText hc]
    rfl
  | range first second =>
    simp only [cmpText, List.append_assoc, List.cons_append]
    rw [lex_sqlname (by decide), lex_sym (by decide) (by decide), lex_sym (by decide) (by decide),
      lex_decText (by decide)]
    have hand := @lex_keyword [0x41, 0x4E, 0x44] (by decide) (by decide)
      (p.sqlname ++ 0x3C :: 0x3D :: (decText second ++ c :: s))
    rw [List.cons_append, List.cons_append, List.cons_append, List.nil_append] at hand
    rw [hand, lex_sqlname (by decide), lex_sym (by decide) (by decide), lex_sym (by decide) (by decide), lex_decText hc]
    rfl

theorem lex_firstText (val : List UInt8) (hc : isWordChar c = false) (s : List UInt8) :
    lex (firstText DBSQL_IN p.sqlname val ++ c :: s) = firstTokens DBSQL_IN p.sqlname val ++ lex (c :: s) := by
  rw [firstText, firstTokens]
  split_ifs with hlisted
  · simp only [List.append_assoc, List.cons_append]
    have hin := @lex_keyword [0x49, 0x4E] (by decide) (by decide) (0x28 :: (decText (atoiInt val) ++ c :: s))
    rw [List.cons_append, List.cons_append, List.nil_append] at hin
    rw [lex_blank, lex_sqlname (by decide), hin, lex_sym (by decide) (by decide), lex_decText hc]
    rfl
  · rw [List.cons_append, lex_sym (by decide) (by decide), lex_cmpText _ hc]
    rfl

theorem lex_nextText (val : List UInt8) {c : UInt8} (hc : isWordChar c = false) (s : List UInt8) :
    lex (nextText DBSQL_IN p.sqlname val ++ c :: s) = nextTokens DBSQL_IN p.sqlname val ++ lex (c :: s) := by
  rw [nextText, nextTokens]
  split_ifs with hlisted
  · rw [List.cons_append, lex_sym (by decide) (by decide), lex_decText hc]
    rfl
  · have hor := @lex_keyword [0x4F, 0x52] (by decide) (by decide) (cmpText p.sqlname (paramItem val) ++ c :: s)
    rw [List.cons_append, List.cons_append, List.nil_append] at hor
    simp only [List.cons_append]
    rw [hor, lex_cmpText _ hc]
    rfl

theorem exists_nextText (DBSQL_IN : Bool) (sqlname val : List UInt8) :
    ∃ c s, nextText DBSQL_IN sqlname val = c :: s ∧ isWordChar c = false := by
  rw [nextText]
  split_ifs
  · exact ⟨_, _, rfl, by decide⟩
  · exact ⟨_, _, rfl, by decide⟩

/-- **The tokens of the condition.** -/
theorem lex_whereInt (val : List UInt8) (vals : List (List UInt8)) :
    lex (whereInt DBSQL_IN p.sqlname (val :: vals)) =
      firstTokens DBSQL_IN p.sqlname val ++ (vals.flatMap (nextTokens DBSQL_IN p.sqlname) ++ [rpar]) := by
  have hrest : ∀ vals : List (List UInt8), ∃ c s, isWordChar c = false ∧
      vals.flatMap (nextText DBSQL_IN p.sqlname) ++ [0x29] = c :: s ∧
      lex (c :: s) = vals.flatMap (nextTokens DBSQL_IN p.sqlname) ++ [rpar] := by
    intro vals
    induction vals with
    | nil => exact ⟨0x29, [], by decide, rfl, show lex [0x29] = [rpar] by decide⟩
    | cons v vals ih =>
      obtain ⟨c, s, hc, htext, hlex⟩ := ih
      obtain ⟨d, t, hnext, hd⟩ := exists_nextText DBSQL_IN p.sqlname v
      have hlexNext := @lex_nextText p DBSQL_IN v c hc s
      rw [hnext, List.cons_append] at hlexNext
      refine ⟨d, t ++ c :: s, hd, ?_, ?_⟩
      · rw [List.flatMap_cons, List.append_assoc, htext, hnext, List.cons_append]
      · rw [hlexNext, hlex, List.flatMap_cons, List.append_assoc]
  obtain ⟨c, s, hc, htext, hlex⟩ := hrest vals
  rw [whereInt_cons, htext, lex_firstText val hc, hlex]

end Tokens

/-! ## When the condition is right -/

section Right

variable {p : IntParam} {DBSQL_IN : Bool} {vals : List (List UInt8)}

theorem mem_of_scanInt {s r : List UInt8} {x : Int32} (h : scanInt s = some (x, r)) {c : UInt8} (hc : c ∈ r) : c ∈ s := by
  have hsub : ∀ t u : List UInt8, t.dropWhile isdigit = r → t ⊆ u →
      u = s.dropWhile (fun c => c == 0x20 || (0x09 ≤ c && c ≤ 0x0D)) → c ∈ s := by
    intro t u hr htu hu
    rw [← hr] at hc
    have hmem := htu ((List.dropWhile_sublist _).subset hc)
    rw [hu] at hmem
    exact (List.dropWhile_sublist _).subset hmem
  rw [scanInt] at h
  split at h
  · rename_i t heq
    split at h
    · cases h
    · exact hsub t _ (Prod.mk.inj (Option.some.inj h)).2 (List.subset_cons_self _ _) heq.symm
  · rename_i t heq
    split at h
    · cases h
    · exact hsub t _ (Prod.mk.inj (Option.some.inj h)).2 (List.subset_cons_self _ _) heq.symm
  · split at h
    · cases h
    · exact hsub _ _ (Prod.mk.inj (Option.some.inj h)).2 (List.Subset.refl _) rfl

theorem paramItem_of_not_mem {val : List UInt8} (h : 0x2D ∉ val) : paramItem val = .value (atoiInt val) := by
  have hscan : scanRange val = none := by
    rw [scanRange]
    split
    · rename_i first s heq
      exact absurd (mem_of_scanInt heq List.mem_cons_self) h
    · rfl
  rw [paramItem, hscan]

/-- The condition of a comparison. -/
def cmpCond : ParamItem → Cond
  | .value n => .eq n
  | .range first second => .and (.ge first) (.le second)

theorem derives_cmpTokens (sqlname : List UInt8) (item : ParamItem) :
    Derives sqlname decText .conj (cmpTokens sqlname item) (cmpCond item) ∧ ∀ x, (cmpCond item).Holds x ↔ item.Has x := by
  cases item with
  | value n => exact ⟨.conj (.eq n), fun x => Iff.rfl⟩
  | range first second => exact ⟨.and (.ge first) (.conj (.le second)), fun x => Iff.rfl⟩

theorem whereRight_of_listed (h : ∀ val ∈ vals, Listed DBSQL_IN val) :
    WhereRight p.sqlname vals (whereInt DBSQL_IN p.sqlname vals) := by
  rw [WhereRight]
  split_ifs with hnil
  · rw [hnil]
    rfl
  · obtain ⟨val, vals, rfl⟩ := List.exists_cons_of_ne_nil hnil
    obtain ⟨hval, hvals⟩ := List.forall_mem_cons.mp h
    have hmembers : vals.flatMap (nextTokens DBSQL_IN p.sqlname) = members decText (vals.map atoiInt) := by
      rw [members, List.flatMap_map]
      exact List.flatMap_congr fun v hv => by rw [nextTokens, if_pos (hvals v hv)]
    refine ⟨.isIn (atoiInt val :: vals.map atoiInt), ?_, fun x => ?_⟩
    · rw [lex_whereInt, firstTokens, if_pos hval, hmembers]
      exact .expr (.conj (.isIn (atoiInt val) (vals.map atoiInt)))
    · rw [Cond.Holds, ← List.map_cons, List.mem_map]
      refine exists_congr fun v => and_congr_right fun hv => ?_
      rw [paramItem_of_not_mem (h v hv).2]
      exact eq_comm

theorem whereRight_of_not_listed (h : ∀ val ∈ vals, ¬ Listed DBSQL_IN val) :
    WhereRight p.sqlname vals (whereInt DBSQL_IN p.sqlname vals) := by
  rw [WhereRight]
  split_ifs with hnil
  · rw [hnil]
    rfl
  · obtain ⟨val, vals, rfl⟩ := List.exists_cons_of_ne_nil hnil
    obtain ⟨hval, hvals⟩ := List.forall_mem_cons.mp h
    have hnext : vals.flatMap (nextTokens DBSQL_IN p.sqlname) =
        vals.flatMap fun v => orWord :: cmpTokens p.sqlname (paramItem v) :=
      List.flatMap_congr fun v hv => by rw [nextTokens, if_neg (hvals v hv)]
    obtain ⟨c, hc, hholds⟩ := @derives_or p.sqlname decText _
      (fun v => cmpTokens p.sqlname (paramItem v)) (fun v => cmpCond (paramItem v)) (fun x v => (paramItem v).Has x)
      val vals fun v _ => derives_cmpTokens p.sqlname (paramItem v)
    refine ⟨c, ?_, hholds⟩
    rw [lex_whereInt, firstTokens, if_neg hval, hnext, List.cons_append, ← List.append_assoc]
    exact .expr (.conj (.paren hc))

theorem exists_switch {α : Type} {q : α → Prop} {l : List α} (hpos : ∃ a ∈ l, q a) (hneg : ∃ a ∈ l, ¬ q a) :
    ∃ A u w B, l = A ++ u :: w :: B ∧ ¬ (q u ↔ q w) := by
  induction l with
  | nil => obtain ⟨a, ha, -⟩ := hpos; exact absurd ha List.not_mem_nil
  | cons a l ih =>
    rcases l with _ | ⟨b, l⟩
    · obtain ⟨c, hc, hqc⟩ := hpos
      obtain ⟨d, hd, hqd⟩ := hneg
      rw [List.mem_singleton.mp hc] at hqc
      rw [List.mem_singleton.mp hd] at hqd
      exact absurd hqc hqd
    · by_cases hab : q a ↔ q b
      · have htail : ∀ r : α → Prop, (r a ↔ r b) → (∃ c ∈ a :: b :: l, r c) → ∃ c ∈ b :: l, r c := by
          rintro r hr ⟨c, hc, hrc⟩
          rcases List.mem_cons.mp hc with rfl | hc
          · exact ⟨b, List.mem_cons_self, hr.mp hrc⟩
          · exact ⟨c, hc, hrc⟩
        obtain ⟨A, u, w, B, hl, hdiff⟩ := ih (htail q hab hpos) (htail (fun c => ¬ q c) (not_congr hab) hneg)
        exact ⟨a :: A, u, w, B, by rw [hl]; rfl, hdiff⟩
      · exact ⟨[], a, b, l, rfl, hab⟩

/-- The last two tokens of a value. -/
def EndsAs (DBSQL_IN : Bool) (val : List UInt8) (l : List Token) : Prop :=
  ∃ L x n, l = L ++ [x, .word (decText n)] ∧ if Listed DBSQL_IN val then x = lpar ∨ x = comma else x = .sym 0x3D

theorem endsAs_cmpTokens (sqlname : List UInt8) (item : ParamItem) :
    ∃ L n, cmpTokens sqlname item = L ++ [.sym 0x3D, .word (decText n)] := by
  cases item with
  | value n => exact ⟨[.word sqlname], n, rfl⟩
  | range first second =>
    exact ⟨[.word sqlname, .sym 0x3E, .sym 0x3D, .word (decText first), andWord, .word sqlname, .sym 0x3C], second, rfl⟩

theorem endsAs_firstTokens (sqlname val : List UInt8) : EndsAs DBSQL_IN val (firstTokens DBSQL_IN sqlname val) := by
  rw [EndsAs, firstTokens]
  split_ifs
  · exact ⟨[.word sqlname, inWord], lpar, atoiInt val, rfl, Or.inl rfl⟩
  · obtain ⟨L, n, h⟩ := endsAs_cmpTokens sqlname (paramItem val)
    exact ⟨lpar :: L, _, n, by rw [h]; rfl, rfl⟩

theorem endsAs_nextTokens (sqlname val : List UInt8) : EndsAs DBSQL_IN val (nextTokens DBSQL_IN sqlname val) := by
  rw [EndsAs, nextTokens]
  split_ifs
  · exact ⟨[], comma, atoiInt val, rfl, Or.inr rfl⟩
  · obtain ⟨L, n, h⟩ := endsAs_cmpTokens sqlname (paramItem val)
    exact ⟨orWord :: L, _, n, by rw [h]; rfl, rfl⟩

theorem nextTokens_eq (sqlname val : List UInt8) :
    ∃ M, nextTokens DBSQL_IN sqlname val = (if Listed DBSQL_IN val then comma else orWord) :: M := by
  rw [nextTokens]
  split_ifs
  · exact ⟨_, rfl⟩
  · exact ⟨_, rfl⟩

theorem not_derives_of_switch {val : List UInt8} {vals A B : List (List UInt8)} {u w : List UInt8}
    (hvals : val :: vals = A ++ u :: w :: B) (hdiff : ¬ (Listed DBSQL_IN u ↔ Listed DBSQL_IN w)) (L : Level) (c : Cond) :
    ¬ Derives p.sqlname decText L (lex (whereInt DBSQL_IN p.sqlname (val :: vals))) c := by
  obtain ⟨M, hM⟩ := @nextTokens_eq DBSQL_IN p.sqlname w
  -- the tokens end with those of `u` and go on with those of `w`
  have htoks : ∃ front rest, EndsAs DBSQL_IN u front ∧ ∃ L',
      lex (whereInt DBSQL_IN p.sqlname (val :: vals)) =
        L' ++ (front ++ (nextTokens DBSQL_IN p.sqlname w ++ rest)) := by
    rw [lex_whereInt]
    rcases A with _ | ⟨a, A⟩
    · obtain ⟨rfl, rfl⟩ := List.cons.inj hvals
      refine ⟨_, B.flatMap (nextTokens DBSQL_IN p.sqlname) ++ [rpar], endsAs_firstTokens p.sqlname val, [], ?_⟩
      rw [List.flatMap_cons, List.append_assoc, List.nil_append]
    · have hrest : vals = A ++ u :: w :: B := (List.cons.inj hvals).2
      rw [hrest]
      refine ⟨_, B.flatMap (nextTokens DBSQL_IN p.sqlname) ++ [rpar], endsAs_nextTokens p.sqlname u,
        firstTokens DBSQL_IN p.sqlname val ++ A.flatMap (nextTokens DBSQL_IN p.sqlname), ?_⟩
      simp only [List.flatMap_append, List.flatMap_cons, List.append_assoc]
  obtain ⟨front, rest, ⟨L₀, x, n, rfl, hx⟩, L', hlex⟩ := htoks
  rw [hlex, hM]
  intro hderives
  have hcol : Token.word p.sqlname ≠ orWord := by cases p <;> decide
  have hnum : ∀ n, Token.word (decText n) ≠ orWord := by
    intro n h
    have hmem : (0x4F : UInt8) ∈ decText n := by rw [Token.word.inj h]; decide
    exact not_mem_decText (by decide) (by decide) hmem
  have hassoc : L' ++ (L₀ ++ [x, .word (decText n)] ++ ((if Listed DBSQL_IN w then comma else orWord) :: M ++ rest)) =
      (L' ++ L₀) ++ x :: .word (decText n) :: (if Listed DBSQL_IN w then comma else orWord) :: (M ++ rest) := by simp
  rw [hassoc] at hderives
  have hallowed := allowed_of_derives hcol hnum hderives
  by_cases hu : Listed DBSQL_IN u <;> by_cases hw : Listed DBSQL_IN w
  · exact hdiff (iff_of_true hu hw)
  · -- a comparison behind a number of a list
    rw [if_pos hu] at hx
    rw [if_neg hw] at hallowed
    obtain ⟨hlpar, hcomma⟩ := hallowed.2 rfl
    exact hx.elim hlpar hcomma
  · -- a number of a list behind a comparison
    rw [if_neg hu] at hx
    rw [if_pos hw, hx] at hallowed
    exact absurd (hallowed.1 rfl) (by decide)
  · exact hdiff (iff_of_false hu hw)

/-- **The condition for some values is right exactly where no lists are made, or there are values of one kind only.** -/
theorem whereRight_iff (p : IntParam) (DBSQL_IN : Bool) (vals : List (List UInt8)) :
    WhereRight p.sqlname vals (whereInt DBSQL_IN p.sqlname vals) ↔
      (DBSQL_IN = false ∨ (∀ val ∈ vals, 0x2D ∈ val) ∨ ∀ val ∈ vals, 0x2D ∉ val) := by
  constructor
  · intro h
    by_contra hmixed
    obtain ⟨hin, hrange, hnumber⟩ := not_or.mp hmixed |>.imp_right not_or.mp
    rw [Bool.not_eq_false] at hin
    push Not at hrange hnumber
    have hpos : ∃ val ∈ vals, Listed DBSQL_IN val := hrange.imp fun val hval => ⟨hval.1, hin, hval.2⟩
    have hneg : ∃ val ∈ vals, ¬ Listed DBSQL_IN val := hnumber.imp fun val hval => ⟨hval.1, fun hl => hl.2 hval.2⟩
    obtain ⟨A, u, w, B, hvals, hdiff⟩ := exists_switch hpos hneg
    have hne : vals ≠ [] := by rw [hvals]; simp
    obtain ⟨val, vals, rfl⟩ := List.exists_cons_of_ne_nil hne
    rw [WhereRight, if_neg hne] at h
    obtain ⟨c, hderives, -⟩ := h
    exact not_derives_of_switch hvals hdiff .expr c hderives
  · rintro (hin | hrange | hnumber)
    · exact whereRight_of_not_listed fun val _ h => Bool.false_ne_true (hin.symm.trans h.1)
    · exact whereRight_of_not_listed fun val hval h => h.2 (hrange val hval)
    · cases DBSQL_IN with
      | false => exact whereRight_of_not_listed fun val _ h => Bool.false_ne_true h.1
      | true => exact whereRight_of_listed fun val hval => ⟨rfl, hnumber val hval⟩

end Right

/-- A number and a range are no condition. -/
theorem not_forall_whereRight :
    ¬ ∀ (p : IntParam) (DBSQL_IN : Bool) (vals : List (List UInt8)),
      WhereRight p.sqlname vals (whereInt DBSQL_IN p.sqlname vals) := by
  intro h
  have hright := h .status true [bytes "200", bytes "300-399"]
  rw [WhereRight, if_neg (by decide)] at hright
  obtain ⟨c, hderives, -⟩ := hright
  exact @not_derives_of_switch .status true (bytes "200") [bytes "300-399"] [] [] (bytes "200") (bytes "300-399") rfl
    (by decide) .expr c hderives

end MnoGoSearch.Sql
