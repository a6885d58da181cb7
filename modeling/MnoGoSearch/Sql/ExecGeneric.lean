import MnoGoSearch.Lib.Buffer
import MnoGoSearch.Lib.Loops
import MnoGoSearch.Nntp.Dialogue
import MnoGoSearch.Sql.Escape
import Mathlib

/-!
# Prepared statements that are emulated

Where a driver has no prepared statements, `UdmSQLExecGeneric` (`sqldbms.c`) writes the parameters into the text of the
query: each in place of its question mark. The buffer has the length that `prepared_query_length` computes before.
`execRight_iff` says when the text fits and is right: the length of a parameter must not overflow an `int`, and a null
is known only where Oracle gets binary data.
-/

namespace MnoGoSearch.Sql

open Url Utils
open MnoGoSearch.Lib (Buffer)
open Nntp (length_decText_le)

/-! ## Parameters -/

/-- The types of strings and binary data, `UDM_SQLTYPE_*`. Nothing is bound with the type `UDM_SQLTYPE_UNKNOWN`. -/
inductive DataType where
  | longvarbinary
  | longvarchar
  | varchar
  deriving DecidableEq

/-- A parameter in `UDM_PS`. -/
inductive BoundParam where
  /-- Some bytes. Without them it is a null, of which the length is negative; what its pointer points to is not known. -/
  | data (type : DataType) (value : Option (List UInt8))
  /-- A number, `UDM_SQLTYPE_INT32`. -/
  | int32 (value : Int32)

/-- The length of a parameter in `prepared_query_length`: `none` where the `int` overflows. -/
def reserved : BoundParam → Option ℕ
  | .data _ (some s) => if s.length * 10 + 10 < 2 ^ 31 then some (s.length * 10 + 10) else none
  | .data _ none => some 4
  | .int32 _ => some 21

/-- `prepared_query_length`. -/
def preparedQueryLength (sql : List UInt8) (params : List BoundParam) : Option ℕ :=
  params.foldlM (fun len p => (reserved p).map (len + ·)) (sql.length + 1)

/-- What `prepared_query_add_params` writes in front of the NUL: `none` where it reads the bytes of a null. -/
def paramText (db : UdmDB) : BoundParam → Option (List UInt8)
  | .int32 value => some (decText value.toInt)
  | .data type value =>
    let isBin := type = .longvarbinary
    if value = some [] then some (if db.DBType = .mimer then bytes "X''" else bytes "''")
    else if isBin ∧ db.have0xHex then value.map fun src => bytes "0x" ++ udmHexEncode src
    else if isBin ∧ db.haveStdHex then value.map fun src => bytes "X'" ++ udmHexEncode src ++ bytes "'"
    else if isBin ∧ db.DBType = .oracle8 then
      some (value.elim (bytes "NULL") fun src => bytes "'" ++ udmHexEncode src ++ bytes "'")
    else
      value.map fun src => (if db.DBType = .pgsql ∧ 80101 ≤ db.version then bytes "E" else []) ++ bytes "'" ++
        (if isBin then udmSQLBinEscStr db src else udmSQLEscStr db src) ++ bytes "'"

/-- The loop in `UdmSQLExecGeneric`, with the parameters from `param_num` on. -/
@[grind =] def execLoop (db : UdmDB) : List UInt8 → List BoundParam → Buffer → ℕ → Option Buffer
  | [], _, qbuf, dst => some (qbuf.write dst 0)
  | c :: src, params, qbuf, dst =>
    if c = 0x3F then
      params.head?.bind fun p => (paramText db p).bind fun t =>
        execLoop db src params.tail (qbuf.writes dst (t ++ [0])) (dst + t.length)
    else execLoop db src params (qbuf.write dst c) (dst + 1)

/-- `UdmSQLExecGeneric` up to the query: the text. -/
def udmSQLExecGeneric (db : UdmDB) (sql : List UInt8) (params : List BoundParam) : Option Buffer :=
  (preparedQueryLength sql params).bind fun qlen => execLoop db sql params ⟨List.replicate qlen 0, false⟩ 0

/-! ## What is wanted -/

/-- The question marks are replaced by the texts, one after another. -/
@[grind =] def expand : List UInt8 → List (List UInt8) → List UInt8
  | [], _ => []
  | c :: s, texts => if c = 0x3F then texts.headD [c] ++ expand s texts.tail else c :: expand s texts

/-- The texts of the parameters. -/
def texts (db : UdmDB) (params : List BoundParam) : List (List UInt8) := params.map fun p => (paramText db p).getD []

/-- The text fits in the buffer, and every parameter is in the place of its mark. -/
def ExecRight (db : UdmDB) (sql : List UInt8) (params : List BoundParam) : Prop :=
  ∃ qbuf, udmSQLExecGeneric db sql params = some qbuf ∧ qbuf.overflow = false ∧ qbuf.str = expand sql (texts db params)

/-- A parameter that can be written. -/
def ParamFits (db : UdmDB) : BoundParam → Prop
  | .data _ (some s) => s.length * 10 + 10 < 2 ^ 31
  | .data type none => type = .longvarbinary ∧ db.have0xHex = false ∧ db.haveStdHex = false ∧ db.DBType = .oracle8
  | .int32 _ => True

/-! ## One parameter -/

section

variable {db : UdmDB} {p : BoundParam} {sql t : List UInt8} {params : List BoundParam}

theorem paramFits_iff : ParamFits db p ↔ (reserved p).isSome ∧ (paramText db p).isSome := by
  cases p with
  | int32 value => exact iff_of_true trivial ⟨rfl, rfl⟩
  | data type value =>
    cases value with
    | none =>
      rw [ParamFits, reserved, paramText]
      cases type <;> cases db.have0xHex <;> cases db.haveStdHex <;> by_cases hdb : db.DBType = .oracle8 <;> simp [hdb]
    | some s =>
      have htext : (paramText db (.data type (some s))).isSome := by
        rw [paramText]
        split_ifs <;> rfl
      rw [ParamFits, reserved, and_iff_left htext]
      split_ifs with h
      · exact iff_of_true h rfl
      · exact iff_of_false h Bool.false_ne_true

/-- **What is reserved is enough** for a parameter. -/
theorem length_paramText_le {n : ℕ} (hn : reserved p = some n) (ht : paramText db p = some t) :
    t.length ≤ n := by
  cases p with
  | int32 value =>
    cases hn
    cases ht
    exact (length_decText_le value).trans (by omega)
  | data type value =>
    cases value with
    | none =>
      cases hn
      rw [paramText] at ht
      simp only [reduceCtorEq, if_false, Option.map_none] at ht
      split_ifs at ht
      cases ht
      exact le_of_eq rfl
    | some s =>
      have hlen : n = s.length * 10 + 10 := by
        rw [reserved] at hn
        split_ifs at hn
        exact (Option.some_inj.mp hn).symm
      have hhex := length_udmHexEncode s
      have hbin := length_udmSQLBinEscStr_le db s
      have hesc : (udmSQLEscStr db s).length ≤ 4 * s.length :=
        (length_udmSQLEscStr_le db s).trans (Nat.mul_le_mul_right _ (by split_ifs <;> omega))
      have hquote : (bytes "'").length = 1 ∧ (bytes "E").length = 1 := ⟨rfl, rfl⟩
      have hmark : (bytes "0x").length = 2 ∧ (bytes "X'").length = 2 := ⟨rfl, rfl⟩
      have hempty : (bytes "X''").length = 3 ∧ (bytes "''").length = 2 := ⟨rfl, rfl⟩
      rw [paramText] at ht
      split_ifs at ht
      all_goals rw [← Option.some_inj.mp ht]
      · omega
      · omega
      · rw [List.length_append]
        omega
      · rw [List.length_append, List.length_append]
        omega
      · rw [Option.elim_some, List.length_append, List.length_append]
        omega
      all_goals
        simp only [List.length_append, List.length_nil]
        omega

theorem not_mem_paramText (ht : paramText db p = some t) : (0 : UInt8) ∉ t := by
  cases p with
  | int32 value =>
    cases ht
    exact not_mem_decText (by decide) (by decide)
  | data type value =>
    rw [paramText] at ht
    split_ifs at ht
    · cases ht
      decide
    · cases ht
      decide
    · obtain ⟨src, -, rfl⟩ := Option.map_eq_some_iff.mp ht
      exact List.mem_append.not.mpr (not_or.mpr ⟨by decide, not_mem_udmHexEncode src⟩)
    · obtain ⟨src, -, rfl⟩ := Option.map_eq_some_iff.mp ht
      simp only [List.mem_append, not_or]
      exact ⟨⟨by decide, not_mem_udmHexEncode src⟩, by decide⟩
    · cases ht
      cases value with
      | none => decide
      | some src =>
        rw [Option.elim_some]
        simp only [List.mem_append, not_or]
        exact ⟨⟨by decide, not_mem_udmHexEncode src⟩, by decide⟩
    all_goals
      obtain ⟨src, -, rfl⟩ := Option.map_eq_some_iff.mp ht
      simp only [List.mem_append, not_or]
    · exact ⟨⟨⟨by decide, by decide⟩, not_mem_udmSQLBinEscStr db src⟩, by decide⟩
    · exact ⟨⟨⟨by decide, by decide⟩, not_mem_udmSQLEscStr db src⟩, by decide⟩
    · exact ⟨⟨⟨List.not_mem_nil, by decide⟩, not_mem_udmSQLBinEscStr db src⟩, by decide⟩
    · exact ⟨⟨⟨List.not_mem_nil, by decide⟩, not_mem_udmSQLEscStr db src⟩, by decide⟩

/-! ## The loop -/

theorem isSome_execLoop_iff (hmarks : params.length = sql.count 0x3F) (qbuf : Buffer) (dst : ℕ) :
    (execLoop db sql params qbuf dst).isSome ↔ ∀ p ∈ params, (paramText db p).isSome := by
  induction sql generalizing params qbuf dst with
  | nil =>
    have hnil : params = [] := List.length_eq_zero_iff.mp hmarks
    rw [hnil, execLoop]
    exact iff_of_true rfl (by simp)
  | cons c src ih =>
    rw [execLoop]
    by_cases hc : c = 0x3F
    · subst hc
      rw [List.count_cons_self] at hmarks
      cases params with
      | nil => exact absurd hmarks (by simp)
      | cons p params =>
        rw [if_pos rfl, List.forall_mem_cons, List.head?_cons, Option.bind_some, List.tail_cons]
        cases paramText db p with
        | none => exact iff_of_false Bool.false_ne_true fun h => Bool.false_ne_true h.1
        | some t =>
          rw [Option.bind_some, and_iff_right (Option.isSome_some)]
          exact ih (Nat.succ_injective hmarks) _ _
    · rw [if_neg hc]
      rw [List.count_cons_of_ne hc] at hmarks
      exact ih hmarks _ _

theorem length_expand_le {T : List (List UInt8)} : (expand sql T).length ≤ sql.length + (T.map List.length).sum := by
  induction sql generalizing T with
  | nil => exact Nat.zero_le _
  | cons c src ih =>
    rw [expand]
    split_ifs
    · rw [List.length_append, List.length_cons]
      cases T with
      | nil =>
        have hrest := ih (T := [])
        rw [List.headD_nil, List.tail_nil, List.length_singleton]
        omega
      | cons t T =>
        have hrest := ih (T := T)
        rw [List.headD_cons, List.tail_cons, List.map_cons, List.sum_cons]
        omega
    · have hrest := ih (T := T)
      simp only [List.length_cons]
      omega

theorem not_mem_expand {T : List (List UInt8)} (hsql : (0 : UInt8) ∉ sql) (hT : ∀ t ∈ T, (0 : UInt8) ∉ t) :
    (0 : UInt8) ∉ expand sql T := by
  induction sql generalizing T with
  | nil => exact List.not_mem_nil
  | cons c src ih =>
    obtain ⟨hc, hsrc⟩ := not_or.mp (List.mem_cons.not.mp hsql)
    rw [expand]
    split_ifs
    · cases T with
      | nil => exact List.mem_append.not.mpr (not_or.mpr ⟨by simpa using hc, ih hsrc hT⟩)
      | cons t T =>
        obtain ⟨ht, hrest⟩ := List.forall_mem_cons.mp hT
        exact List.mem_append.not.mpr (not_or.mpr ⟨ht, ih hsrc hrest⟩)
    · exact List.mem_cons.not.mpr (not_or.mpr ⟨hc, ih hsrc hT⟩)

/-- **The loop** writes the text behind what has been written. -/
theorem execLoop_spec (hmarks : params.length = sql.count 0x3F) (htext : ∀ p ∈ params, (paramText db p).isSome)
    (qbuf : Buffer) (dst : ℕ) (hroom : dst + (expand sql (texts db params)).length < qbuf.bytes.length) :
    ∃ b, execLoop db sql params qbuf dst = some b ∧ b.overflow = qbuf.overflow ∧
      b.bytes.take (dst + (expand sql (texts db params)).length) = qbuf.bytes.take dst ++ expand sql (texts db params) ∧
      b.NulAt (dst + (expand sql (texts db params)).length) := by
  induction sql generalizing params qbuf dst with
  | nil =>
    rw [execLoop]
    have hdst : dst < qbuf.bytes.length := hroom
    refine ⟨_, rfl, ?_, ?_, Buffer.nulAt_write hdst⟩
    · rw [Buffer.overflow_write, decide_eq_false (Nat.not_le.mpr hdst), Bool.or_false]
    · rw [expand, List.append_nil, List.length_nil, Nat.add_zero, Buffer.take_write_of_le le_rfl]
  | cons c src ih =>
    rw [execLoop]
    by_cases hc : c = 0x3F
    · subst hc
      rw [List.count_cons_self] at hmarks
      cases params with
      | nil => exact absurd hmarks (by simp)
      | cons p params =>
        obtain ⟨hp, hrest⟩ := List.forall_mem_cons.mp htext
        obtain ⟨t, ht⟩ := Option.isSome_iff_exists.mp hp
        have hexpand : expand (0x3F :: src) (texts db (p :: params)) = t ++ expand src (texts db params) := by
          rw [expand, if_pos rfl, texts, List.map_cons, ht]
          rfl
        rw [hexpand, List.length_append] at hroom ⊢
        rw [if_pos rfl, List.head?_cons, Option.bind_some, List.tail_cons, ht, Option.bind_some]
        have hfit : dst + (t ++ [0]).length ≤ qbuf.bytes.length := by
          rw [List.length_append, List.length_singleton]
          omega
        obtain ⟨b, hb, hover, htake, hnul⟩ := ih (Nat.succ_injective hmarks) hrest
          (qbuf.writes dst (t ++ [0])) (dst + t.length) (by rw [Buffer.length_writes]; omega)
        refine ⟨b, hb, ?_, ?_, ?_⟩
        · rw [hover, Buffer.overflow_writes_of_le hfit]
        · rw [← Nat.add_assoc, htake, Buffer.writes_append, ← List.append_assoc]
          rw [Buffer.take_writes, Buffer.take_writes_add (by omega)]
        · rwa [← Nat.add_assoc]
    · rw [List.count_cons_of_ne hc] at hmarks
      have hexpand : expand (c :: src) (texts db params) = c :: expand src (texts db params) := by rw [expand, if_neg hc]
      rw [hexpand, List.length_cons] at hroom ⊢
      rw [if_neg hc]
      obtain ⟨b, hb, hover, htake, hnul⟩ := ih hmarks htext (qbuf.write dst c) (dst + 1)
        (by rw [Buffer.length_write]; omega)
      refine ⟨b, hb, ?_, ?_, ?_⟩
      · rw [hover, Buffer.overflow_write, decide_eq_false (by omega), Bool.or_false]
      · have hone : (qbuf.write dst c).bytes.take (dst + 1) = qbuf.bytes.take dst ++ [c] :=
          Buffer.take_writes_add (b := qbuf) (i := dst) (s := [c]) (by rw [List.length_singleton]; omega)
        rw [show dst + ((expand src (texts db params)).length + 1) = dst + 1 + (expand src (texts db params)).length by omega,
          htake, hone, List.append_assoc, List.singleton_append]
      · rwa [show dst + ((expand src (texts db params)).length + 1) = dst + 1 + (expand src (texts db params)).length by omega]

theorem add_length_texts_le {n qlen : ℕ} (h : params.foldlM (fun len p => (reserved p).map (len + ·)) n = some qlen)
    (htext : ∀ p ∈ params, (paramText db p).isSome) : n + ((texts db params).map List.length).sum ≤ qlen := by
  induction params generalizing n with
  | nil =>
    cases h
    exact le_rfl
  | cons p params ih =>
    obtain ⟨hp, hrest⟩ := List.forall_mem_cons.mp htext
    obtain ⟨t, ht⟩ := Option.isSome_iff_exists.mp hp
    rw [List.foldlM_cons] at h
    cases hres : reserved p with
    | none =>
      rw [hres] at h
      exact absurd h (by simp)
    | some k =>
      rw [hres] at h
      have hle := length_paramText_le hres ht
      have hstep : n + k + ((texts db params).map List.length).sum ≤ qlen := ih h hrest
      have htexts : texts db (p :: params) = t :: texts db params := by
        rw [texts, List.map_cons, ht]
        rfl
      rw [htexts, List.map_cons, List.sum_cons]
      omega

theorem isSome_preparedQueryLength_iff :
    (preparedQueryLength sql params).isSome ↔ ∀ p ∈ params, (reserved p).isSome := by
  refine Lib.Loops.isSome_foldlM_iff fun p _ len => ?_
  rw [Option.isSome_map]

theorem ExecRight.paramFits (hmarks : params.length = sql.count 0x3F) (h : ExecRight db sql params) :
    ∀ p ∈ params, ParamFits db p := by
  obtain ⟨qbuf, hexec, -⟩ := h
  obtain ⟨qlen, hlen, hloop⟩ := Option.bind_eq_some_iff.mp hexec
  have hreserved := isSome_preparedQueryLength_iff.mp (Option.isSome_iff_exists.mpr ⟨qlen, hlen⟩)
  have htext := (isSome_execLoop_iff hmarks _ _).mp (Option.isSome_iff_exists.mpr ⟨qbuf, hloop⟩)
  exact fun p hp => paramFits_iff.mpr ⟨hreserved p hp, htext p hp⟩

end

/-- **The text of an emulated statement** fits in its buffer, and every parameter is in its place, for the parameters that
can be written. -/
theorem execRight_iff (db : UdmDB) (sql : Words.CString) (params : List BoundParam)
    (hmarks : params.length = sql.val.count 0x3F) :
    ExecRight db sql.val params ↔ ∀ p ∈ params, ParamFits db p := by
  refine ⟨ExecRight.paramFits hmarks, fun h => ?_⟩
  have htext : ∀ p ∈ params, (paramText db p).isSome := fun p hp => (paramFits_iff.mp (h p hp)).2
  obtain ⟨qlen, hqlen⟩ := Option.isSome_iff_exists.mp
    (isSome_preparedQueryLength_iff.mpr fun p hp => (paramFits_iff.mp (h p hp)).1)
  have hlen : (expand sql.val (texts db params)).length < qlen := by
    have hexpand := @length_expand_le sql.val (texts db params)
    have hsum := add_length_texts_le (n := sql.val.length + 1) hqlen htext
    omega
  obtain ⟨b, hb, hover, htake, hnul⟩ := execLoop_spec hmarks htext ⟨List.replicate qlen 0, false⟩ 0
    (by rwa [Nat.zero_add, List.length_replicate])
  rw [Nat.zero_add, List.take_zero, List.nil_append] at htake
  rw [Nat.zero_add] at hnul
  refine ⟨b, ?_, hover, Buffer.str_eq_of_take (not_mem_expand sql.property fun t ht => ?_) htake hnul⟩
  · rw [udmSQLExecGeneric, hqlen, Option.bind_some, hb]
  · obtain ⟨p, hp, rfl⟩ := List.mem_map.mp ht
    obtain ⟨t, ht'⟩ := Option.isSome_iff_exists.mp (htext p hp)
    rw [ht', Option.getD_some]
    exact not_mem_paramText ht'

/-- SQLite 3 without a driver of its own. -/
def sqlite3 : UdmDB := ⟨.sqlite3, 0, false, true, true, false, none⟩

theorem execRight_sqlite3 : ExecRight sqlite3 (bytes "INSERT INTO t VALUES(?,?)")
    [.int32 (-7), .data .longvarbinary (some (bytes "A'"))] :=
  (execRight_iff sqlite3 ⟨bytes "INSERT INTO t VALUES(?,?)", by decide⟩ _ rfl).mpr (by
    rw [List.forall_mem_cons, List.forall_mem_singleton]
    exact ⟨trivial, by show _ < _; decide⟩)

/-- What is written there. -/
example : (udmSQLExecGeneric sqlite3 (bytes "(?,?)") [.int32 (-7), .data .longvarbinary (some (bytes "A'"))]).map Buffer.str =
    some (bytes "(-7,X'4127')") := by decide +kernel

/-- **The length overflows** for a value of 429496730 bytes: what an `int` keeps of it is 14. -/
theorem not_forall_execRight : ¬∀ (db : UdmDB) (sql : Words.CString) (params : List BoundParam),
    params.length = sql.val.count 0x3F → ExecRight db sql.val params := by
  intro h
  have hfits := (h sqlite3 ⟨bytes "INSERT INTO t VALUES(?)", by decide⟩
    [.data .longvarbinary (some (List.replicate 429496730 0x41))] rfl).paramFits rfl _ (List.mem_singleton_self _)
  have hlen : (List.replicate 429496730 (0x41 : UInt8)).length * 10 + 10 < 2 ^ 31 := hfits
  rw [List.length_replicate] at hlen
  omega

end MnoGoSearch.Sql
