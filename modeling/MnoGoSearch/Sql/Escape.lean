import MnoGoSearch.Utils.Hex
import Mathlib.Data.Int.Order.Basic

/-!
# Values in the text of a query

How a value is written between quotes (`UdmSQLEscStrGeneric`, `UdmSQLEscStrSimple` and `UdmSQLBinEscStr`, `sqldbms.c`).
Each database has its own rules. An escaped string is at most twice as long as the string, with PostgreSQL four times,
and binary data for PostgreSQL are at most five times as long.
-/

namespace MnoGoSearch.Sql

open Url Utils

/-! ## Databases -/

/-- `UDM_DB_*`: the types of databases. -/
inductive UdmDBType where
  | unk
  | odbc
  | mysql
  | pgsql
  | solid
  | virt
  | ibase
  | oracle8
  | oracle7
  | mssql
  | sapdb
  | db2
  | sqlite
  | access
  | mimer
  | cache
  | sybase
  | sqlite3
  | monetdb
  | searchd
  deriving DecidableEq

/-- What is known of `mysql_escape_string`: it writes at most two bytes for one, and no NUL. -/
structure MysqlEscape where
  /-- The string that is written. -/
  escape : List UInt8 → List UInt8
  length_le : ∀ s, (escape s).length ≤ 2 * s.length
  not_mem : ∀ s, (0 : UInt8) ∉ escape s

/-- `UDM_DB`, as far as it is used here. -/
structure UdmDB where
  DBType : UdmDBType
  /-- The version of the server. -/
  version : ℤ
  /-- `UDM_SQL_HAVE_0xHEX`. -/
  have0xHex : Bool
  /-- `UDM_SQL_HAVE_STDHEX`. -/
  haveStdHex : Bool
  /-- `UDM_SQL_HAVE_BIND_BINARY`. -/
  haveBindBinary : Bool
  /-- `UDM_SQL_HAVE_BLOB_AS_HEX`. -/
  haveBlobAsHex : Bool
  /-- `SQLEscStr` of the driver: `mysql_escape_string`, or else `UdmSQLEscStrGeneric`. -/
  sqlEscStr : Option MysqlEscape

/-! ## Strings -/

/-- A string up to its NUL with every character escaped. -/
def escapeChars (esc : UInt8 → List UInt8) (src : List UInt8) : List UInt8 := (src.takeWhile (· ≠ 0)).flatMap esc

/-- `UdmSQLEscStrMonet`. -/
def udmSQLEscStrMonet : List UInt8 → List UInt8 := escapeChars fun c => if c = 0x5C ∨ c = 0x27 then [c, c] else [c]

/-- `UdmSQLEscStrStandard`. -/
def udmSQLEscStrStandard : List UInt8 → List UInt8 := escapeChars fun c => if c = 0x27 then [c, c] else [c]

/-- `UdmSQLEscStrPgSQL`, as it is compiled for Unix. -/
def udmSQLEscStrPgSQL (db : UdmDB) : List UInt8 → List UInt8 :=
  escapeChars fun c =>
    if db.DBType = .pgsql ∧ (c = 0x7B ∨ c = 0x7D) then [0x5C, 0x78, 0x37, hexDigit (c &&& 0x0F)]
    else if c = 0x27 ∨ c = 0x5C then [0x5C, c]
    else [c]

/-- `UdmSQLEscStrGeneric`. -/
def udmSQLEscStrGeneric (db : UdmDB) : List UInt8 → List UInt8 :=
  match db.DBType with
  | .mysql => udmSQLEscStrPgSQL db
  | .monetdb => udmSQLEscStrMonet
  | .pgsql => if db.version < 90000 then udmSQLEscStrPgSQL db else udmSQLEscStrStandard
  | _ => udmSQLEscStrStandard

/-- `UdmSQLEscStr`: what is written in front of the NUL. -/
def udmSQLEscStr (db : UdmDB) (src : List UInt8) : List UInt8 :=
  match db.sqlEscStr with
  | some mysql => mysql.escape src
  | none => udmSQLEscStrGeneric db src

/-- `dangerous_character`. -/
def dangerousTable : List ℕ :=
  [1,1,1,1,1,1,1,1,1,1,1,1,1,1,1,1,
   1,1,1,1,1,1,1,1,1,1,1,1,1,1,1,1,
   0,1,1,1,1,0,1,1,1,1,0,0,0,0,0,0,
   0,0,0,0,0,0,0,0,0,0,0,1,1,0,1,0,
   0,0,0,0,0,0,0,0,0,0,0,0,0,0,0,0,
   0,0,0,0,0,0,0,0,0,0,0,1,1,1,1,0,
   1,0,0,0,0,0,0,0,0,0,0,0,0,0,0,0,
   0,0,0,0,0,0,0,0,0,0,0,1,1,1,1,1] ++ List.replicate 128 3

/-- A character that may not stand in a simple string. -/
def dangerousCharacter (c : UInt8) : Bool := dangerousTable.getD c.toNat 0 != 0

/-- `UdmSQLEscStrSimple`: what is written in front of the NUL. -/
def udmSQLEscStrSimple (src : List UInt8) : List UInt8 := src.map fun c => if dangerousCharacter c then 0x3F else c

/-! ## Binary data -/

/-- `UdmSQLBinEscCharForPg`. -/
def udmSQLBinEscCharForPg (ch : UInt8) : List UInt8 :=
  if 0x20 ≤ ch ∧ ch ≤ 0x7F ∧ ch ≠ 0x27 ∧ ch ≠ 0x5C then [ch]
  else [0x5C, 0x5C, hexDigit ((ch >>> 6) &&& 0x07), hexDigit ((ch >>> 3) &&& 0x07), hexDigit (ch &&& 0x07)]

/-- `UdmSQLBinEscStr`: what is written in front of the NUL. -/
def udmSQLBinEscStr (db : UdmDB) (src : List UInt8) : List UInt8 :=
  if db.DBType = .pgsql then src.flatMap udmSQLBinEscCharForPg else udmSQLEscStr db src

/-! ## Lengths -/

variable {k : ℕ} {esc : UInt8 → List UInt8}

theorem length_flatMap_le {f : UInt8 → List UInt8} (h : ∀ c, (f c).length ≤ k) (s : List UInt8) :
    (s.flatMap f).length ≤ k * s.length := by
  induction s with
  | nil => simp
  | cons c s ih =>
    have hc := h c
    rw [List.flatMap_cons, List.length_append, List.length_cons, Nat.mul_succ]
    omega

/-- The characters that `mysql_escape_string` escapes. -/
def mysqlEscapeChar (c : UInt8) : List UInt8 :=
  if c = 0x00 then bytes "\\0"
  else if c = 0x0A then bytes "\\n"
  else if c = 0x0D then bytes "\\r"
  else if c = 0x1A then bytes "\\Z"
  else if c = 0x5C ∨ c = 0x27 ∨ c = 0x22 then [0x5C, c]
  else [c]

instance : Inhabited MysqlEscape where
  default :=
    { escape := fun s => s.flatMap mysqlEscapeChar
      length_le := length_flatMap_le fun c => by
        rw [mysqlEscapeChar]
        split_ifs <;> simp [bytes]
      not_mem := fun s h => by
        obtain ⟨c, -, hzero⟩ := List.mem_flatMap.mp h
        exact @forall_byte (fun c => (0 : UInt8) ∉ mysqlEscapeChar c) (by decide +kernel) c hzero }

theorem length_escapeChars_le (h : ∀ c, (esc c).length ≤ k) (s : List UInt8) :
    (escapeChars esc s).length ≤ k * s.length :=
  (length_flatMap_le h _).trans (Nat.mul_le_mul_left k (List.takeWhile_prefix _).length_le)

theorem length_udmSQLEscStrStandard_le (s : List UInt8) : (udmSQLEscStrStandard s).length ≤ 2 * s.length := by
  refine length_escapeChars_le (fun c => ?_) s
  split_ifs <;> simp

theorem length_udmSQLEscStrMonet_le (s : List UInt8) : (udmSQLEscStrMonet s).length ≤ 2 * s.length := by
  refine length_escapeChars_le (fun c => ?_) s
  split_ifs <;> simp

theorem length_udmSQLEscStrPgSQL_le (db : UdmDB) (s : List UInt8) :
    (udmSQLEscStrPgSQL db s).length ≤ (if db.DBType = .pgsql then 4 else 2) * s.length := by
  refine length_escapeChars_le (fun c => ?_) s
  by_cases hdb : db.DBType = .pgsql
  · rw [if_pos hdb]
    split_ifs <;> simp
  · rw [if_neg hdb, if_neg fun h => hdb h.1]
    split_ifs <;> simp

theorem udmSQLEscStrGeneric_cases (db : UdmDB) : udmSQLEscStrGeneric db = udmSQLEscStrPgSQL db ∨
    udmSQLEscStrGeneric db = udmSQLEscStrMonet ∨ udmSQLEscStrGeneric db = udmSQLEscStrStandard := by
  rw [udmSQLEscStrGeneric]
  by_cases hversion : db.version < 90000
  · rw [if_pos hversion]
    split <;> simp
  · rw [if_neg hversion]
    split <;> simp

/-- **An escaped string** is at most twice as long, for PostgreSQL four times. -/
theorem length_udmSQLEscStr_le (db : UdmDB) (s : List UInt8) :
    (udmSQLEscStr db s).length ≤ (if db.DBType = .pgsql then 4 else 2) * s.length := by
  have htwo : 2 * s.length ≤ (if db.DBType = .pgsql then 4 else 2) * s.length :=
    Nat.mul_le_mul_right _ (by split_ifs <;> omega)
  rw [udmSQLEscStr]
  cases db.sqlEscStr with
  | some mysql => exact (mysql.length_le s).trans htwo
  | none =>
    dsimp only
    rcases udmSQLEscStrGeneric_cases db with hgen | hgen | hgen
    · rw [hgen]
      exact length_udmSQLEscStrPgSQL_le db s
    · rw [hgen]
      exact (length_udmSQLEscStrMonet_le s).trans htwo
    · rw [hgen]
      exact (length_udmSQLEscStrStandard_le s).trans htwo

theorem length_udmSQLBinEscCharForPg_le (c : UInt8) : (udmSQLBinEscCharForPg c).length ≤ 5 := by
  rw [udmSQLBinEscCharForPg]
  split_ifs <;> simp

theorem length_udmSQLBinEscStr_le (db : UdmDB) (s : List UInt8) : (udmSQLBinEscStr db s).length ≤ 5 * s.length := by
  rw [udmSQLBinEscStr]
  split_ifs with hdb
  · exact length_flatMap_le length_udmSQLBinEscCharForPg_le s
  · refine (length_udmSQLEscStr_le db s).trans ?_
    rw [if_neg hdb]
    omega

/-! ## No NUL is written -/

theorem not_mem_escapeChars (h : ∀ c, c ≠ 0 → (0 : UInt8) ∉ esc c) (s : List UInt8) :
    (0 : UInt8) ∉ escapeChars esc s := by
  intro hmem
  obtain ⟨c, hc, hzero⟩ := List.mem_flatMap.mp hmem
  exact h c (by simpa using List.mem_takeWhile_imp hc) hzero

theorem not_mem_udmSQLEscStr (db : UdmDB) (s : List UInt8) : (0 : UInt8) ∉ udmSQLEscStr db s := by
  rw [udmSQLEscStr]
  cases db.sqlEscStr with
  | some mysql => exact mysql.not_mem s
  | none =>
    dsimp only
    rcases udmSQLEscStrGeneric_cases db with hgen | hgen | hgen
    · rw [hgen]
      refine not_mem_escapeChars (fun c hc => ?_) s
      split_ifs with hbrace
      · rcases hbrace.2 with rfl | rfl <;> decide
      · simpa using hc.symm
      · simpa using hc.symm
    · rw [hgen]
      refine not_mem_escapeChars (fun c hc => ?_) s
      split_ifs <;> simpa using hc.symm
    · rw [hgen]
      refine not_mem_escapeChars (fun c hc => ?_) s
      split_ifs <;> simpa using hc.symm

theorem not_mem_udmSQLBinEscStr (db : UdmDB) (s : List UInt8) : (0 : UInt8) ∉ udmSQLBinEscStr db s := by
  rw [udmSQLBinEscStr]
  split_ifs
  · intro hmem
    obtain ⟨c, -, hzero⟩ := List.mem_flatMap.mp hmem
    exact @forall_byte (fun c => (0 : UInt8) ∉ udmSQLBinEscCharForPg c) (by decide +kernel) c hzero
  · exact not_mem_udmSQLEscStr db s

theorem not_mem_udmHexEncode (s : List UInt8) : (0 : UInt8) ∉ udmHexEncode s := by
  intro hmem
  obtain ⟨c, -, hzero⟩ := List.mem_flatMap.mp hmem
  exact @forall_byte (fun c => (0 : UInt8) ∉ [hexDigit ((c >>> 4) &&& 0x0F), hexDigit (c &&& 0x0F)]) (by decide +kernel) c
    hzero

end MnoGoSearch.Sql
