import MnoGoSearch.Lib.Buffer
import MnoGoSearch.Lib.SqlTokens
import MnoGoSearch.Sql.Escape
import MnoGoSearch.Sql.WhereInt
import MnoGoSearch.Vars.VarList

/-!
# The condition for the limits of a search

`UdmSQLBuildWhereCondition` (`sql.c`) makes a condition from the variables of a request. The names and the values are
escaped into small buffers first. The conditions of one kind are collected in one text, and these texts are joined.
-/

namespace MnoGoSearch.Sql

open Url Http Nntp
open MnoGoSearch.Lib (Buffer)
open Words (CString)

/-! ## The variables -/

/-- A variable of the request. Where the source has no name or no value, it is empty. -/
structure RequestVar where
  name : CString
  val : CString

/-- The parameters with strings. -/
inductive StrParam where
  | ul
  | ue
  | u
  /-- `tag` or `t`. -/
  | tag
  /-- `lang` or `g`. -/
  | lang
  | cat
  /-- `type` or `typ`. -/
  | type
  deriving DecidableEq

/-- The parameters with times. -/
inductive DateParam where
  | dt
  | dx
  | dm
  | dy
  | dd
  | dstmp
  | dp
  | db
  | de
  deriving DecidableEq

/-- What a variable is for. -/
inductive Param where
  | int (p : IntParam)
  | str (p : StrParam)
  /-- A limit by a section, `sl.` and its name. -/
  | sl
  | date (p : DateParam)
  | other
  deriving DecidableEq

/-- The comparisons with names in `UdmSQLBuildWhereCondition` and `UdmCheckDateParam`; no name is compared twice. -/
def paramOf (var : List UInt8) : Param :=
  if var = bytes "status" then .int .status
  else if var = bytes "seed" then .int .seed
  else if var = bytes "site" then .int .site
  else if var = bytes "ul" then .str .ul
  else if var = bytes "ue" then .str .ue
  else if var = bytes "u" then .str .u
  else if var = bytes "tag" ∨ var = bytes "t" then .str .tag
  else if var = bytes "lang" ∨ var = bytes "g" then .str .lang
  else if var.take 3 = bytes "sl." then .sl
  else if var = bytes "cat" then .str .cat
  else if var = bytes "type" ∨ var = bytes "typ" then .str .type
  else if var = bytes "dt" then .date .dt
  else if var = bytes "dx" then .date .dx
  else if var = bytes "dm" then .date .dm
  else if var = bytes "dy" then .date .dy
  else if var = bytes "dd" then .date .dd
  else if var = bytes "dstmp" then .date .dstmp
  else if var = bytes "dp" then .date .dp
  else if var = bytes "db" then .date .db
  else if var = bytes "de" then .date .de
  else .other

/-- `search_params`. -/
def searchParams : List (List UInt8) :=
  [bytes "ul", bytes "ue", bytes "u", bytes "tag", bytes "t", bytes "lang", bytes "g", bytes "cat", bytes "type",
    bytes "typ", bytes "sl.*"]

/-- `UdmFindStringParam` finds something. -/
def udmFindStringParam (name : List UInt8) : Bool := searchParams.any fun param => Vars.udmWildCaseCmp name param == 0

/-! ## Limits by strings -/

/-- `sqlname`. -/
def StrParam.sqlname : StrParam → List UInt8
  | .ul => bytes "url.url"
  | .ue => bytes "url.url"
  | .u => bytes "url.url"
  | .tag => bytes "s.tag"
  | .lang => bytes "il.sval"
  | .cat => bytes "c.path"
  | .type => bytes "it.sval"

/-- `UDM_ADD_PARAM_NEG`. -/
def StrParam.neg : StrParam → Bool
  | .ue => true
  | _ => false

/-- `UDM_ADD_PARAM_WITH_TAIL_PERCENT`. -/
def StrParam.tailPercent : StrParam → Bool
  | .ul => true
  | .ue => true
  | .cat => true
  | _ => false

/-- `UDM_ADD_PARAM_CHECK_URL_SCHEMA`. -/
def StrParam.checkUrlSchema : StrParam → Bool
  | .ul => true
  | .ue => true
  | _ => false

/-- What stands between the quotes. -/
def StrParam.literal (p : StrParam) (val : List UInt8) : List UInt8 :=
  (if p.checkUrlSchema ∧ (splitSchema val).isNone then bytes "%" else []) ++ val ++
    if p.tailPercent then bytes "%" else []

/-- `UdmSQLWhereStrParam`. -/
def udmSQLWhereStrParam (p : StrParam) (dstr val : List UInt8) : List UInt8 :=
  udmSQLWhereAddJoiner dstr (if p.neg then bytes " AND " else bytes " OR ") ++ p.sqlname ++ bytes " " ++
    (if p.neg then bytes "NOT " else []) ++ bytes "LIKE '" ++ p.literal val ++ bytes "')"

/-- The condition for a section, for the `n`-th of them. -/
def whereSl (n : ℕ) (dstr name val : List UInt8) : List UInt8 :=
  udmSQLWhereAddJoiner dstr (bytes " AND ") ++ bytes "isl" ++ decText n ++ bytes ".sname='" ++ name ++ bytes "' AND isl" ++
    decText n ++ bytes ".sval LIKE '" ++ val ++ bytes "')"

/-! ## Limits by time -/

/-- `dt`. -/
inductive DateType where
  | unknown
  | back
  | er
  | range
  deriving DecidableEq

/-- `UDM_DATE_PARAM`. -/
structure UdmDateParam where
  dt : DateType
  dx : Int32
  dm : Int32
  dy : Int32
  dd : Int32
  dp : ℤ
  DB : Int32
  DE : Int32
  dstmp : Int32

/-- The fields of `struct tm` that are used. -/
structure Tm where
  mday : Int32
  mon : Int32
  year : Int32

/-- A `long`. -/
def toLong (n : ℤ) : ℤ := n.bmod (2 ^ 64)

/-- `strtol`, and what is behind the number. -/
def strtol (s : List UInt8) : Option (ℤ × List UInt8) :=
  let t := s.dropWhile fun c => c == 0x20 || (0x09 ≤ c && c ≤ 0x0D)
  let digits := match t with
    | 0x2D :: t => t
    | 0x2B :: t => t
    | t => t
  if (digits.takeWhile isdigit).isEmpty then none
  else some (max (-0x8000000000000000) (min 0x7FFFFFFFFFFFFFFF (numberAt s)), digits.dropWhile isdigit)

/-- The seconds of a unit in `Udm_dp2time_t`. -/
def unitSeconds (c : UInt8) : Option ℤ :=
  if c = 0x73 then some 1
  else if c = 0x4D then some 60
  else if c = 0x68 then some (60 * 60)
  else if c = 0x64 then some (60 * 60 * 24)
  else if c = 0x6D then some (60 * 60 * 24 * 30)
  else if c = 0x79 then some (60 * 60 * 24 * 365)
  else none

/-- The loop in `Udm_dp2time_t`; `flag` says that a unit has been read. A round reads a character at least. -/
def dp2timeLoop : ℕ → Bool → ℤ → List UInt8 → ℤ
  | 0, _, t, _ => t
  | fuel + 1, flag, t, ts =>
    match strtol ts with
    | none => -1
    | some (i, s) =>
      match s.dropWhile fun c => c == 0x20 || (0x09 ≤ c && c ≤ 0x0D) with
      | [] => if flag then -1 else i
      | c :: s =>
        match unitSeconds c with
        | none => -1
        | some seconds =>
          let t := toLong (t + i * seconds)
          if s = [] then t else dp2timeLoop fuel true t s

/-- `Udm_dp2time_t`. -/
def udmDp2timeT (s : List UInt8) : ℤ := dp2timeLoop s.length false 0 s

/-- The clock and the calendar of the system. -/
structure Clock where
  /-- `time(NULL)`. -/
  now : ℤ
  mktime : Tm → ℤ

/-- `UdmDateParamInit`. -/
def udmDateParamInit (clock : Clock) : UdmDateParam :=
  ⟨.unknown, 1, 0, 1970, 1, 0, 0, Int32.ofInt clock.now, 0⟩

/-- `sscanf(val, "%d/%d/%d", …)`, and the day, the month and the year as `struct tm` has them. -/
def scanDate (val : List UInt8) : Tm :=
  let (mday, rest) := (scanInt val).elim (0, []) fun x => (x.1, x.2)
  let (mon, rest) := match rest with
    | 0x2F :: s => (scanInt s).elim (0, []) fun x => (x.1, x.2)
    | _ => (0, [])
  let year := match rest with
    | 0x2F :: s => (scanInt s).elim 0 fun x => x.1
    | _ => 0
  ⟨mday, mon - 1, year - 1900⟩

/-- `UdmCheckDateParam`, for a name that it knows. -/
def udmCheckDateParam (clock : Clock) (d : UdmDateParam) (p : DateParam) (val : List UInt8) : UdmDateParam :=
  let intval := Int32.ofInt (atoiInt val)
  match p with
  | .dt =>
    if strcaseeq val (bytes "back") then { d with dt := .back }
    else if strcaseeq val (bytes "er") then { d with dt := .er }
    else if strcaseeq val (bytes "range") then { d with dt := .range }
    else d
  | .dx => { d with dx := if intval = 1 ∨ intval = -1 then intval else 1 }
  | .dm => { d with dm := intval }
  | .dy => { d with dy := if intval ≠ 0 then intval else 1970 }
  | .dd => { d with dd := if intval ≠ 0 then intval else 1 }
  -- `atol` gives an `int` here too
  | .dstmp => { d with dstmp := intval }
  | .dp => { d with dp := udmDp2timeT val }
  | .db => { d with DB := Int32.ofInt (clock.mktime (scanDate val)) }
  | .de => { d with DE := Int32.ofInt (clock.mktime (scanDate val) + 86400) }

/-- `UdmSQLWhereDateParam`. -/
def udmSQLWhereDateParam (clock : Clock) (d : UdmDateParam) : List UInt8 :=
  match d.dt with
  | .back => if d.dp ≠ 0 then bytes "url.last_mod_time >= " ++ decText (toLong (clock.now - d.dp)) else []
  | .er =>
    bytes "url.last_mod_time " ++ (if d.dx = 1 then bytes ">=" else bytes "<=") ++ bytes " " ++
      decText (if d.dstmp ≠ 0 then d.dstmp.toInt else clock.mktime ⟨d.dd, d.dm, d.dy - 1900⟩)
  | .range =>
    bytes "url.last_mod_time >= " ++ decText d.DB.toInt ++ bytes " AND url.last_mod_time <= " ++ decText d.DE.toInt
  | .unknown => []

/-! ## All limits -/

/-- The kinds of conditions. -/
inductive CondKind where
  | url
  | ue
  | seed
  | status
  | site
  | tag
  | lang
  | cat
  | type
  | urlinfo
  deriving DecidableEq

/-- The kind of a limit by numbers. -/
def IntParam.kind : IntParam → CondKind
  | .status => .status
  | .seed => .seed
  | .site => .site

/-- The kind of a limit by strings. -/
def StrParam.kind : StrParam → CondKind
  | .ul => .url
  | .ue => .ue
  | .u => .url
  | .tag => .tag
  | .lang => .lang
  | .cat => .cat
  | .type => .type

/-- What `UdmSQLBuildWhereCondition` collects. -/
structure WhereState where
  cond : CondKind → List UInt8
  /-- `from`. -/
  fromText : List UInt8
  server : List UInt8
  fromserver : Bool
  fromurlinfoLang : Bool
  fromurlinfoType : Bool
  fromurlinfo : ℕ
  datep : UdmDateParam
  /-- A byte was written behind the end of `varbuf` or `valbuf`. -/
  overflow : Bool

/-- The texts at the beginning. -/
def whereStateInit (clock : Clock) : WhereState :=
  ⟨fun _ => [], [], [], true, true, true, 1, udmDateParamInit clock, false⟩

/-- The tables that a limit by strings needs. -/
def joinTables (st : WhereState) : StrParam → WhereState
  | .tag =>
    if st.fromserver then
      { st with fromserver := false, fromText := st.fromText ++ bytes ", server s",
                server := st.server ++ bytes " AND s.rec_id=url.server_id" }
    else st
  | .lang =>
    if st.fromurlinfoLang then
      { st with fromurlinfoLang := false, fromText := st.fromText ++ bytes ", urlinfo il",
                server := st.server ++ bytes " AND il.url_id=url.rec_id AND il.sname='Content-Language'" }
    else st
  | .cat =>
    if st.fromserver then
      { st with fromserver := false, fromText := st.fromText ++ bytes ", server s, categories c",
                server := st.server ++ bytes " AND s.rec_id=url.server_id AND s.category=c.rec_id" }
    else st
  | .type =>
    if st.fromurlinfoType then
      { st with fromurlinfoType := false, fromText := st.fromText ++ bytes ", urlinfo it",
                server := st.server ++ bytes " AND it.url_id=url.rec_id AND it.sname='Content-Type'" }
    else st
  | _ => st

/-- A text of one kind is changed. -/
def WhereState.update (st : WhereState) (k : CondKind) (f : List UInt8 → List UInt8) : WhereState :=
  { st with cond := Function.update st.cond k (f (st.cond k)) }

/-- A name and a value that are escaped are added; `intval` is the number in the value. -/
def addParam (clock : Clock) (DBSQL_IN : Bool) (st : WhereState) (var val : List UInt8) (intval : ℤ) : WhereState :=
  match paramOf var with
  | .int p => if p = .site ∧ intval = 0 then st else st.update p.kind fun t => udmSQLWhereIntParam DBSQL_IN p.sqlname t val
  | .str p => joinTables (st.update p.kind fun t => udmSQLWhereStrParam p t val) p
  | .sl =>
    { st.update .urlinfo fun t => whereSl st.fromurlinfo t (var.drop 3) val with
      fromText := st.fromText ++ bytes ", urlinfo isl" ++ decText st.fromurlinfo
      server := st.server ++ bytes " AND isl" ++ decText st.fromurlinfo ++ bytes ".url_id=url.rec_id"
      fromurlinfo := st.fromurlinfo + 1 }
  | .date p => { st with datep := udmCheckDateParam clock st.datep p val }
  | .other => st

/-- `UdmSQLEscStrSimple` writes into a buffer of some bytes. -/
def escapeSimple (size : ℕ) (src : List UInt8) : Buffer :=
  (⟨List.replicate size 0, false⟩ : Buffer).writes 0 (udmSQLEscStrSimple src ++ [0])

/-- A round of the loop for a variable that is not passed over. -/
def addVar (clock : Clock) (DBSQL_IN : Bool) (st : WhereState) (v : RequestVar) : WhereState :=
  let val := v.val.val.take 128
  let st := { st with overflow := st.overflow || (escapeSimple 64 v.name.val).overflow || (escapeSimple 128 val).overflow }
  addParam clock DBSQL_IN st (udmSQLEscStrSimple v.name.val) (udmSQLEscStrSimple val) (atoiInt v.val.val)

/-- The loop over the variables: what has been collected, and whether no limit was too long. -/
def collect (clock : Clock) (DBSQL_IN : Bool) : List RequestVar → WhereState → WhereState × Bool
  | [], st => (st, true)
  | v :: vars, st =>
    if v.val.val = [] ∨ 64 < v.name.val.length then collect clock DBSQL_IN vars st
    else if 128 < v.val.val.length ∧ udmFindStringParam v.name.val then (st, false)
    else collect clock DBSQL_IN vars (addVar clock DBSQL_IN st v)

/-- `WhereConditionDSTRAddAnd`. -/
def whereConditionAddAnd (text add : List UInt8) : List UInt8 :=
  if add = [] then text else if text = [] then add else text ++ bytes " AND " ++ add

/-- `need_new_str`. -/
def needNewStr (needNew : Bool) : List UInt8 :=
  if needNew then bytes "url.rec_id IN (SELECT url_id FROM bdicti WHERE state=1)" else []

/-- The condition from the texts. -/
def buildWhere (clock : Clock) (needNew : Bool) (st : WhereState) : List UInt8 :=
  let timecond := udmSQLWhereDateParam clock st.datep
  let text := [st.cond .ue, st.cond .seed, st.cond .status, st.cond .site, st.cond .tag, st.cond .lang, st.cond .cat,
    st.cond .type, st.cond .urlinfo, timecond].foldl whereConditionAddAnd (st.cond .url)
  let text := if st.server = [] then text else (if text = [] then bytes " 1=1 " else text) ++ st.server
  whereConditionAddAnd text (needNewStr needNew)

/-- The texts are empty but that of the categories, in the source's words. -/
def noLimits (clock : Clock) (needNew : Bool) (st : WhereState) : Prop :=
  st.cond .url = [] ∧ st.cond .tag = [] ∧ st.cond .cat ≠ [] ∧ st.cond .lang = [] ∧ st.cond .type = [] ∧
    udmSQLWhereDateParam clock st.datep = [] ∧ st.cond .urlinfo = [] ∧ needNewStr needNew = [] ∧ st.fromText = [] ∧
    st.server = [] ∧ st.cond .status = [] ∧ st.cond .site = [] ∧ st.cond .ue = [] ∧ st.cond .seed = []

instance (clock : Clock) (needNew : Bool) (st : WhereState) : Decidable (noLimits clock needNew st) :=
  inferInstanceAs (Decidable (_ ∧ _))

/-- What `UdmSQLBuildWhereCondition` leaves. -/
structure WhereResult where
  /-- The condition, if no limit is too long. -/
  where_ : Option (List UInt8)
  /-- A byte was written behind the end of `varbuf` or `valbuf`. -/
  overflow : Bool

/-- `UdmSQLBuildWhereCondition`, when it is called for the first time; `needNew` is the variable `delta`. -/
def udmSQLBuildWhereCondition (clock : Clock) (DBSQL_IN needNew : Bool) (vars : List RequestVar) : WhereResult :=
  let (st, ok) := collect clock DBSQL_IN vars (whereStateInit clock)
  ⟨if ok then some (if noLimits clock needNew st then [] else buildWhere clock needNew st) else none, st.overflow⟩

end MnoGoSearch.Sql
