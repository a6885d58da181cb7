import MnoGoSearch.Blob.Pack
import MnoGoSearch.Nntp.Dialogue
import MnoGoSearch.Sql.Escape
import MnoGoSearch.Utils.Dstr

/-!
# The query cache

`UdmQueryCachePutSQL` (`qcache.c`) writes the result of a search into a table: twelve bytes for a document, and an XML
text about the words. The memory for the query is reserved before, 24 bytes for a document and five times the length of
the XML text. `cachePutFits_iff` says when this is enough: always, but with PostgreSQL when nothing is bound, where a
document may take 60 bytes.
-/

namespace MnoGoSearch.Sql

open Url Utils UdmDstr
open Blob (udmPutInt4)
open Nntp (length_decText_le)

/-! ## The query -/

/-- `UDM_URLDATA`, as far as it is used here. -/
structure UdmURLData where
  urlId : ℤ
  score : ℤ
  /-- How many documents of its site were found. -/
  perSite : ℤ

/-- The bytes of a document. -/
def UdmURLData.bytes (D : UdmURLData) : List UInt8 := udmPutInt4 D.urlId ++ udmPutInt4 D.score ++ udmPutInt4 D.perSite

/-- A document in `UdmURLDataListEncode`; without a database the bytes are added as they are. -/
def encodeItem (db : Option UdmDB) (buf : UdmDstr) (D : UdmURLData) : UdmDstr :=
  match db with
  | none => buf.append D.bytes
  | some db => if db.DBType = .pgsql then buf.putRaw (udmSQLBinEscStr db D.bytes) else buf.appendHex D.bytes

/-- `UdmURLDataListEncode`. -/
def udmURLDataListEncode (items : List UdmURLData) (db : Option UdmDB) (buf : UdmDstr) : UdmDstr :=
  items.foldl (encodeItem db) buf

/-- `prefix`. -/
def blobPrefix (db : UdmDB) : List UInt8 :=
  if db.DBType = .pgsql then bytes "'"
  else if db.haveStdHex then bytes "X'"
  else if db.haveBlobAsHex then bytes "'"
  else bytes "0x"

/-- `suffix`. -/
def blobSuffix (db : UdmDB) : List UInt8 :=
  if db.DBType = .pgsql then bytes "'"
  else if db.haveStdHex then bytes "'"
  else if db.haveBlobAsHex then bytes "'"
  else []

/-- What is written first. -/
def insertHead (id tm : Int32) : List UInt8 :=
  bytes "INSERT INTO qcache (id, tm, doclist, wordinfo) VALUES (" ++ decText id.toInt ++ bytes ", " ++ decText tm.toInt ++
    bytes ", "

/-- The memory that is reserved. -/
def reservation (nitems wwlLength : ℕ) : UdmDstr := (UdmDstr.init 256).realloc (nitems * 24 + 128 + wwlLength * 5)

/-- `buf` and `bindata` in `UdmQueryCachePutSQL`; `wwl` is the XML text, and `placeHolder` is `UdmSQLParamPlaceHolder`. -/
def udmQueryCachePutSQL (db : UdmDB) (placeHolder : ℕ → List UInt8) (id tm : Int32) (items : List UdmURLData)
    (wwl : List UInt8) : UdmDstr × UdmDstr :=
  let buf := (reservation items.length wwl.length).appendf 3 (insertHead id tm)
  let bindata := UdmDstr.init 2048
  if db.haveBindBinary then
    ((((buf.append (placeHolder 1)).append (bytes ",")).append (placeHolder 2)).append (bytes ")"),
      udmURLDataListEncode items none bindata)
  else
    let buf := udmURLDataListEncode items (some db) (buf.append (blobPrefix db))
    let buf := (buf.append (blobSuffix db)).append (bytes ",'")
    ((buf.putRaw (udmSQLEscStr db wwl)).append (bytes "')"), bindata)

/-- Every byte is written in the memory. -/
def CachePutFits (db : UdmDB) (placeHolder : ℕ → List UInt8) (id tm : Int32) (items : List UdmURLData)
    (wwl : List UInt8) : Prop :=
  (udmQueryCachePutSQL db placeHolder id tm items wwl).1.buf.overflow = false ∧
    (udmQueryCachePutSQL db placeHolder id tm items wwl).2.buf.overflow = false

/-- A byte that PostgreSQL gets as an octal number. -/
def needsOctal (c : UInt8) : Bool := c < 0x20 || 0x7F < c || c == 0x27 || c == 0x5C

/-- How many bytes of the documents become octal numbers. -/
def octals (items : List UdmURLData) : ℕ := (items.map fun D => D.bytes.countP needsOctal).sum

/-- The bytes in front of the documents for PostgreSQL, and those of the documents. -/
def pgLength (id tm : Int32) (items : List UdmURLData) : ℕ :=
  (insertHead id tm).length + 1 + (12 * items.length + 4 * octals items)

/-- The memory that is reserved: whole pages of 256 bytes. -/
def reserved24 (nitems wwlLength : ℕ) : ℕ :=
  if nitems * 24 + 128 + wwlLength * 5 ≤ 256 then 256 else ((nitems * 24 + 128 + wwlLength * 5) / 256 + 1) * 256

/-- What is reserved is enough for PostgreSQL: for the documents and a NUL, and then for the XML text too, for which the
memory has grown by a page when there were no four bytes left. -/
def PgFits (db : UdmDB) (id tm : Int32) (items : List UdmURLData) (wwl : List UInt8) : Prop :=
  pgLength id tm items + 1 ≤ reserved24 items.length wwl.length ∧
    pgLength id tm items + 3 + (udmSQLEscStr db wwl).length + 1 ≤
      reserved24 items.length wwl.length +
        if reserved24 items.length wwl.length ≤ pgLength id tm items + 3 then 256 else 0

/-! ## The parts -/

section

variable {db : UdmDB} {id tm : Int32} {items : List UdmURLData} {wwl : List UInt8} {d : UdmDstr}

theorem length_insertHead_le (id tm : Int32) : (insertHead id tm).length ≤ 81 := by
  have hid := length_decText_le id
  have htm := length_decText_le tm
  have htext : (bytes "INSERT INTO qcache (id, tm, doclist, wordinfo) VALUES (").length = 55 ∧ (bytes ", ").length = 2 :=
    ⟨by decide +kernel, rfl⟩
  rw [insertHead]
  simp only [List.length_append]
  omega

theorem length_udmPutInt4 (i : ℤ) : (udmPutInt4 i).length = 4 := Lib.LittleEndian.length_putLE _ _

theorem length_item (D : UdmURLData) : D.bytes.length = 12 := by
  rw [UdmURLData.bytes, List.length_append, List.length_append, length_udmPutInt4, length_udmPutInt4, length_udmPutInt4]

theorem room_reservation (nitems wwlLength : ℕ) : (reservation nitems wwlLength).Room :=
  ((room_init (by decide)).realloc _).room

theorem sizeTotal_reservation (nitems wwlLength : ℕ) :
    (reservation nitems wwlLength).sizeTotal = reserved24 nitems wwlLength := by
  have hinit : (UdmDstr.init 256).sizeTotal = 256 := List.length_replicate
  rw [reservation, realloc, reserved24, hinit]
  split_ifs with h
  · exact hinit
  · refine sizeTotal_grow ?_
    have hpages := lt_pages (nitems * 24 + 128 + wwlLength * 5) (show 0 < 256 by decide)
    rw [hinit]
    show 256 ≤ ((nitems * 24 + 128 + wwlLength * 5) / 256 + 1) * 256
    omega

theorem le_reserved24 (nitems wwlLength : ℕ) :
    256 ≤ reserved24 nitems wwlLength ∧ nitems * 24 + 128 + wwlLength * 5 ≤ reserved24 nitems wwlLength := by
  have hpages := lt_pages (nitems * 24 + 128 + wwlLength * 5) (show 0 < 256 by decide)
  rw [reserved24]
  split_ifs with h <;> omega

theorem extends_head (nitems wwlLength : ℕ) (id tm : Int32) :
    Extends (reservation nitems wwlLength) ((reservation nitems wwlLength).appendf 3 (insertHead id tm))
        (insertHead id tm).length ∧
      ((reservation nitems wwlLength).appendf 3 (insertHead id tm)).sizeTotal = reserved24 nitems wwlLength := by
  have hhead := length_insertHead_le id tm
  have hsize : (reservation nitems wwlLength).sizeData = 0 := ((room_init (by decide)).realloc _).data
  have htotal := sizeTotal_reservation nitems wwlLength
  have hpage := (le_reserved24 nitems wwlLength).1
  rw [appendf_of_room 2 (by rw [htotal, hsize]; omega), sizeTotal_putRaw]
  exact ⟨(room_reservation _ _).putRaw (by rw [htotal, hsize]; omega), htotal⟩

theorem extends_foldl {f : UdmDstr → UdmURLData → UdmDstr} {k : ℕ} (hf : ∀ d D, d.Room → Extends d (f d D) k)
    (hd : d.Room) : Extends d (items.foldl f d) (k * items.length) := by
  induction items generalizing d with
  | nil => exact hd.refl
  | cons D items ih =>
    have hstep := hf d D hd
    have hall := hstep.trans (ih hstep.room)
    rw [List.foldl_cons, List.length_cons, Nat.mul_succ, Nat.add_comm]
    exact hall

theorem overflow_encode_none (items : List UdmURLData) (hd : d.Room) :
    (udmURLDataListEncode items none d).buf.overflow = true ↔ d.buf.overflow = true := by
  refine (extends_foldl (k := 12) (fun d D hd => ?_) hd).overflow
  rw [← length_item D]
  exact hd.append D.bytes

theorem extends_encode_hex (hdb : db.DBType ≠ .pgsql) (items : List UdmURLData) (hd : d.Room) :
    Extends d (udmURLDataListEncode items (some db) d) (24 * items.length) := by
  refine extends_foldl (fun d D hd => ?_) hd
  have hhex := hd.appendHex D.bytes
  rw [length_item] at hhex
  rw [encodeItem]
  exact (if_neg hdb).symm ▸ hhex

/-- The bytes of the documents for PostgreSQL. -/
def pgItems (db : UdmDB) (items : List UdmURLData) : ℕ := (items.map fun D => (udmSQLBinEscStr db D.bytes).length).sum

theorem encode_pgsql_cons (hdb : db.DBType = .pgsql) (D : UdmURLData) (items : List UdmURLData) (d : UdmDstr) :
    udmURLDataListEncode (D :: items) (some db) d =
      udmURLDataListEncode items (some db) (d.putRaw (udmSQLBinEscStr db D.bytes)) := by
  rw [udmURLDataListEncode, List.foldl_cons, encodeItem]
  exact (if_pos hdb).symm ▸ rfl

theorem sizes_encode_pgsql (hdb : db.DBType = .pgsql) (items : List UdmURLData) (d : UdmDstr) :
    (udmURLDataListEncode items (some db) d).sizeData = d.sizeData + pgItems db items ∧
      (udmURLDataListEncode items (some db) d).sizeTotal = d.sizeTotal ∧
      (udmURLDataListEncode items (some db) d).sizePage = d.sizePage := by
  induction items generalizing d with
  | nil => exact ⟨rfl, rfl, rfl⟩
  | cons D items ih =>
    obtain ⟨hdata, htotal, hpage⟩ := ih (d.putRaw (udmSQLBinEscStr db D.bytes))
    rw [encode_pgsql_cons hdb]
    refine ⟨?_, htotal.trans (sizeTotal_putRaw _ _), hpage⟩
    rw [hdata, pgItems, pgItems, List.map_cons, List.sum_cons, ← Nat.add_assoc]
    rfl

theorem length_udmSQLBinEscStr_eq (hdb : db.DBType = .pgsql) (s : List UInt8) :
    (udmSQLBinEscStr db s).length = s.length + 4 * s.countP needsOctal := by
  rw [udmSQLBinEscStr, if_pos hdb]
  induction s with
  | nil => rfl
  | cons c s ih =>
    have hc := @forall_byte (fun c => (udmSQLBinEscCharForPg c).length = 1 + 4 * if needsOctal c = true then 1 else 0)
      (by decide +kernel) c
    rw [List.flatMap_cons, List.length_append, ih, hc, List.length_cons, List.countP_cons]
    omega

theorem pgItems_eq (hdb : db.DBType = .pgsql) (items : List UdmURLData) :
    pgItems db items = 12 * items.length + 4 * octals items := by
  induction items with
  | nil => rfl
  | cons D items ih =>
    rw [pgItems, List.map_cons, List.sum_cons, length_udmSQLBinEscStr_eq hdb, length_item, octals, List.map_cons,
      List.sum_cons, List.length_cons]
    rw [pgItems, octals] at ih
    omega

/-- **Documents for PostgreSQL** are written in the memory when they fit with a NUL. -/
theorem overflow_encode_pgsql_iff (hdb : db.DBType = .pgsql) (items : List UdmURLData)
    (hd : d.sizeData < d.sizeTotal) : (udmURLDataListEncode items (some db) d).buf.overflow = true ↔
      d.buf.overflow = true ∨ d.sizeTotal < d.sizeData + pgItems db items + 1 := by
  have hkeep : ∀ (items : List UdmURLData) (d : UdmDstr), d.buf.overflow = true →
      (udmURLDataListEncode items (some db) d).buf.overflow = true := by
    intro items
    induction items with
    | nil => exact fun d h => h
    | cons D items ih =>
      intro d h
      rw [encode_pgsql_cons hdb]
      exact ih _ (overflow_putRaw_of_true h _)
  induction items generalizing d with
  | nil => exact (or_iff_left (Nat.not_lt.mpr hd)).symm
  | cons D items ih =>
    have hput := overflow_putRaw_iff hd.le (udmSQLBinEscStr db D.bytes)
    have hsum : pgItems db (D :: items) = (udmSQLBinEscStr db D.bytes).length + pgItems db items := by
      rw [pgItems, List.map_cons, List.sum_cons, pgItems]
    rw [encode_pgsql_cons hdb, hsum]
    rcases Nat.lt_or_ge (d.sizeData + (udmSQLBinEscStr db D.bytes).length) d.sizeTotal with hlt | hge
    · have hnext : (d.putRaw (udmSQLBinEscStr db D.bytes)).sizeData < (d.putRaw (udmSQLBinEscStr db D.bytes)).sizeTotal := by
        rw [sizeTotal_putRaw]
        exact hlt
      refine (ih hnext).trans ?_
      rw [hput, or_iff_left (show ¬d.sizeTotal < _ by omega), sizeTotal_putRaw, ← Nat.add_assoc]
      exact Iff.rfl
    · refine iff_of_true (hkeep _ _ (hput.mpr (Or.inr (by omega)))) (Or.inr (by omega))

/-! ## The whole query -/

theorem overflow_reservation (nitems wwlLength : ℕ) : (reservation nitems wwlLength).buf.overflow = false :=
  Bool.eq_false_iff.mpr (((room_init (by decide)).realloc _).overflow.not.mpr Bool.false_ne_true)

theorem overflow_of_extends {d' : UdmDstr} {n : ℕ} (h : Extends d d' n) (hd : d.buf.overflow = false) :
    d'.buf.overflow = false :=
  Bool.eq_false_iff.mpr (h.overflow.not.mpr (Bool.eq_false_iff.mp hd))

theorem cachePutFits_of_bind (hbind : db.haveBindBinary = true) (placeHolder : ℕ → List UInt8) :
    CachePutFits db placeHolder id tm items wwl := by
  obtain ⟨hhead, -⟩ := extends_head items.length wwl.length id tm
  have hfirst := hhead.room.append (placeHolder 1)
  have hcomma := hfirst.room.append (bytes ",")
  have hsecond := hcomma.room.append (placeHolder 2)
  have hlast := hsecond.room.append (bytes ")")
  have hbuf := overflow_of_extends (hhead.trans (hfirst.trans (hcomma.trans (hsecond.trans hlast))))
    (overflow_reservation _ _)
  have hdata := overflow_encode_none items (room_init (show 0 < 2048 by decide))
  rw [CachePutFits, udmQueryCachePutSQL]
  dsimp only
  rw [if_pos hbind]
  exact ⟨hbuf, Bool.eq_false_iff.mpr (hdata.not.mpr Bool.false_ne_true)⟩

theorem overflow_close_iff (hd : d.Room) (hover : d.buf.overflow = false) (s : List UInt8) :
    ((d.putRaw s).append (bytes "')")).buf.overflow = false ↔ d.sizeData + s.length + 1 ≤ d.sizeTotal := by
  rcases Nat.lt_or_ge d.sizeTotal (d.sizeData + s.length + 1) with hlt | hge
  · have hput := (overflow_putRaw_iff hd.data s).mpr (Or.inr hlt)
    rw [overflow_append_of_true hput]
    exact iff_of_false (by simp) (by omega)
  · have hput := hd.putRaw (s := s) (by omega)
    exact iff_of_true (overflow_of_extends (hput.trans (hput.room.append (bytes "')"))) hover) hge

theorem cachePutFits_of_hex (hdb : db.DBType ≠ .pgsql) (hbind : db.haveBindBinary = false)
    (placeHolder : ℕ → List UInt8) : CachePutFits db placeHolder id tm items wwl := by
  obtain ⟨hhead, htotal⟩ := extends_head items.length wwl.length id tm
  have hbegin := hhead.room.append (blobPrefix db)
  have hitems := extends_encode_hex hdb items hbegin.room
  have hend := hitems.room.append (blobSuffix db)
  have hcomma := hend.room.append (bytes ",'")
  have hall := hhead.trans (hbegin.trans (hitems.trans (hend.trans hcomma)))
  have hover := overflow_of_extends hall (overflow_reservation _ _)
  rw [CachePutFits, udmQueryCachePutSQL]
  dsimp only
  rw [if_neg (by rw [hbind]; exact Bool.false_ne_true)]
  refine ⟨(overflow_close_iff hcomma.room hover _).mpr ?_, rfl⟩
  have hsize : (reservation items.length wwl.length).sizeData = 0 := ((room_init (by decide)).realloc _).data
  have hmem := (hbegin.trans (hitems.trans (hend.trans hcomma))).total
  have hhead81 := length_insertHead_le id tm
  have hesc := length_udmSQLEscStr_le db wwl
  have hreserved := (le_reserved24 items.length wwl.length).2
  have hprefix2 : (blobPrefix db).length ≤ 2 := by
    rw [blobPrefix]
    split_ifs <;> decide
  have hsuffix1 : (blobSuffix db).length ≤ 1 := by
    rw [blobSuffix]
    split_ifs <;> decide
  have hcomma2 : (bytes ",'").length = 2 := rfl
  rw [if_neg hdb] at hesc
  refine le_trans ?_ hmem
  rw [hall.data, hsize, htotal]
  omega

theorem cachePutFits_pgsql_iff (hdb : db.DBType = .pgsql) (hbind : db.haveBindBinary = false)
    (placeHolder : ℕ → List UInt8) : CachePutFits db placeHolder id tm items wwl ↔ PgFits db id tm items wwl := by
  obtain ⟨hhead, htotal⟩ := extends_head items.length wwl.length id tm
  have hsize : (reservation items.length wwl.length).sizeData = 0 := ((room_init (by decide)).realloc _).data
  have hhead81 := length_insertHead_le id tm
  have hpage := (le_reserved24 items.length wwl.length).1
  have hquote : (bytes "'").length = 1 := rfl
  have hbegin := hhead.room.append (bytes "'")
  have hdata : (((reservation items.length wwl.length).appendf 3 (insertHead id tm)).append (bytes "'")).sizeData =
      (insertHead id tm).length + 1 := by rw [hbegin.data, hhead.data, hsize, hquote, Nat.zero_add]
  have htotal1 : (((reservation items.length wwl.length).appendf 3 (insertHead id tm)).append (bytes "'")).sizeTotal =
      reserved24 items.length wwl.length := by
    rw [sizeTotal_append (by decide), appendTotal, htotal, hhead.data, hsize, hquote, if_neg (by omega)]
  have hpage1 : (((reservation items.length wwl.length).appendf 3 (insertHead id tm)).append (bytes "'")).sizePage = 256 := by
    rw [hbegin.page, hhead.page]
    exact ((room_init (by decide)).realloc _).page
  have hover1 := overflow_of_extends (hhead.trans hbegin) (overflow_reservation _ _)
  have hitems := overflow_encode_pgsql_iff hdb items (by rw [hdata, htotal1]; omega)
  obtain ⟨hdata2, htotal2, hpage2⟩ := sizes_encode_pgsql hdb items
    (((reservation items.length wwl.length).appendf 3 (insertHead id tm)).append (bytes "'"))
  rw [hdata] at hitems hdata2
  rw [htotal1] at hitems htotal2
  rw [hpage1] at hpage2
  rw [hover1, or_iff_right Bool.false_ne_true] at hitems
  have hpre : blobPrefix db = bytes "'" := if_pos hdb
  have hsuf : blobSuffix db = bytes "'" := if_pos hdb
  rw [CachePutFits, udmQueryCachePutSQL, hpre, hsuf]
  dsimp only
  rw [if_neg (by rw [hbind]; exact Bool.false_ne_true), and_iff_left (show (UdmDstr.init 2048).buf.overflow = false from rfl),
    PgFits]
  have hlength : (insertHead id tm).length + 1 + pgItems db items = pgLength id tm items := by
    rw [pgItems_eq hdb, pgLength]
  rw [hlength] at hdata2 hitems
  generalize udmURLDataListEncode items (some db)
    (((reservation items.length wwl.length).appendf 3 (insertHead id tm)).append (bytes "'")) = d at *
  rcases Nat.lt_or_ge (reserved24 items.length wwl.length) (pgLength id tm items + 1) with hlt | hge
  · -- the documents are written behind the end
    have hd := overflow_append_of_true (overflow_putRaw_of_true (overflow_append_of_true (overflow_append_of_true
      (hitems.mpr hlt) (bytes "'")) (bytes ",'")) (udmSQLEscStr db wwl)) (bytes "')")
    rw [hd]
    exact iff_of_false (by simp) (by omega)
  · have hroom : d.Room := ⟨by rw [hpage2]; decide, by rw [hdata2, htotal2]; omega⟩
    have hend := hroom.append (bytes "'")
    have hcomma := hend.room.append (bytes ",'")
    have hover := overflow_of_extends (hend.trans hcomma) (Bool.eq_false_iff.mpr (hitems.not.mpr (by omega)))
    have hcomma2 : (bytes ",'").length = 2 := rfl
    have htotal3 : (d.append (bytes "'")).sizeTotal = reserved24 items.length wwl.length +
        if reserved24 items.length wwl.length ≤ pgLength id tm items + 1 then 256 else 0 := by
      rw [sizeTotal_append (by decide), appendTotal, hquote, hdata2, htotal2, hpage2]
      split_ifs <;> omega
    have htotal4 : ((d.append (bytes "'")).append (bytes ",'")).sizeTotal = reserved24 items.length wwl.length +
        if reserved24 items.length wwl.length ≤ pgLength id tm items + 3 then 256 else 0 := by
      rw [sizeTotal_append (by decide), appendTotal, hcomma2, htotal3, hend.data, hdata2, hquote, hend.page, hpage2]
      split_ifs <;> omega
    rw [overflow_close_iff hcomma.room hover, hcomma.data, hend.data, hdata2, hquote, hcomma2, htotal4, and_iff_right hge]

/-- The query fits in its memory. -/
theorem cachePutFits_iff (db : UdmDB) (placeHolder : ℕ → List UInt8) (id tm : Int32) (items : List UdmURLData)
    (wwl : List UInt8) : CachePutFits db placeHolder id tm items wwl ↔
      (db.DBType = .pgsql → db.haveBindBinary = false → PgFits db id tm items wwl) := by
  cases hbind : db.haveBindBinary with
  | true => exact iff_of_true (cachePutFits_of_bind hbind placeHolder) fun _ h => absurd h (by simp)
  | false =>
    by_cases hdb : db.DBType = .pgsql
    · rw [cachePutFits_pgsql_iff hdb hbind]
      exact ⟨fun h _ _ => h, fun h => h hdb rfl⟩
    · exact iff_of_true (cachePutFits_of_hex hdb hbind placeHolder) fun h => absurd h hdb

/-- **A document takes 60 bytes** for PostgreSQL when all its bytes are escaped: a hundred documents with small numbers do
not fit. -/
theorem not_forall_cachePutFits : ¬∀ db placeHolder id tm items wwl, CachePutFits db placeHolder id tm items wwl := by
  intro h
  have hfits := (@cachePutFits_pgsql_iff ⟨.pgsql, 80400, false, false, false, false, none⟩ 0 0 _ _ rfl rfl fun _ => []).mp
    (h _ (fun _ => []) 0 0 (List.replicate 100 ⟨1, 1, 0⟩) (bytes "<result></result>"))
  have hoctals : octals (List.replicate 100 ⟨1, 1, 0⟩) = 1200 := by decide +kernel
  have hreserved : reserved24 100 17 = 2816 := by decide
  have hdocs := hfits.1
  rw [pgLength, hoctals, List.length_replicate, show (bytes "<result></result>").length = 17 from rfl, hreserved] at hdocs
  omega

end

end MnoGoSearch.Sql
