import MnoGoSearch.Lib.Buffer
import MnoGoSearch.Url.Canonize
import Mathlib

/-!
# Texts of templates

How a text of a template is printed (`PrintTextTemplate` in `template.c`). A text has characters and
references to variables, as `$(name)`, `$&(name:80)` or `$%(name)`. The value of a variable may be cut
to a length, and is printed as the sign before the name says: without highlighting, as HTML, as it
is, or as a part of a URL.
-/

namespace MnoGoSearch.Template

open Url
open MnoGoSearch.Lib (Buffer)

/-! ### Values -/

/-- `HiLightDup`: the marks of found words become these texts. -/
def hiLightDup (src beg fin : List UInt8) : List UInt8 :=
  src.flatMap fun c => if c = 2 then beg else if c = 3 then fin else [c]

/-- The code of `&#...;`, and what is behind it. -/
def charCode (s : List UInt8) : Option (ℤ × List UInt8) :=
  match s.dropWhile isdigit with
  | 0x3B :: s' => some ((digitsValue s : ℤ).bmod 0x100000000, s')
  | _ => none

/-- The loop of `UdmRemoveHiLightDup`, at most `fuel` characters. -/
def removeHiLight : ℕ → List UInt8 → List UInt8
  | 0, _ => []
  | _, [] => []
  | fuel + 1, c :: s =>
    if c = 2 ∨ c = 3 then removeHiLight fuel s
    else
      match c, s with
      | 0x26, 0x23 :: s' =>
        match charCode s' with
        | some (code, s'') => (if code < 128 then UInt8.ofNat (code % 256).toNat else 0x3F) :: removeHiLight fuel s''
        | none => c :: removeHiLight fuel s
      | _, _ => c :: removeHiLight fuel s

/-- `UdmRemoveHiLightDup`: a string without marks; a character reference becomes its character, which
may be a NUL. -/
def udmRemoveHiLightDup (s : List UInt8) : List UInt8 := (removeHiLight s.length s).takeWhile (· ≠ 0)

/-- `"%X"`, for a byte. -/
def hexByte (c : UInt8) : List UInt8 :=
  let digit (n : ℕ) : UInt8 := UInt8.ofNat (if n < 10 then 0x30 + n else 0x41 + (n - 10))
  if c.toNat < 16 then [digit c.toNat] else [digit (c.toNat / 16), digit (c.toNat % 16)]

/-- `UdmEscapeURL`. -/
def udmEscapeURL (s : List UInt8) : List UInt8 :=
  s.flatMap fun c =>
    if 0x80 ≤ c ∨ c ∈ bytes "%&<>+[](){}/?#'\"\\;," then 0x25 :: hexByte c
    else if c = 0x20 then [0x2B]
    else [c]

/-- `base64`. -/
def base64 (n : ℕ) : UInt8 :=
  (bytes "ABCDEFGHIJKLMNOPQRSTUVWXYZabcdefghijklmnopqrstuvwxyz0123456789+/").getD n 0

/-- `udm_base64_encode`. -/
def udmBase64Encode : List UInt8 → List UInt8
  | s0 :: s1 :: s2 :: s =>
    base64 (s0.toNat / 4) :: base64 (s0.toNat % 4 * 16 + s1.toNat / 16) :: base64 (s1.toNat % 16 * 4 + s2.toNat / 64) ::
      base64 (s2.toNat % 64) :: udmBase64Encode s
  | [s0, s1] =>
    [base64 (s0.toNat / 4), base64 (s0.toNat % 4 * 16 + s1.toNat / 16), base64 (s1.toNat % 16 * 4), 0x3D]
  | [s0] => [base64 (s0.toNat / 4), base64 (s0.toNat % 4 * 16), 0x3D, 0x3D]
  | [] => []

/-! ### Cuts -/

/-- The byte of a string at some place; behind its end is a NUL. -/
def charAt (s : List UInt8) (i : ℕ) : UInt8 := s.getD i 0

/-- Back over letters and digits: the first loop of `UdmHtmlStrLeft`. -/
def alnumBegin (str : List UInt8) : ℕ → ℕ
  | 0 => 0
  | b + 1 => if isalnum (charAt str (b + 1)) then alnumBegin str b else b + 1

/-- `UdmHtmlStrLeft`: the first bytes of a string, without the beginning of a character reference at
the end. -/
def udmHtmlStrLeft (str : List UInt8) (pos : ℕ) : ℕ :=
  if str.length < pos then str.length
  else
    let b := alnumBegin str (if 0 < pos ∧ charAt str pos = 0x3B then pos - 1 else pos)
    -- the reference begins with `&`, or with `&#`
    let beg :=
      if charAt str b = 0x26 then some b
      else if charAt str b = 0x23 ∧ 0 < b ∧ charAt str (b - 1) = 0x26 then some (b - 1)
      else none
    match beg with
    | none => pos
    | some beg =>
      let e := if pos < str.length ∧ (charAt str pos = 0x23 ∨ charAt str pos = 0x26) then pos + 1 else pos
      if ((str.drop e).dropWhile isalnum).head? = some 0x3B then beg else pos

/-- There is a mark, and no other mark is nearer to the end where the search for it begins. -/
def markFirst (s : List UInt8) (mark other : UInt8) : Bool :=
  match s.findIdx? (· == mark), s.findIdx? (· == other) with
  | some m, some o => m < o
  | some _, none => true
  | none, _ => false

/-- The first bytes of a value: `$(name:n)`. A mark that is open is closed. -/
def leftValue (value : List UInt8) (maxlen : ℕ) : List UInt8 :=
  let left := value.take (udmHtmlStrLeft value maxlen)
  if markFirst left.reverse 2 3 then left ++ 3 :: bytes "..." else left ++ bytes "..."

/-- The last bytes of a value: `$(name:-n)`. A mark that is closed is opened. -/
def rightValue (value : List UInt8) (maxlen : ℕ) : List UInt8 :=
  let right := value.drop (udmHtmlStrLeft value (value.length - maxlen))
  if markFirst right 3 2 then 2 :: right else right

/-- A value that is cut, if it is longer than `maxlen`. -/
def cutValue (value : List UInt8) (maxlen : ℕ) (neg : Bool) : List UInt8 :=
  if maxlen < value.length ∧ 0 < maxlen then if neg then rightValue value maxlen else leftValue value maxlen
  else value

/-! ### Texts -/

/-- How a variable is printed. -/
inductive VarType
  /-- `$(`. -/
  | plain
  /-- `$%(`. -/
  | url
  /-- `$&(`. -/
  | html
  /-- `$^(`. -/
  | raw
  | base64
  deriving DecidableEq

/-- A reference to a variable. -/
structure VarRef where
  type : VarType
  name : List UInt8
  /-- How many bytes of its value are printed, 0 for all. -/
  maxlen : ℕ
  neg : Bool
  deriving DecidableEq

/-- What a text has: characters, and references. -/
inductive Piece
  | char (c : UInt8)
  | var (ref : VarRef)
  deriving DecidableEq

/-- The sign of a reference, and what is behind its parenthesis. -/
def varType (s : List UInt8) : Option (VarType × List UInt8) :=
  match s with
  | 0x24 :: 0x28 :: s => some (.plain, s)
  | 0x24 :: 0x25 :: 0x28 :: s => some (.url, s)
  | 0x24 :: 0x26 :: 0x28 :: s => some (.html, s)
  | 0x24 :: 0x5E :: 0x28 :: s => some (.raw, s)
  | _ => if strcaseeq (s.take 8) (bytes "$base64(") then some (.base64, s.drop 8) else none

/-- The place of the parenthesis that closes a reference: what is before it, and behind it. -/
def findVend : ℕ → List UInt8 → Option (List UInt8 × List UInt8)
  | _, [] => none
  | pcount, c :: s =>
    if c = 0x28 then (findVend (pcount + 1) s).map fun (pre, post) => (c :: pre, post)
    else if c = 0x29 then
      if pcount = 1 then some ([], s) else (findVend (pcount - 1) s).map fun (pre, post) => (c :: pre, post)
    else (findVend pcount s).map fun (pre, post) => (c :: pre, post)

/-- `atoi` into a `size_t`: a `long` first, then an `int`. -/
def atoiSize (s : List UInt8) : ℕ :=
  ((max (-0x8000000000000000) (min 0x7FFFFFFFFFFFFFFF (numberAt s))).bmod 0x100000000 % 0x10000000000000000).toNat

/-- The reference of a type with this text between its parentheses, of which 99 bytes are used. -/
def varRef (type : VarType) (text : List UInt8) : VarRef :=
  match strchr (text.take 99) 0x3A with
  | none => ⟨type, text.take 99, 0, false⟩
  | some (name, 0x2D :: sem) => ⟨type, name, atoiSize sem, true⟩
  | some (name, sem) => ⟨type, name, atoiSize sem, false⟩

/-- The first piece of a text, and the rest of the text. -/
def nextPiece (c : UInt8) (s : List UInt8) : Piece × List UInt8 :=
  match varType (c :: s) with
  | some (type, vbeg) =>
    match findVend 1 vbeg with
    | some (text, rest) => (.var (varRef type text), rest)
    | none => (.char c, s)
  | none => (.char c, s)

/-- The pieces of a text, at most `fuel` of them. -/
def piecesAux : ℕ → List UInt8 → List Piece
  | 0, _ => []
  | _, [] => []
  | fuel + 1, c :: s => (nextPiece c s).1 :: piecesAux fuel (nextPiece c s).2

/-- The pieces of a text. -/
def pieces (templ : List UInt8) : List Piece := piecesAux templ.length templ

example : pieces (bytes "a$(b:-3)$") = [.char 0x61, .var ⟨.plain, [0x62], 3, true⟩, .char 0x24] := rfl

/-! ### Printing -/

/-- A variable, as far as it is printed. -/
structure TmplVar where
  /-- Where it comes from: `section`. -/
  sec : ℤ
  val : Option (List UInt8)

/-- What texts are printed with. -/
structure Agent (V : Type*) where
  varListFind : V → List UInt8 → Option TmplVar
  /-- `A->doccount`. -/
  doccount : V → ℕ
  /-- The documents are counted, and `ndocs` is set. -/
  countDocs : V → V
  /-- `UdmConvDup`, from the charset of the browser to itself as HTML. -/
  convDup : List UInt8 → List UInt8
  hlBeg : List UInt8
  hlEnd : List UInt8

variable {V : Type*}

/-- `UdmTemplatePrintVar`: what is printed of a value. -/
def udmTemplatePrintVar (A : Agent V) (value : List UInt8) : VarType → List UInt8
  | .plain => udmRemoveHiLightDup value
  | .html => hiLightDup (A.convDup value) A.hlBeg A.hlEnd
  | .raw => hiLightDup value A.hlBeg A.hlEnd
  | .url => udmEscapeURL value
  | .base64 => udmBase64Encode value

/-- The type of a reference, when variables of the query and of the environment are escaped. -/
def escapedType (autoEscape : Bool) (type : VarType) (var : TmplVar) : VarType :=
  if type = .plain ∧ autoEscape ∧ (var.sec = 1 ∨ var.sec = 2) then .html else type

/-- The value of a variable: with the marks, or without. -/
def varValue (type : VarType) (var : TmplVar) : List UInt8 :=
  match type with
  | .html | .raw => var.val.getD []
  | _ => (var.val.map udmRemoveHiLightDup).getD []

/-- The documents are counted if they are asked for the first time. -/
def countNdocs (A : Agent V) (name : List UInt8) (vars : V) : V :=
  if A.doccount vars = 0 ∧ strcaseeq name (bytes "ndocs") then A.countDocs vars else vars

/-- What is printed of a reference. -/
def printRef (A : Agent V) (autoEscape : Bool) (vars : V) (ref : VarRef) : List UInt8 :=
  match A.varListFind vars ref.name with
  | some var =>
    let type := escapedType autoEscape ref.type var
    udmTemplatePrintVar A (cutValue (varValue type var) ref.maxlen ref.neg) type
  | none => udmTemplatePrintVar A [] ref.type

/-- The state of the loop of `PrintTextTemplate`. -/
structure PrintState (V : Type*) where
  buf : Buffer
  /-- How much is printed; more than `dst_len` if not all of a value fits. -/
  dlen : ℕ
  vars : V

/-- The loop of `PrintTextTemplate` into memory from `dst` on. -/
def printPieces (A : Agent V) (autoEscape : Bool) (dst dstLen : ℕ) (s : PrintState V) : List Piece → PrintState V
  | [] => s
  | p :: ps =>
    if s.dlen < dstLen then
      match p with
      | .char c =>
        let buf := (s.buf.write (dst + s.dlen) c).write (dst + s.dlen + 1) 0
        printPieces A autoEscape dst dstLen { s with buf := buf, dlen := s.dlen + 1 } ps
      | .var ref =>
        let vars := countNdocs A ref.name s.vars
        let text := printRef A autoEscape vars ref
        -- `out_string` adds what there is room for, and returns the length of all
        let buf := s.buf.strncat (dst + s.dlen) text (dstLen - s.dlen - 1)
        printPieces A autoEscape dst dstLen ⟨buf, s.dlen + text.length, vars⟩ ps
    else s

/-- `PrintTextTemplate`, with a buffer and no stream. -/
def printTextTemplate (A : Agent V) (autoEscape : Bool) (buf : Buffer) (dst dstLen : ℕ) (vars : V) (templ : List UInt8) :
    PrintState V :=
  printPieces A autoEscape dst dstLen ⟨buf.write dst 0, 0, vars⟩ (pieces templ)

end MnoGoSearch.Template
