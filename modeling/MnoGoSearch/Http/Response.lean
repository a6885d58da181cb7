import MnoGoSearch.Lib.Buffer
import MnoGoSearch.Url.Canonize
import MnoGoSearch.Vars.VarList

/-!
# HTTP responses

`UdmParseHTTPResponse` (`http.c`) finds where the content of a response begins, and puts its headers
into the sections of the document. A cookie becomes a section too: its name has the name of the cookie,
its domain and its path.
-/

namespace MnoGoSearch.Http

open Url Vars Words
open MnoGoSearch.Lib (Buffer)
open MnoGoSearch.Lib.Sorting

/-! ## Documents -/

/-- `Buf` of a document. -/
structure DocBuf where
  buf : Buffer
  /-- How many bytes of it are used. -/
  size : ℕ
  maxsize : ℕ
  content : Option ℕ
  /-- The length of the content, if it is known from elsewhere. -/
  contentLength : ℕ
  deriving DecidableEq

/-- `UDM_DOCUMENT`, as far as it is used here. -/
structure UdmDocument where
  buf : DocBuf
  /-- What is known about the document. -/
  sections : UdmVarList
  curURL : UdmUrl

/-! ## Texts -/

/-- The tokens of a text, as `udm_strtok_r` gives them one after another. -/
def tokens (delim : List UInt8) (s : List UInt8) : List (List UInt8) :=
  (s.splitOnP fun c => delim.contains c).filter fun t => !t.isEmpty

/-- `UdmTrim`. -/
def udmTrim (delim : List UInt8) (s : List UInt8) : List UInt8 :=
  (s.reverse.dropWhile fun c => delim.contains c).reverse.dropWhile fun c => delim.contains c

/-- `atoi`: a `long` first, then an `int`. -/
def atoiInt (s : List UInt8) : ℤ :=
  (max (-0x8000000000000000) (min 0x7FFFFFFFFFFFFFFF (numberAt s))).bmod 0x100000000

/-- `UdmVarListFindInt`. -/
def udmVarListFindInt (l : UdmVarList) (name : CString) (defval : ℤ) : ℤ :=
  match udmVarListFind l name with
  | some (v, _) => v.val.elim defval fun val => atoiInt val.val
  | none => defval

/-- The headers, and how many bytes are behind them: an empty line. -/
def cutHeaders : List UInt8 → Option (List UInt8 × ℕ)
  | [] => none
  | c :: s =>
    if (c :: s).take 4 = bytes "\r\n\r\n" then some ([], 4)
    else if (c :: s).take 2 = bytes "\n\n" then some ([], 2)
    else (cutHeaders s).map fun (headers, n) => (c :: headers, n)

/-! ## Cookies -/

/-- A cookie that a response sets. -/
structure SetCookie where
  name : List UInt8
  value : List UInt8
  /-- The domain, if it is given. -/
  domain : Option (List UInt8)
  path : Option (List UInt8)
  deriving DecidableEq

/-- One part of the header; there is no cookie before the first one with a value. -/
def cookiePart (c : Option SetCookie) (part : List UInt8) : Option SetCookie :=
  match strchr (udmTrim (bytes " ") part) 0x3D with
  | none => c
  | some (part, arg) =>
    match c with
    | none => some ⟨part, arg, none, none⟩
    | some c =>
      if strcaseeq part (bytes "path") then some { c with path := some arg }
      else if strcaseeq part (bytes "domain") then some { c with domain := some arg }
      else some c

/-- The cookie of the header. -/
def setCookie (val : List UInt8) : Option SetCookie := (tokens (bytes ";") val).foldl cookiePart none

/-- The domain that a cookie gets: the one that is given, if it begins with a dot, or the host. -/
def cookieDomain (url : UdmUrl) (c : SetCookie) : List UInt8 :=
  match c.domain with
  | some (0x2E :: domain) => domain
  | _ => url.hostname.getD (bytes "localhost")

/-- The path that a cookie gets. -/
def cookiePath (url : UdmUrl) (c : SetCookie) : List UInt8 := c.path.getD url.path

/-- `fullname`: 256 bytes, with its NUL. -/
def cookieVar (url : UdmUrl) (c : SetCookie) : List UInt8 :=
  (bytes "Set-Cookie." ++ c.name ++ 0x40 :: (cookieDomain url c ++ cookiePath url c)).take 255

/-! ## Headers -/

/-- A header is a cookie. -/
def headerCookie (token : List UInt8) : Option SetCookie :=
  match strchr token 0x3A with
  | some (name, val) => if strcaseeq name (bytes "Set-Cookie") then setCookie (udmTrim (bytes " \t:") val) else none
  | none => none

/-- The section that a header becomes, and its value. -/
def headerVar (url : UdmUrl) (token : List UInt8) : Option (List UInt8 × List UInt8) :=
  match strchr token 0x3A with
  | none => some (token, bytes "<NULL>")
  | some (name, val) =>
    let val := udmTrim (bytes " \t:") val
    if strcaseeq name (bytes "Set-Cookie") then
      (setCookie val).map fun c => (cookieVar url c, c.value)
    else if strcaseeq name (bytes "Content-Type") ∨ strcaseeq name (bytes "Content-Encoding") then
      some (name, val.map tolower)
    else some (name, val)

variable (udmSort : QSort VarLE)

/-- A header becomes a section. -/
def putHeader (url : UdmUrl) (sections : UdmVarList) (token : List UInt8) : UdmVarList :=
  match headerVar url token with
  | some (name, val) => udmVarListReplaceStr udmSort sections (CString.take name) (some (CString.take val))
  | none => sections

/-- `UdmVarListReplaceInt`. -/
def udmVarListReplaceInt (l : UdmVarList) (name : List UInt8) (val : ℤ) : UdmVarList :=
  udmVarListReplaceStr udmSort l (CString.take name) (some (CString.take (decText val)))

/-- What a new response makes of the sections of an old one. -/
def resetSections (sections : UdmVarList) (size : ℕ) : UdmVarList :=
  udmVarListDel
    (udmVarListDel (udmVarListReplaceInt udmSort sections (bytes "ResponseSize") ((size : ℤ).bmod 0x100000000))
      (CString.take (bytes "Content-Length")))
    (CString.take (bytes "Last-Modified"))

/-- The first line of a response, and its status if there is none that is greater. -/
def putStatus (sections : UdmVarList) (oldstatus : ℤ) (line : List UInt8) : UdmVarList :=
  let status := atoiInt (line.drop 8)
  udmVarListReplaceInt udmSort
    (udmVarListReplaceStr udmSort sections (CString.take (bytes "ResponseLine")) (some (CString.take line)))
    (bytes "Status") (if status < oldstatus then oldstatus else status)

/-- `UdmParseHTTPResponse`. -/
def udmParseHTTPResponse (doc : UdmDocument) : UdmDocument :=
  let oldstatus := udmVarListFindInt doc.sections (CString.take (bytes "Status")) 0
  let sections := resetSections udmSort doc.sections doc.buf.size
  match cutHeaders doc.buf.buf.str with
  | none => { doc with buf := { doc.buf with content := some doc.buf.size }, sections := sections }
  | some (headers, n) =>
    let content := headers.length + n
    let buf := { doc.buf with buf := doc.buf.buf.write headers.length 0, content := some content }
    match tokens (bytes "\r\n") headers with
    | [] => { doc with buf := buf, sections := sections }
    | line :: lines =>
      if line.take 5 = bytes "HTTP/" then
        let sections := lines.foldl (putHeader udmSort doc.curURL) (putStatus udmSort sections oldstatus line)
        let length := ((doc.buf.size : ℤ) - content + doc.buf.contentLength).bmod 0x100000000
        { doc with
          buf := buf
          sections := udmVarListInsStr udmSort sections (CString.take (bytes "Content-Length"))
            (some (CString.take (decText length))) }
      else { doc with buf := buf, sections := sections }

end MnoGoSearch.Http
