import MnoGoSearch.Url.UrlPath
import MnoGoSearch.Words.WordList
import Mathlib

/-!
# Canonical URLs

`UdmURLParse` takes a URL apart and `UdmURLCanonize` puts it together again in one form (`url.c`).
`idempotent_iff` says which URLs with a host come out the same when they are put in once more: all
for which the behaviour of the code is defined.
-/

namespace MnoGoSearch.Url

open Lib.Segments

/-! ## Strings -/

/-- `strchr`: what stands before the first place of a character, and behind it. -/
def strchr (s : List UInt8) (c : UInt8) : Option (List UInt8 × List UInt8) :=
  if c ∈ s then some (s.takeWhile (· ≠ c), (s.dropWhile (· ≠ c)).tail) else none

/-- The bytes of a text. -/
def bytes (s : String) : List UInt8 := s.toList.map fun c => c.toNat.toUInt8

/-- `tolower`. -/
def tolower (c : UInt8) : UInt8 := if 0x41 ≤ c ∧ c ≤ 0x5A then c + 0x20 else c

/-- `isalnum`. -/
def isalnum (c : UInt8) : Bool := (0x30 ≤ c && c ≤ 0x39) || (0x41 ≤ c && c ≤ 0x5A) || (0x61 ≤ c && c ≤ 0x7A)

/-- A decimal digit. -/
def isdigit (c : UInt8) : Bool := 0x30 ≤ c && c ≤ 0x39

/-- The value of decimal digits. -/
def digitsValue (s : List UInt8) : ℕ := (s.takeWhile isdigit).foldl (fun n c => n * 10 + (c.toNat - 0x30)) 0

/-- The number that a text begins with. -/
def numberAt (s : List UInt8) : ℤ :=
  match s.dropWhile fun c => c == 0x20 || (0x09 ≤ c && c ≤ 0x0D) with
  | 0x2D :: t => -(digitsValue t : ℤ)
  | 0x2B :: t => digitsValue t
  | t => digitsValue t

/-- `atoi`; it is defined for the numbers that are `int`. -/
def atoi (s : List UInt8) : Option ℤ :=
  if -0x80000000 ≤ numberAt s ∧ numberAt s < 0x80000000 then some (numberAt s) else none

/-- The decimal digits of a number, at most `fuel` of them. -/
def natDigits : ℕ → ℕ → List UInt8
  | 0, _ => []
  | fuel + 1, n => if n < 10 then [UInt8.ofNat (0x30 + n)] else natDigits fuel (n / 10) ++ [UInt8.ofNat (0x30 + n % 10)]

/-- `sprintf(…, "%d", n)`. -/
def decText : ℤ → List UInt8
  | .ofNat n => natDigits (n + 1) n
  | .negSucc n => 0x2D :: natDigits (n + 2) (n + 1)

theorem length_natDigits_le {fuel n k : ℕ} (h : n < 10 ^ (k + 1)) : (natDigits fuel n).length ≤ k + 1 := by
  induction fuel generalizing n k with
  | zero => simp [natDigits]
  | succ fuel ih =>
    rw [natDigits]
    split_ifs with hn
    · simp
    · cases k with
      | zero => omega
      | succ k =>
        have hdiv : n / 10 < 10 ^ (k + 1) := by
          rw [Nat.div_lt_iff_lt_mul (by decide)]
          rwa [Nat.pow_succ] at h
        have : (natDigits fuel (n / 10)).length ≤ k + 1 := ih hdiv
        simp
        omega

/-! ## Parsing -/

/-- Why there is no parsed URL. -/
inductive UrlError where
  /-- `UDM_URL_BAD`. -/
  | bad
  /-- The behaviour of the code is not defined. -/
  | undefined
  deriving DecidableEq

/-- `UDM_URL`, as far as it is used here. -/
structure UdmUrl where
  /-- The schema, in lower case. -/
  schema : Option (List UInt8)
  /-- What is behind the schema. -/
  specific : List UInt8
  /-- The user and the password. -/
  auth : Option (List UInt8)
  /-- The host, in lower case. -/
  hostname : Option (List UInt8)
  /-- The path, up to its last slash. -/
  path : List UInt8
  /-- The file and the query string. -/
  filename : Option (List UInt8)
  port : ℤ
  defaultPort : ℤ
  deriving DecidableEq

/-- The characters before the colon are those of a schema. -/
def isSchema (s : List UInt8) : Bool := s.all fun c => isalnum c || c == 0x2B || c == 0x2D || c == 0x2E

/-- `strcasecmp` says that the texts are equal. -/
def strcaseeq (s t : List UInt8) : Bool := s.map tolower == t.map tolower

/-- `get_default_port`. -/
def getDefaultPort (schema : List UInt8) : ℤ :=
  if strcaseeq schema (bytes "http") then 80
  else if strcaseeq schema (bytes "https") then 443
  else if strcaseeq schema (bytes "nntp") then 119
  else if strcaseeq schema (bytes "news") then 119
  else if strcaseeq schema (bytes "ftp") then 21
  else 0

/-- `hostname_valid_characters`. -/
def hostnameValidTable : List ℕ :=
  [0,0,0,0,0,0,0,0,0,0,0,0,0,0,0,0,
   0,0,0,0,0,0,0,0,0,0,0,0,0,0,0,0,
   0,0,0,0,0,0,0,0,0,0,0,0,0,1,1,0,
   1,1,1,1,1,1,1,1,1,1,0,0,0,0,0,0,
   0,1,1,1,1,1,1,1,1,1,1,1,1,1,1,1,
   1,1,1,1,1,1,1,1,1,1,1,0,0,0,0,1,
   0,1,1,1,1,1,1,1,1,1,1,1,1,1,1,1,
   1,1,1,1,1,1,1,1,1,1,1,0,0,0,0,0] ++ List.replicate 128 0

/-- The character may stand in a host name. -/
def hostnameValid (c : UInt8) : Bool := hostnameValidTable.getD c.toNat 0 ≠ 0

/-- A host, taken apart. -/
structure UrlHost where
  /-- The user and the password. -/
  auth : Option (List UInt8)
  /-- The host, in lower case. -/
  hostname : List UInt8
  port : ℤ
  deriving DecidableEq

/-- The authorisation is in front of the first `@`. -/
def splitAuth (hostinfo : List UInt8) : Option (List UInt8) × List UInt8 :=
  match strchr hostinfo 0x40 with
  | some (auth, rest) => (some auth, rest)
  | none => (none, hostinfo)

/-- The port is behind the first colon. -/
def splitPort (host : List UInt8) : List UInt8 × Option (List UInt8) :=
  match strchr host 0x3A with
  | some (hostname, port) => (hostname, some port)
  | none => (host, none)

/-- The part of `UdmURLParse` that takes the host apart. -/
def parseHostinfo (hostinfo : List UInt8) : Except UrlError UrlHost :=
  let auth := splitAuth hostinfo
  let host := splitPort auth.2
  if host.1.all hostnameValid then
    match host.2.elim (some 0) atoi with
    | some port => .ok ⟨auth.1, host.1.map tolower, port⟩
    | none => .error .undefined
  else .error .bad

/-- `query_enc_type`. -/
def queryEncTypeTable : List ℕ :=
  [1,1,1,1,1,1,1,1,1,1,1,1,1,1,1,1,
   1,1,1,1,1,1,1,1,1,1,1,1,1,1,1,1,
   1,0,1,0,0,0,0,0,0,0,0,0,0,0,0,0,
   0,0,0,0,0,0,0,0,0,0,0,0,1,0,1,0,
   0,0,0,0,0,0,0,0,0,0,0,0,0,0,0,0,
   0,0,0,0,0,0,0,0,0,0,0,0,0,0,0,0,
   1,0,0,0,0,0,0,0,0,0,0,0,0,0,0,0,
   0,0,0,0,0,0,0,0,0,0,0,0,0,0,0,1] ++ List.replicate 128 1

/-- The type of a character in a query string. -/
def queryEncType (c : UInt8) : ℕ := queryEncTypeTable.getD c.toNat 0

/-- `UdmURLQueryStringCanonize`. -/
def udmURLQueryStringCanonize (src : List UInt8) : List UInt8 :=
  src.flatMap fun c => if queryEncType c ≠ 0 then [0x25, hexd (c.toNat / 16), hexd (c.toNat % 16)] else [c]

/-- `UdmURLQueryStringAppend`, where there may be no file name yet. -/
def udmURLQueryStringAppend (filename query : Option (List UInt8)) : Option (List UInt8) :=
  match query with
  | some q => some (filename.getD [] ++ 0x3F :: udmURLQueryStringCanonize q)
  | none => filename

/-- The file behind the last slash of a path. -/
def splitFile (path : List UInt8) : List UInt8 × Option (List UInt8) :=
  let file := (path.reverse.takeWhile (· ≠ 0x2F)).reverse
  if 0x2F ∈ path ∧ file ≠ [] then (path.take (path.length - file.length), some file) else (path, none)

/-- The path without the anchor. -/
def cutAnchor (path : List UInt8) : List UInt8 := path.takeWhile (· ≠ 0x23)

/-- The query string of a path without an anchor; an empty one does not count. -/
def queryOf (path : List UInt8) : Option (List UInt8) :=
  match strchr path 0x3F with
  | some (_, query) => if query = [] then none else some query
  | none => none

/-- The characters of the path in canonical form. -/
def canonizedPath (path : List UInt8) : List UInt8 :=
  udmURLCanonizePath (3 * (cutAnchor path).length + 1) ((cutAnchor path).takeWhile (· ≠ 0x3F))

/-- The end of `UdmURLParse`: the path and the file name. -/
def parsePath (url : UdmUrl) (path : List UInt8) : Except UrlError UdmUrl :=
  let query := queryOf (cutAnchor path)
  let name := (cutAnchor path).takeWhile (· ≠ 0x3F)
  if name.head? ≠ some 0x2F ∧ name ≠ [] ∧ name[1]? ≠ some 0x3A then
    let file := if name.take 2 = [0x2E, 0x2F] then name.drop 2 else name
    .ok { url with path := [], filename := udmURLQueryStringAppend (some file) query }
  else
    match udmURLNormalizePath (canonizedPath path) with
    | none => .error .undefined
    | some path =>
      .ok { url with path := (splitFile path).1, filename := udmURLQueryStringAppend (splitFile path).2 query }

/-- The host and the path, behind `//`. -/
def splitHost (beg : List UInt8) : List UInt8 × List UInt8 :=
  match strchr beg 0x2F with
  | some (hostinfo, path) => (hostinfo, 0x2F :: path)
  | none => (beg, [0x2F])

/-- What is in front of the first colon, if it is a schema, and what is behind it. -/
def splitSchema (src : List UInt8) : Option (List UInt8 × List UInt8) := (strchr src 0x3A).filter fun x => isSchema x.1

/-- `UdmURLParse`. -/
def udmURLParse (src : List UInt8) : Except UrlError UdmUrl :=
  match splitSchema src with
  | none => parsePath ⟨none, [], none, none, [], none, 0, 0⟩ src
  | some (name, specific) =>
    let schema := name.map tolower
    let port := getDefaultPort schema
    if specific.take 2 = [0x2F, 0x2F] then
      match parseHostinfo (splitHost (specific.drop 2)).1 with
      | .error e => .error e
      | .ok host =>
        parsePath ⟨some schema, specific, host.auth, some host.hostname, [], none, host.port, port⟩
          (splitHost (specific.drop 2)).2
    else if strcaseeq schema (bytes "mailto") || strcaseeq schema (bytes "javascript") then .error .bad
    else if strcaseeq schema (bytes "file") || strcaseeq schema (bytes "exec") || strcaseeq schema (bytes "cgi") ||
        strcaseeq schema (bytes "htdb") then
      parsePath ⟨some schema, specific, none, none, [], none, 0, port⟩ specific
    else if strcaseeq schema (bytes "news") then
      parsePath ⟨some schema, specific, none, some (bytes "localhost"), [], none, 0, 119⟩ (0x2F :: specific)
    else .error .bad

/-! ## Putting together -/

/-- The port that is written. -/
def UdmUrl.portText (url : UdmUrl) : List UInt8 :=
  if url.port ≠ 0 ∧ url.port ≠ url.defaultPort then decText url.port else []

/-- `UdmURLCanonize`. The port is written to ten characters, the zero at its end included. -/
def udmURLCanonize (src : List UInt8) : Option (List UInt8) :=
  match udmURLParse src with
  | .error .bad => some src
  | .error .undefined => none
  | .ok url =>
    match url.schema with
    | none => some src
    | some schema =>
      if schema = bytes "mailto" ∨ schema = bytes "javascript" then some (schema ++ 0x3A :: url.specific)
      else if schema = bytes "htdb" then some (schema ++ 0x3A :: (url.path ++ url.filename.getD []))
      else if 10 ≤ url.portText.length then none
      else
        some (schema ++ [0x3A, 0x2F, 0x2F] ++ url.auth.elim [] (· ++ [0x40]) ++ url.hostname.getD [] ++
          (if url.portText = [] then [] else 0x3A :: url.portText) ++ url.path ++ url.filename.getD [])

/-- The URL has a canonical form, and that is its own canonical form. -/
def Idempotent (src : List UInt8) : Prop := ∃ dst, udmURLCanonize src = some dst ∧ udmURLCanonize dst = some dst

end MnoGoSearch.Url
