import MnoGoSearch.Message.Rfc1522
import MnoGoSearch.Url.Canonize
import Mathlib

/-!
# The message parser

`UdmMessageParserExec` (`message.c`) reads the headers of a message, and of a multipart message the parts, each
of which is a message again. It goes over the memory with `p->tok` up to `p->end`, and calls handlers. A run
stops here with a fault where a byte is read that is not in the memory, or where `p->tok` passes the end.
-/

namespace MnoGoSearch.Message

open Url (bytes tolower strcaseeq)

/-! ## Memory -/

/-- What a run must not do. -/
inductive Fault where
  /-- A byte outside the memory is read. -/
  | outside
  /-- `p->tok` is behind `p->end`. -/
  | past
  | more
  deriving DecidableEq

/-- A part of a run. -/
abbrev Scan (α : Type) : Type := Except Fault α

/-- A byte of the memory. -/
def byteAt (m : List UInt8) (i : ℕ) : Scan UInt8 :=
  match m[i]? with
  | some c => .ok c
  | none => .error .outside

/-- Some bytes of the memory. -/
def bytesAt (m : List UInt8) (i n : ℕ) : Scan (List UInt8) :=
  if i + n ≤ m.length then .ok ((m.drop i).take n) else .error .outside

/-- `end - tok` as a `size_t`. -/
def bytesLeft (ends tok : ℕ) : ℕ := if tok ≤ ends then ends - tok else ends + 2 ^ 64 - tok

/-- `UdmIsNewLine`. -/
def newLineAt (m : List UInt8) (tok ends : ℕ) : Scan ℕ :=
  if bytesLeft ends tok = 0 then .ok 0
  else do
    let c ← byteAt m tok
    if c = 0x0A then .ok 1
    else if bytesLeft ends tok < 2 then .ok 0
    else if c = 0x0D then do
      let d ← byteAt m (tok + 1)
      if d = 0x0A then .ok 2 else .ok 0
    else .ok 0

/-- `UdmIsHeaderEnd`. -/
def headerEndAt (m : List UInt8) (tok ends : ℕ) : Scan ℕ := do
  let length ← newLineAt m tok ends
  if length = 0 ∨ ends ≤ tok + length then .ok 0
  else do
    let c ← byteAt m (tok + length)
    if udmIsSpaceOrTab c then .ok 0 else .ok length

/-- `UdmFindNewLine`: the beginning of the next line, and the length of the line break. -/
def findNewLine (m : List UInt8) (ends tok : ℕ) : Scan (Option (ℕ × ℕ)) :=
  if tok < ends then do
    let length ← newLineAt m tok ends
    if length ≠ 0 then .ok (some (tok + length, length)) else findNewLine m ends (tok + 1)
  else .ok none
  termination_by ends - tok

/-! ## The parser -/

/-- What a handler is called for. -/
inductive Call where
  /-- `event_handler`. -/
  | event (name : List UInt8)
  /-- `header_handler`. -/
  | header (name value : List UInt8)
  /-- `part_handler`. -/
  | part (body : List UInt8)
  /-- `content_handler`. -/
  | content (body : List UInt8)
  deriving DecidableEq

/-- `UDM_MESSAGE_PARSER`, and the calls that have been made, those for the parts included. -/
structure MessageParser where
  tok : ℕ
  /-- `end`. -/
  ends : ℕ
  boundary : List UInt8
  isMultipart : Bool
  errstr : List UInt8
  /-- How many messages this one is a part of. -/
  level : ℕ
  /-- The calls of the handlers, each with its level. -/
  calls : List (ℕ × Call)
  deriving DecidableEq

/-- What the functions of the parser return. -/
inductive Ret where
  /-- `UDM_MSG_OK`. -/
  | ok
  /-- `UDM_MSG_CRLF`. -/
  | crlf
  /-- `UDM_MSG_ERROR`. -/
  | error
  deriving DecidableEq

/-- A handler is called. -/
def MessageParser.call (p : MessageParser) (c : Call) : MessageParser := { p with calls := p.calls ++ [(p.level, c)] }

/-- A message for the caller. -/
def MessageParser.fail (p : MessageParser) (text : List UInt8) : MessageParser := { p with errstr := text.take 127 }

/-- `p->tok += n`. -/
def MessageParser.advance (p : MessageParser) (n : ℕ) : Scan MessageParser :=
  if p.tok + n ≤ p.ends then .ok { p with tok := p.tok + n } else .error .past

/-! ### Headers -/

/-- The characters of a name. -/
def isNameByte (c : UInt8) : Bool := 33 ≤ c && c ≤ 126

/-- The loop over a name: where it stops, and whether it has met another character. -/
def scanName (m : List UInt8) (ends tok : ℕ) : Scan (ℕ × Bool) :=
  if tok < ends then do
    let c ← byteAt m tok
    if c = 0x3A then .ok (tok, false) else if isNameByte c = false then .ok (tok, true) else scanName m ends (tok + 1)
  else .ok (tok, false)
  termination_by ends - tok

/-- The loop over a value: where it ends, and the length of the line break. -/
def scanValue (m : List UInt8) (ends tok : ℕ) : Scan (Option (ℕ × ℕ)) :=
  if tok < ends then do
    let length ← headerEndAt m tok ends
    if length ≠ 0 then .ok (some (tok, length)) else scanValue m ends (tok + 1)
  else .ok none
  termination_by ends - tok

/-- Skip trailing spaces and tabs. -/
def trimRight (value : List UInt8) : List UInt8 := value.rdropWhile udmIsSpaceOrTab

/-- The boundary begins here, perhaps with a quotation mark. -/
def boundaryToken (s : List UInt8) : List UInt8 :=
  if s.head? = some 0x22 then s.tail.takeWhile (· ≠ 0x22)
  else s.takeWhile fun c => c ≠ 0 ∧ c ≠ 0x20 ∧ c ≠ 0x3B

/-- `UDM_MSG_BOUNDARY_MAX_LENGTH`. -/
def boundaryMaxLength : ℕ := 70

/-- `UdmMessageGetBoundary`: the boundary in a value, or the one before. -/
def udmMessageGetBoundary (old : List UInt8) : List UInt8 → List UInt8
  | [] => old
  | c :: s =>
    if 10 < (c :: s).length then
      if strcaseeq ((c :: s).take 9) (bytes "boundary=") then
        let token := boundaryToken ((c :: s).drop 9)
        if token.length ≤ boundaryMaxLength then token else old
      else udmMessageGetBoundary old s
    else old

/-- What a header does: `Content-Type` says whether there are parts. -/
def MessageParser.header (p : MessageParser) (name value : List UInt8) : MessageParser :=
  let p := p.call (.header name value)
  if strcaseeq name (bytes "Content-Type") then
    let isMultipart := decide (11 ≤ value.length) && strcaseeq (value.take 10) (bytes "multipart/")
    { p with
      isMultipart := isMultipart
      boundary := if isMultipart then udmMessageGetBoundary p.boundary value else p.boundary }
  else p

/-- The value of a header. -/
def scanHeaderValue (m : List UInt8) (p : MessageParser) (name : List UInt8) : Scan (Ret × MessageParser) := do
  match ← scanValue m p.ends p.tok with
  | some (tok, length) =>
    let p' ← { p.header name (trimRight ((m.drop p.tok).take (tok - p.tok))) with tok := tok }.advance length
    .ok (.ok, p')
  | none => .ok (.error, { p with tok := p.ends }.fail (bytes "End-Of-Headers not found"))

/-- The message for a character that is no part of a name. -/
def unexpectedCharacter (name : List UInt8) : List UInt8 :=
  bytes "Unexpected character in header name after '" ++ (name.drop (name.length - 32)).takeWhile (· ≠ 0) ++ bytes "'"

/-- `UdmMessageScanHeader`. -/
def udmMessageScanHeader (m : List UInt8) (p : MessageParser) : Scan (Ret × MessageParser) := do
  let length ← newLineAt m p.tok p.ends
  if length ≠ 0 then
    let p ← p.advance length
    .ok (.crlf, p)
  else
    let (tok, bad) ← scanName m p.ends p.tok
    let name := (m.drop p.tok).take (tok - p.tok)
    if bad then .ok (.error, { p with tok := tok }.fail (unexpectedCharacter name))
    else
      -- skip colon
      let p ← { p with tok := tok }.advance 1
      let length ← newLineAt m p.tok p.ends
      let p ← p.advance length
      let c ← byteAt m p.tok
      if udmIsSpaceOrTab c then
        let p ← p.advance 1
        scanHeaderValue m p name
      -- a header with an empty value
      else if 0 < length then .ok (.ok, p.call (.header name []))
      else scanHeaderValue m p name

/-- The loop over the headers, at most `fuel` ones. -/
def scanHeaders (m : List UInt8) : ℕ → MessageParser → Scan (Ret × MessageParser)
  | 0, _ => .error .more
  | fuel + 1, p => do
    let (rc, p) ← udmMessageScanHeader m p
    if rc = .ok then scanHeaders m fuel p else .ok (rc, p)

/-! ### Parts -/

/-- `FindBoundary`. -/
def findBoundary (m boundary : List UInt8) (ends tok : ℕ) : Scan (Option ℕ) :=
  if tok + boundary.length < ends then do
    let c ← byteAt m tok
    if c ≠ 0x2D then findBoundary m boundary ends (tok + 1)
    else do
      let d ← byteAt m (tok + 1)
      if d ≠ 0x2D then findBoundary m boundary ends (tok + 1)
      else do
        let s ← bytesAt m (tok + 2) boundary.length
        if s = boundary then .ok (some tok) else findBoundary m boundary ends (tok + 1)
  else .ok none
  termination_by ends - tok

/-- Go behind a boundary, and behind the end of its line. -/
def MessageParser.skipBoundary (m : List UInt8) (p : MessageParser) (boundary : ℕ) : Scan MessageParser := do
  let p ← { p with tok := boundary }.advance (2 + p.boundary.length)
  let length ← headerEndAt m p.tok p.ends
  p.advance length

/-- `UdmMessageScanOnePart`; `exec` is what `part_handler` does with a part. -/
def udmMessageScanOnePart (m : List UInt8) (exec : ℕ → ℕ → ℕ → Scan (List (ℕ × Call))) (p : MessageParser) :
    Scan (Ret × MessageParser) := do
  match ← findBoundary m p.boundary p.ends p.tok with
  | some boundary =>
    let length := boundary - p.tok
    let calls ← exec (p.level + 1) p.tok length
    let p := p.call (.part ((m.drop p.tok).take length))
    let p ← { p with calls := p.calls ++ calls }.skipBoundary m boundary
    .ok (.ok, p)
  | none =>
    .ok (.error, { p with tok := p.ends }.fail (bytes "Could not find boundary while scanning a message part"))

/-- The final boundary is followed by `--`. -/
def isFinal (m : List UInt8) (p : MessageParser) : Scan Bool :=
  if p.tok + 2 ≤ p.ends then do
    let c ← byteAt m p.tok
    if c = 0x2D then do
      let d ← byteAt m (p.tok + 1)
      .ok (d == 0x2D)
    else .ok false
  else .ok false

/-- The loop of `UdmMessageScanParts`, at most `fuel` parts. -/
def scanParts (m : List UInt8) (exec : ℕ → ℕ → ℕ → Scan (List (ℕ × Call))) : ℕ → MessageParser →
    Scan (Ret × MessageParser)
  | 0, _ => .error .more
  | fuel + 1, p => do
    let (rc, p) ← udmMessageScanOnePart m exec p
    if rc = .ok then
      if ← isFinal m p then .ok (.ok, { p with tok := p.ends }) else scanParts m exec fuel p
    else .ok (rc, p)

/-- `UdmMessageScanParts`. -/
def udmMessageScanParts (m : List UInt8) (exec : ℕ → ℕ → ℕ → Scan (List (ℕ × Call))) (p : MessageParser) :
    Scan (Ret × MessageParser) :=
  if p.boundary = [] then .ok (.error, p) else scanParts m exec (p.ends - p.tok + 1) p

/-! ### The message -/

/-- `message_event_leave`. -/
def MessageParser.leave (p : MessageParser) : MessageParser := p.call (.event (bytes "message_leave"))

/-- The `From ` line of a mailbox; without its end there is no message. -/
def scanFrom (m : List UInt8) (p : MessageParser) : Scan (Option MessageParser) := do
  let s ← bytesAt m p.tok 5
  if s = bytes "From " then
    match ← findNewLine m p.ends p.tok with
    | some (tok, length) =>
      .ok (some { p.call (.header (bytes "From-Line") ((m.drop p.tok).take (tok - p.tok - length))) with tok := tok })
    | none => .ok none
  else .ok (some p)

/-- What is behind the headers. -/
def scanContent (m : List UInt8) (exec : ℕ → ℕ → ℕ → Scan (List (ℕ × Call))) (p : MessageParser) :
    Scan (Bool × MessageParser) := do
  let p := p.call (.event (bytes "message_content"))
  if p.isMultipart then
    match ← findBoundary m p.boundary p.ends p.tok with
    | none =>
      .ok (false, (p.fail (bytes "Could not find boundary while scanning multipart hidden body")).leave)
    | some boundary =>
      let p := (p.call (.content [])).call (.event (bytes "message_parts"))
      let p ← p.skipBoundary m boundary
      let (rc, p) ← udmMessageScanParts m exec p
      .ok (rc = .ok, p.leave)
  else
    let p := p.call (.content ((m.drop p.tok).take (p.ends - p.tok)))
    .ok (true, (p.call (.event (bytes "message_parts"))).leave)

/-- `UdmMessageParserExec` on `length` bytes from `str` on, for at most `fuel` levels of parts: whether it returns
`UDM_OK`, and the parser. -/
def udmMessageParserExec (m : List UInt8) : ℕ → ℕ → ℕ → ℕ → Scan (Bool × MessageParser)
  | 0, _, _, _ => .error .more
  | fuel + 1, level, str, length => do
    let p := (MessageParser.mk str (str + length) [] false [] level []).call (.event (bytes "message_enter"))
    if length < 5 then .ok (false, (p.fail (bytes "Message is too short")).leave)
    else
      match ← scanFrom m p with
      | none => .ok (false, (p.fail (bytes "End of From line not found")).leave)
      | some p =>
        let (rc, p) ← scanHeaders m (length + 1) p
        if rc = .crlf then
          -- the handler of the parts does not look at what the parser returns
          scanContent m (fun level str length => (fun r => r.2.calls) <$> udmMessageParserExec m fuel level str length) p
        else .ok (false, p.leave)

/-- A message in memory of its own, with a NUL behind it. -/
def parseMessage (s : List UInt8) : Scan (Bool × MessageParser) :=
  udmMessageParserExec (s ++ [0]) (s.length + 1) 0 0 s.length

end MnoGoSearch.Message
