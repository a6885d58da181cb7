import MnoGoSearch.Xml.Scan

/-!
# The XML parser

`UdmXMLParser` (`parsexml.c`) goes over a document and calls `UdmXMLEnter`, `UdmXMLLeave` and `UdmXMLValue`, which keep the
names of the open elements in one text, `attr`, with dots between them, and call the handlers. What is read does not
depend on that text: `udmXMLCalls` is the list of the calls that a document leads to, of which the first one that fails is
the last one made.
-/

namespace MnoGoSearch.Xml

open Url

/-! ### What is read -/

/-- An attribute: its name, and the range of its value. -/
structure Attr where
  name : List UInt8
  /-- The value, if there is one. -/
  value : Option (ℕ × ℕ)
  deriving DecidableEq, Repr

/-- What the parser does. -/
inductive Action where
  /-- The text between two tags. -/
  | text (beg stop : ℕ)
  /-- A section, with the range of its lexeme. -/
  | cdata (beg stop : ℕ)
  /-- A name at the beginning of a tag, and attributes. -/
  | enter (name : List UInt8) (attrs : List Attr)
  /-- The name in `</…>`. -/
  | close (name : List UInt8)
  /-- A `/`, `?` or `!` at the end of a tag: `UdmXMLLeave(p, NULL, 0)`. -/
  | leave
  /-- An error of the syntax. -/
  | fail (errstr : List UInt8)
  deriving DecidableEq, Repr

/-- The message for a lexeme that is not expected. -/
def unexpected (number : String) (lex : Lex) (wanted : String) : List UInt8 :=
  bytes (number ++ ": " ++ udmLex2str lex ++ " unexpected (" ++ wanted ++ " wanted)")

section Read

variable (skip : Bool) (doc : List UInt8)

/-- The bytes of a lexeme. -/
def Token.text (t : Token) : List UInt8 := textBetween doc t.beg t.stop

/-- The loop over the attributes: those that are entered, and the lexeme behind them or a message. -/
def scanAttributes : ℕ → ℕ → Option (List Attr × (List UInt8 ⊕ Token))
  | 0, _ => none
  | fuel + 1, cur =>
    let a := udmXMLScan skip doc cur
    if a.lex = .ident ∨ a.lex = .string then
      let b := udmXMLScan skip doc a.cur
      if b.lex = .eq then
        let v := udmXMLScan skip doc b.cur
        if v.lex = .ident ∨ v.lex = .string then
          (scanAttributes fuel v.cur).map fun r => (⟨a.text doc, some (v.beg, v.stop)⟩ :: r.1, r.2)
        else some ([], .inl (unexpected "4" v.lex "ident or string"))
      -- Without a value the name behind it is read, and forgotten.
      else if b.lex = .ident then (scanAttributes fuel b.cur).map fun r => (⟨a.text doc, none⟩ :: r.1, r.2)
      else if b.lex = .string then scanAttributes fuel b.cur
      else some ([], .inr b)
    else some ([], .inr a)

/-- The loop over the subset in a `DOCTYPE`: the lexeme behind the `]`, or a message. -/
def skipSubset : ℕ → ℕ → Option (List UInt8 ⊕ Token)
  | 0, _ => none
  | fuel + 1, cur =>
    let a := udmXMLScan skip doc cur
    if a.lex = .eof then some (.inl (unexpected "7" .eof "']'"))
    else if a.lex = .rb then some (.inr (udmXMLScan skip doc a.cur))
    else skipSubset fuel a.cur

/-- The end of a tag behind the `?`: with `exclam` an element is left, and a `>` has to follow. -/
def finishTag (exclam : Bool) (t : Token) : List Action × Option ℕ :=
  let leave := if exclam then [Action.leave] else []
  if t.lex = .gt then (leave, some t.cur) else (leave ++ [.fail (unexpected "5" t.lex "'>'")], none)

/-- From the label `gt` on. -/
def gotoGt (question exclam : Bool) (t : Token) : List Action × Option ℕ :=
  if question then
    if t.lex = .question then
      let r := finishTag exclam (udmXMLScan skip doc t.cur)
      (.leave :: r.1, r.2)
    else ([.fail (unexpected "6" t.lex "'?'")], none)
  else finishTag exclam t

/-- Behind the attributes: a subset, and a `/`. -/
def afterAttributes (question exclam : Bool) (t : Token) : Option (List Action × Option ℕ) :=
  let subset := if exclam && t.lex = .lb then skipSubset skip doc (doc.length + 1) t.cur else some (.inr t)
  subset.map fun
    | .inl errstr => ([.fail errstr], none)
    | .inr t =>
      if t.lex = .slash then
        let r := gotoGt skip doc question exclam (udmXMLScan skip doc t.cur)
        (.leave :: r.1, r.2)
      else gotoGt skip doc question exclam t

/-- A tag with this lexeme as its name. -/
def enterTag (question exclam : Bool) (n : Token) : Option (List Action × Option ℕ) :=
  if n.lex = .ident then
    (scanAttributes skip doc (doc.length + 1) n.cur).bind fun
      | (attrs, .inl errstr) => some ([.enter (n.text doc) attrs, .fail errstr], none)
      | (attrs, .inr t) =>
        (afterAttributes skip doc question exclam t).map fun r => (.enter (n.text doc) attrs :: r.1, r.2)
  else some ([.fail (unexpected "3" n.lex "ident or '/'")], none)

/-- What begins with `<`: what is done, and the place behind it, if there was no error. -/
def parseTag (cur : ℕ) : Option (List Action × Option ℕ) :=
  let l := udmXMLScan skip doc cur
  if l.lex = .comment then some ([], some l.cur)
  else if l.lex = .cdata then some ([.cdata l.beg l.stop], some l.cur)
  else
    let a := udmXMLScan skip doc l.cur
    if a.lex = .slash then
      let n := udmXMLScan skip doc a.cur
      if n.lex = .ident then
        let r := gotoGt skip doc false false (udmXMLScan skip doc n.cur)
        some (.close (n.text doc) :: r.1, r.2)
      else some ([.fail (unexpected "1" n.lex "ident")], none)
    else if a.lex = .exclam then enterTag skip doc false true (udmXMLScan skip doc a.cur)
    else if a.lex = .question then enterTag skip doc true false (udmXMLScan skip doc a.cur)
    else enterTag skip doc false false a

/-- What stands in front of the next `<`. -/
def parseText (cur : ℕ) : List Action × Option ℕ :=
  let stop := cur + ((doc.drop cur).takeWhile (· ≠ 0x3C)).length
  let r := normUnlessSkip skip doc cur stop
  (if r.1 = r.2 then [] else [.text r.1 r.2], some stop)

/-- The loop of `UdmXMLParser`. -/
def parseLoop : ℕ → ℕ → Option (List Action)
  | 0, _ => none
  | fuel + 1, cur =>
    if doc.length ≤ cur then some []
    else
      (if doc.getD cur 0 = 0x3C then parseTag skip doc cur else some (parseText skip doc cur)).bind fun
        | (as, none) => some as
        | (as, some cur') => (parseLoop fuel cur').map (as ++ ·)

/-- What a document leads to. -/
def udmXMLCalls : Option (List Action) := parseLoop skip doc (doc.length + 1) 0

end Read

/-! ### What is done -/

/-- A call of a handler. -/
inductive Call where
  /-- `enter_action` with the path. -/
  | enter (path : List UInt8)
  /-- `value_action` with a range, as differences from the beginning of the document. -/
  | value (beg stop : ℤ)
  /-- `leave_action` with the path. -/
  | leave (path : List UInt8)
  deriving DecidableEq, Repr

/-- The state: the text between `attr` and `attrend`, and what has been called. -/
structure ParserState where
  path : List UInt8
  /-- The calls, in their order. -/
  calls : List Call
  deriving DecidableEq, Repr

/-- How a part of the parser ends. -/
inductive Outcome where
  /-- `UDM_XML_OK`. -/
  | ok (st : ParserState)
  /-- `UDM_XML_ERROR`; a handler that fails leaves `errstr` as it is. -/
  | error (errstr : List UInt8) (st : ParserState)
  /-- A byte was written behind `attr`. -/
  | overrun (st : ParserState)
  deriving DecidableEq, Repr

/-- What has been done. -/
def Outcome.st : Outcome → ParserState
  | .ok st | .error _ st | .overrun st => st

/-- Going on, if there was no error. -/
def Outcome.andThen (o : Outcome) (f : ParserState → Outcome) : Outcome :=
  match o with
  | .ok st => f st
  | .error errstr st => .error errstr st
  | .overrun st => .overrun st

/-- The sizes of `attr` and of `s` and `g` without their ends. -/
def attrSize : ℕ := 128

section Do

variable (h : List Call → Bool)

/-- A call of a handler: what it returns may depend on all calls so far. -/
def callHandler (c : Call) (st : ParserState) : Outcome :=
  let st' := { st with calls := st.calls ++ [c] }
  if h st'.calls then .ok st' else .error [] st'

/-- `UdmXMLValue`. -/
def udmXMLValue (beg stop : ℤ) (st : ParserState) : Outcome := callHandler h (.value beg stop) st

/-- The path with a name more. -/
def enterPath (path name : List UInt8) : List UInt8 := if path = [] then name else path ++ 0x2E :: name

/-- `UdmXMLEnter`: the test does not count the dot. -/
def udmXMLEnter (name : List UInt8) (st : ParserState) : Outcome :=
  if attrSize < st.path.length + name.length + 1 then .error (bytes "To deep XML") st
  -- The NUL behind the path is written at the place of its length.
  else if attrSize ≤ (enterPath st.path name).length then .overrun st
  else callHandler h (.enter (enterPath st.path name)) { st with path := enterPath st.path name }

/-- A byte that is no dot. -/
def notDot (c : UInt8) : Bool := c != 0x2E

/-- `glen`: the length of what stands behind the last dot. -/
def lastLength (path : List UInt8) : ℕ := (path.rtakeWhile notDot).length

/-- The path in front of the last dot; nothing without one. -/
def leavePath (path : List UInt8) : List UInt8 := (path.rdropWhile notDot).dropLast

/-- The message for another name: 31 bytes of each; without a dot `e + 1` is behind the first byte of the name. -/
def leaveError (path name : List UInt8) : List UInt8 :=
  bytes "'</" ++ name.take 31 ++ bytes ">' unexpected ('</" ++
    ((path.drop ((leavePath path).length + 1)).take (min 31 (lastLength path))) ++ bytes ">' wanted)"

/-- `UdmXMLLeave`: only the length of the name is compared. -/
def udmXMLLeave (name : Option (List UInt8)) (st : ParserState) : Outcome :=
  match name with
  | some n => if n.length = lastLength st.path then leave else .error (leaveError st.path n) st
  | none => leave
where
  /-- The handler gets the whole path, which is cut in any case. -/
  leave : Outcome :=
    match callHandler h (.leave st.path) st with
    | .ok st' => .ok { st' with path := leavePath st.path }
    | .error errstr st' => .error errstr { st' with path := leavePath st.path }
    | .overrun st' => .overrun st'

/-- An attribute is entered and left; its value is given in between. -/
def parseAttr (a : Attr) (st : ParserState) : Outcome :=
  ((udmXMLEnter h a.name st).andThen fun st =>
    match a.value with
    | some (beg, stop) => udmXMLValue h beg stop st
    | none => .ok st).andThen (udmXMLLeave h (some a.name))

/-- All attributes. -/
def parseAttrs : List Attr → ParserState → Outcome
  | [], st => .ok st
  | a :: as, st => (parseAttr h a st).andThen (parseAttrs as)

/-- One action; the result of the handler for a text is not looked at. -/
def perform : Action → ParserState → Outcome
  | .text beg stop, st => .ok (udmXMLValue h beg stop st).st
  | .cdata beg stop, st => .ok (udmXMLValue h (beg + 9) (stop - 3) st).st
  | .enter name attrs, st => (udmXMLEnter h name st).andThen (parseAttrs h attrs)
  | .close name, st => udmXMLLeave h (some name) st
  | .leave, st => udmXMLLeave h none st
  | .fail errstr, st => .error errstr st

/-- The actions in their order. -/
def performAll : List Action → ParserState → Outcome
  | [], st => .ok st
  | a :: as, st => (perform h a st).andThen (performAll as)

/-- `UdmXMLParser`. -/
def udmXMLParser (skip : Bool) (doc : List UInt8) : Option Outcome :=
  (udmXMLCalls skip doc).map fun as => performAll h as ⟨[], []⟩

end Do

end MnoGoSearch.Xml
