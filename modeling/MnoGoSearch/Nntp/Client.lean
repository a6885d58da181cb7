import MnoGoSearch.Http.DocBuffer
import Mathlib

/-!
# The NNTP client

`UdmNNTPGet` (`proto.c`) talks to a news server. What it will do is a stack of commands: a command is
taken from the stack, and may put others there. The stack has 100 places, and a command for which
there is no place is dropped. `length_cmd_le` says that the stack never has more than six commands.
-/

namespace MnoGoSearch.Nntp

open Url
open StateTransition
open MnoGoSearch.Lib (Buffer)
open MnoGoSearch.Http (printBuf tokens atoiInt)

/-! ## Lines -/

/-- The loop of `fdgets`: how many bytes were read, the buffer, and what the server has sent besides. -/
@[grind =] def fdgetsLoop (size nbytes : ℕ) (str : Buffer) : List UInt8 → ℕ × Buffer × List UInt8
  | [] => (nbytes, str, [])
  | c :: input =>
    if size < nbytes + 1 then (nbytes, str, c :: input)
    else if c = 0x0A then (nbytes + 1, str.write nbytes c, input)
    else fdgetsLoop size (nbytes + 1) (str.write nbytes c) input

/-- `fdgets`. Nothing is written if there is nothing to read. -/
def fdgets (str : Buffer) (size : ℕ) (input : List UInt8) : Buffer × List UInt8 :=
  match fdgetsLoop size 0 str input with
  | (0, str, input) => (str, input)
  | (nbytes + 1, str, input) => (str.write (nbytes + 1) 0, input)

/-- `udm_snprintf` at the beginning of a buffer. -/
def snprintBuf (str : Buffer) (size : ℕ) (text : List UInt8) : Buffer :=
  (printBuf str (text.take (size - 1))).write (size - 1) 0

/-- The tokens of a text, and where they begin. -/
def tokensAt (delim : List UInt8) : ℕ → List UInt8 → List (ℕ × List UInt8)
  | _, [] => []
  | i, c :: s =>
    if delim.contains c then tokensAt delim (i + 1) s
    else
      match tokensAt delim (i + 1) s with
      | [] => [(i, [c])]
      | (j, t) :: ts => if j = i + 1 then (i, c :: t) :: ts else (i, [c]) :: (j, t) :: ts

/-- What `udm_strtok_r` leaves of a text: there is a NUL behind every token. -/
def cutTokens (str : Buffer) (ts : List (ℕ × List UInt8)) : Buffer :=
  ts.foldl (fun str t => str.write (t.1 + t.2.length) 0) str

example : tokensAt (bytes "\t\r\n") 0 (bytes "\t12\tab\r\n") = [(1, bytes "12"), (4, bytes "ab")] := by decide

/-- A `%d` of `sscanf`, and what is behind it. -/
def scanInt (s : List UInt8) : Option (Int32 × List UInt8) :=
  let t := s.dropWhile fun c => c == 0x20 || (0x09 ≤ c && c ≤ 0x0D)
  let digits := match t with
    | 0x2D :: t => t
    | 0x2B :: t => t
    | t => t
  if (digits.takeWhile isdigit).isEmpty then none
  else some (Int32.ofInt (atoiInt t), digits.dropWhile isdigit)

/-- At most some `%d` of `sscanf`. -/
def scanInts : ℕ → List UInt8 → List Int32
  | 0, _ => []
  | n + 1, s =>
    match scanInt s with
    | some (x, s) => x :: scanInts n s
    | none => []

/-! ## The answer -/

/-- `UdmHTTPErrMsg`. -/
def udmHTTPErrMsg : ℤ → String
  | 0 => "Not indexed yet"
  | 200 => "OK"
  | 206 => "Partial OK"
  | 301 => "Moved Permanently"
  | 302 => "Moved Temporarily"
  | 303 => "See Other"
  | 304 => "Not Modified"
  | 300 => "Multiple Choices"
  | 305 => "Use Proxy (proxy redirect)"
  | 307 => "Temporary Redirect"
  | 400 => "Bad Request"
  | 401 => "Unauthorized"
  | 402 => "Payment Required"
  | 403 => "Forbidden"
  | 404 => "Not found"
  | 405 => "Method Not Allowed"
  | 406 => "Not Acceptable"
  | 407 => "Proxy Authentication Required"
  | 408 => "Request Timeout"
  | 409 => "Conflict"
  | 410 => "Gone"
  | 411 => "Length Required"
  | 412 => "Precondition Failed"
  | 413 => "Request Entity Too Large"
  | 414 => "Request-URI Too Long"
  | 415 => "Unsupported Media Type"
  | 500 => "Internal Server Error"
  | 501 => "Not Implemented"
  | 502 => "Bad Gateway"
  | 505 => "Protocol Version Not Supported"
  | 503 => "Service Unavailable"
  | 504 => "Gateway Timeout"
  | _ => "Unknown status"

/-- `HTTP/1.0` with a status. -/
def statusLine (status : ℤ) : List UInt8 :=
  bytes "HTTP/1.0 " ++ decText status ++ bytes " " ++ bytes (udmHTTPErrMsg status) ++ bytes "\r\n"

/-- The text in `Doc.Buf`, and `end`. -/
structure Answer where
  text : List UInt8
  /-- Where the next part of it is written. -/
  endAt : ℕ
  maxsize : ℕ

namespace Answer

/-- `sprintf`, with `end` behind the text. -/
def begin (a : Answer) (text : List UInt8) : Answer := { a with text := text, endAt := text.length }

/-- `udm_snprintf` at `end`, in what is left of the room; its last byte becomes a NUL in any case. There is no limit
when more than the room is used already: the difference is a `size_t`. -/
def print (a : Answer) (text : List UInt8) : Answer :=
  if a.text.length = a.maxsize then { a with text := a.text.take (a.endAt - 1) }
  else if a.maxsize < a.text.length then { a with text := a.text.take a.endAt ++ text }
  else { a with text := a.text.take a.endAt ++ text.take (a.maxsize - a.text.length - 1) }

/-- `end` goes behind the text. -/
def toEnd (a : Answer) : Answer := { a with endAt := a.text.length }

end Answer

/-! ## Requests -/

/-- `char s[256]`. -/
abbrev Text256 := {s : List UInt8 // s.length ≤ 255}

/-- `strncpy` with `UDM_TERM`. -/
def strncpy256 (s : List UInt8) : Text256 := ⟨s.take 255, List.length_take_le 255 s⟩

/-- The commands. -/
inductive Cmd where
  | send | recv | recvcmd
  | connect | hello | reader | brk | quit
  | user | userres | pass | passres
  | list | listres | listdat
  | stat | statres
  | group | groupres
  | xover | xoverres | xoverdat
  | article | articleres | articledat
  deriving DecidableEq

/-- What a server can be asked for. -/
inductive Task where
  | list | group | xover | stat | article
  deriving DecidableEq

/-- The command that asks for it. -/
def Task.cmd : Task → Cmd
  | .list => .list
  | .group => .group
  | .xover => .xover
  | .stat => .stat
  | .article => .article

/-- `UDM_NNTP_MAXCMD`. -/
def maxCmd : ℕ := 100

/-- `inscmd`. The top of the stack stands first. -/
def inscmd (cmd : List Cmd) (command : Cmd) : List Cmd := if cmd.length + 1 < maxCmd then command :: cmd else cmd

/-- What `UdmNNTPGet` was asked for. It looks for headers of the request behind the NUL that it has put at their
beginning, so that `ifModified` is always false and the user is always that of the URL (`ofUrl`); nothing here
depends on that. -/
structure Session where
  url : UdmUrl
  /-- The host of the URL, as it is written there. -/
  hostinfo : List UInt8
  /-- There is `If-Modified-Since`. -/
  ifModified : Bool
  user : Text256
  pass : Text256
  /-- What `open_host` gives. -/
  openHost : ℤ
  maxsize : ℕ

namespace Session

/-- The session for a URL, with its user and password. -/
def ofUrl (url : UdmUrl) (hostinfo : List UInt8) (openHost : ℤ) (maxsize : ℕ) : Session :=
  let auth := (strncpy256 (url.auth.getD [])).val
  match strchr auth 0x3A with
  | some (user, pass) => ⟨url, hostinfo, false, strncpy256 user, strncpy256 pass, openHost, maxsize⟩
  | none => ⟨url, hostinfo, false, strncpy256 auth, strncpy256 [], openHost, maxsize⟩

variable (S : Session)

/-- The URL has a schema. -/
def isSchema (schema : String) : Bool := strcaseeq (S.url.schema.getD []) (bytes schema)

/-- What is asked for when the URL is another one. -/
def moved (location : List UInt8) : List UInt8 :=
  statusLine 301 ++ bytes "Location: " ++ location.take 2046 ++ bytes "\r\n\r\n"

/-- A group without its trailing slash. -/
def groupOfPath : List UInt8 → List UInt8
  | [] => []
  | c :: s => if 0x2F ∈ s then c :: (s.reverse.dropWhile (· ≠ 0x2F)).tail.reverse else c :: s

/-- The answer to a URL that is redirected. -/
def redirect : Option (List UInt8) :=
  if S.isSchema "news" ∧ S.url.path ≠ bytes "/" then
    some (moved (S.url.schema.getD [] ++ bytes "://" ++ S.hostinfo ++ groupOfPath (strncpy256 S.url.path)))
  else if S.isSchema "nntp" ∧ S.url.path = bytes "/" ∧ S.url.filename.isSome then
    some (moved (S.url.schema.getD [] ++ bytes "://" ++ S.hostinfo ++ bytes "/" ++ S.url.filename.getD [] ++
      bytes "/"))
  else none

/-- The commands for a URL, and `grp` and `msg`. -/
def request (cmd : List Cmd) : List Cmd × Text256 × Text256 :=
  let filename := S.url.filename.getD []
  if S.isSchema "news" ∧ S.url.filename.isSome then
    if 0x40 ∈ filename then
      (inscmd cmd (if S.ifModified then .stat else .article), strncpy256 [], strncpy256 filename)
    else (inscmd (inscmd cmd .xover) .group, strncpy256 filename, strncpy256 [])
  else if S.isSchema "nntp" ∧ S.url.path ≠ bytes "/" then
    let grp := strncpy256 ((strncpy256 (S.url.path.drop 1)).val.takeWhile (· ≠ 0x2F))
    if S.url.filename.isSome then
      (inscmd (inscmd cmd (if S.ifModified then .stat else .article)) .group, grp, strncpy256 filename)
    else (inscmd (inscmd cmd .xover) .group, grp, strncpy256 [])
  else (inscmd cmd .list, strncpy256 [], strncpy256 [])

/-- What the server is asked for, one after another. -/
def tasks : List Task :=
  if S.isSchema "news" ∧ S.url.filename.isSome then
    if 0x40 ∈ S.url.filename.getD [] then [if S.ifModified then .stat else .article] else [.group, .xover]
  else if S.isSchema "nntp" ∧ S.url.path ≠ bytes "/" then
    [.group, if S.url.filename.isSome then (if S.ifModified then .stat else .article) else .xover]
  else [.list]

theorem tasks_cases : ∃ t, S.tasks = [t] ∨ S.tasks = [.group, t] := by
  unfold tasks
  split_ifs
  all_goals first
    | exact ⟨_, .inl rfl⟩
    | exact ⟨_, .inr rfl⟩

theorem length_tasks_le : S.tasks.length ≤ 2 := by
  obtain ⟨t, h | h⟩ := S.tasks_cases <;> simp [h]

theorem request_fst {cmd : List Cmd} (hlt : cmd.length < 98) : (S.request cmd).1 = S.tasks.map Task.cmd ++ cmd := by
  have hone (c : Cmd) : inscmd cmd c = c :: cmd := if_pos (by rw [maxCmd]; omega)
  have htwo (c c' : Cmd) : inscmd (c :: cmd) c' = c' :: c :: cmd :=
    if_pos (by rw [maxCmd, List.length_cons]; omega)
  unfold request tasks
  simp only [apply_ite Prod.fst, hone, htwo]
  split_ifs <;> rfl

/-- `grp`. -/
def grp : Text256 := (S.request []).2.1

/-- `msg`. -/
def msg : Text256 := (S.request []).2.2

end Session

/-! ## The machine -/

/-- The local variables of `UdmNNTPGet`, and the connection. -/
structure State where
  cmd : List Cmd
  str : Buffer
  fd : ℤ
  /-- The status of the last answer. -/
  status : ℤ
  /-- The first article of the group. -/
  fromArticle : Int32
  toArticle : Int32
  /-- The headers of the article are not over. -/
  headers : Bool
  /-- One of them was `Content-Type`. -/
  hasContent : Bool
  buf : Answer
  /-- What was sent to the server. -/
  sent : List UInt8
  /-- What the server has sent and `recv` has not given yet. -/
  input : List UInt8
  /-- The function has returned in the loop, with this value. -/
  ret : Option ℤ

namespace State

variable (s : State)

/-- `inscmd`. -/
def ins (command : Cmd) : State := { s with cmd := inscmd s.cmd command }

/-- `sprintf` to `str`. -/
def sprintf (text : List UInt8) : State := { s with str := printBuf s.str text }

/-- `udm_snprintf` to `str`. -/
def snprintf (size : ℕ) (text : List UInt8) : State := { s with str := snprintBuf s.str size text }

/-- `NNTPRecv`, with `sizeof(str)`. -/
def nntpRecv : State :=
  { s with str := (fdgets s.str 2048 s.input).1, input := (fdgets s.str 2048 s.input).2 }

/-- `NNTPSend`. -/
def nntpSend : State := { s with sent := s.sent ++ s.str.str }

/-- `str[0]=='.'`. -/
def isDot : Bool := s.str.bytes.head? == some 0x2E

/-- The answer is a status and what the server said. -/
def respond (status : ℤ) : State :=
  { s with
    status := status
    buf := { s.buf with text := statusLine status ++ bytes "NNTP-Response: " ++ s.str.str ++ bytes "\r\n\r\n" } }

/-- A part of the answer. -/
def print (text : List UInt8) : State := { s with buf := s.buf.print text }

/-- A part of the answer, and `end` behind it. -/
def printEnd (text : List UInt8) : State := { s with buf := (s.buf.print text).toEnd }

end State

/-- The page that the answer to a list begins with. -/
def pageHead : List UInt8 := bytes "HTTP/1.0 200 OK\r\nContent-Type: text/html\r\n\r\n<HTML><BODY>\n"

/-- A link of this page. -/
def link (href : List UInt8) : List UInt8 := bytes "<A HREF=\"" ++ href ++ bytes "\"></A>\n"

/-- `UDM_NNTP_LISTDAT`, for a line that is not the last one. -/
def listLine (S : Session) (s : State) : State :=
  let s := if 0x20 ∈ s.str.str then { s with str := s.str.write (s.str.str.takeWhile (· ≠ 0x20)).length 0 } else s
  if S.isSchema "nntp" then s.printEnd (link (bytes "/" ++ s.str.str ++ bytes "/"))
  else s.printEnd (link (bytes "/" ++ s.str.str))

/-- `UDM_NNTP_XOVERDAT`, for a line that is not the last one. -/
def xoverLine (S : Session) (s : State) : State :=
  let fields := tokensAt (bytes "\t\r\n") 0 s.str.str
  if S.isSchema "nntp" then
    let s := { s with str := cutTokens s.str (fields.take 1) }
    match fields with
    | [] => { s with buf := s.buf.toEnd }
    | (_, e) :: _ => s.printEnd (link (S.url.path ++ e))
  else
    let s := { s with str := cutTokens s.str fields }
    match fields[4]? with
    | none => s
    | some (i, field) =>
      let skip := if field.head? = some 0x3C then 1 else 0
      let msg := (field.drop skip).takeWhile (· ≠ 0x3E)
      let s := if 0x3E ∈ field.drop skip then { s with str := s.str.write (i + skip + msg.length) 0 } else s
      if s.buf.endAt + msg.length + 50 < s.buf.maxsize then s.printEnd (link (bytes "/" ++ msg)) else s

/-- `UDM_NNTP_ARTICLEDAT`, for a line that is not the last one. -/
def articleLine (s : State) : State :=
  let line := s.str.str
  let s :=
    if s.headers then
      let s := { s with hasContent := s.hasContent || strcaseeq (line.take 13) (bytes "Content-Type:") }
      if line = bytes "\r\n" ∨ line = bytes "\n" then
        { s with
          headers := false
          buf := if s.hasContent then s.buf
            else { s.buf with text := s.buf.text ++ bytes "Content-Type: text/plain\r\n" } }
      else s
    else s
  if s.buf.text.length + line.length < s.buf.maxsize then
    { s with buf := { s.buf with text := s.buf.text ++ line }.toEnd }
  else s

/-- A command is asked: the answer to it will be read. -/
def State.ask (s : State) (res : Cmd) : State := ((s.ins res).ins .recvcmd).ins .send

/-- The loop of `UdmNNTPGet` does a command. -/
def exec (S : Session) (s : State) : Cmd → State
  | .connect =>
    if S.openHost < 0 then { s with fd := S.openHost, ret := some S.openHost }
    else ({ s with fd := S.openHost }.ins .hello).ins .recvcmd
  | .recv => s.nntpRecv
  | .recvcmd => { s.nntpRecv with status := atoiInt s.nntpRecv.str.str }
  | .send => s.nntpSend
  | .reader => (s.ask .hello).sprintf (bytes "mode reader\r\n")
  | .hello => if s.status ≠ 200 then (s.respond 500).ins .quit else s
  | .user =>
    if S.user.val.isEmpty then (s.respond 401).ins .quit
    else (s.ask .userres).sprintf (bytes "authinfo user " ++ S.user ++ bytes "\r\n")
  | .userres => if s.status = 381 then s.ins .pass else (s.respond 500).ins .quit
  | .pass =>
    if S.pass.val.isEmpty then (s.respond 401).ins .quit
    else (s.ask .passres).sprintf (bytes "authinfo pass " ++ S.pass ++ bytes "\r\n")
  | .passres =>
    if s.status ≠ 200 ∧ s.status ≠ 281 then (s.respond (if s.status = 502 then 401 else 500)).ins .quit else s
  | .list => (s.ask .listres).sprintf (bytes "list\r\n")
  | .listres =>
    if s.status = 480 then (s.ins .list).ins .user
    else if s.status ≠ 215 then (s.respond 500).ins .quit
    else ({ s with buf := s.buf.begin pageHead }.ins .listdat).ins .recv
  | .listdat =>
    if s.isDot then s.print (bytes "</BODY></HTML>\n") else ((listLine S s).ins .listdat).ins .recv
  | .xover =>
    (s.ask .xoverres).sprintf
      (bytes "xover " ++ decText s.fromArticle.toInt ++ bytes "-" ++ decText s.toArticle.toInt ++ bytes "\r\n")
  | .xoverres =>
    if s.status = 224 then ({ s with buf := s.buf.begin pageHead }.ins .xoverdat).ins .recv
    else
      { s with
        buf := { s.buf with
          text := bytes "HTTP/1.0 404 Not found\r\nNNTP-Server-Response: " ++ s.str.str ++ bytes "\r\n\r\n" } }.ins .quit
  | .xoverdat =>
    if s.isDot then s.print (bytes "</BODY></HTML>\n") else ((xoverLine S s).ins .xoverdat).ins .recv
  | .group => (s.ask .groupres).sprintf (bytes "group " ++ S.grp ++ bytes "\r\n")
  | .groupres =>
    if s.status = 480 then (s.ins .group).ins .user
    else if s.status = 211 then
      let ints := scanInts 4 s.str.str
      { s with fromArticle := ints[2]?.getD s.fromArticle, toArticle := ints[3]?.getD s.toArticle }
    else (s.respond 404).ins .quit
  | .stat =>
    if S.isSchema "nntp" then (s.ask .statres).snprintf 2047 (bytes "stat " ++ S.msg ++ bytes "\r\n")
    else (s.ask .statres).snprintf 2047 (bytes "stat <" ++ S.msg ++ bytes ">\r\n")
  | .statres =>
    -- the user is asked for too late: `quit` is on top of it
    let s :=
      if s.status = 480 then ((s.ins .stat).ins .user).respond 480
      else if s.status = 223 then s.respond 304
      else if s.status = 423 then s.respond 404
      else s.respond 500
    s.ins .quit
  | .article =>
    if S.isSchema "nntp" then (s.ask .articleres).snprintf 2048 (bytes "article " ++ S.msg ++ bytes "\r\n")
    else (s.ask .articleres).snprintf 2048 (bytes "article <" ++ S.msg ++ bytes ">\r\n")
  | .articleres =>
    if s.status = 480 then (s.ins .article).ins .user
    else if s.status = 220 then
      ({ s with buf := s.buf.begin (bytes "HTTP/1.0 200 OK\r\n") }.ins .articledat).ins .recv
    else (s.respond 404).ins .quit
  | .articledat => if s.isDot then s else ((articleLine s).ins .articledat).ins .recv
  | .quit =>
    if 0 < s.fd then { (s.sprintf (bytes "quit\r\n")).nntpSend with fd := 0 }.ins .brk else s.ins .brk
  | .brk => { s with cmd := [] }

/-- One round of the loop: the command on top of the stack is taken and done. There is none when the stack is empty,
or when the function has returned. -/
def step (S : Session) (s : State) : Option State :=
  match s.cmd, s.ret with
  | c :: cmd, none => some (exec S { s with cmd := cmd } c)
  | _, _ => none

/-- Where the loop begins, if the URL is not redirected; the server will send some bytes and close the
connection. -/
def start (S : Session) (input : List UInt8) : Option State :=
  match S.redirect with
  | some _ => none
  | none => some
    { cmd := inscmd (inscmd (S.request (inscmd [] .quit)).1 .reader) .connect
      str := ⟨List.replicate 2048 0, false⟩
      fd := 0
      status := 0
      fromArticle := 0
      toArticle := 0
      headers := true
      hasContent := false
      buf := ⟨[], 0, S.maxsize⟩
      sent := []
      input := input
      ret := none }

/-! ## The stack -/

/-- How much of the stack a command takes until it is over, with all that it puts there. -/
@[grind =] def room : Cmd → ℕ
  | .connect | .listdat | .xoverres | .xoverdat | .articledat => 2
  | .reader | .user | .userres | .pass | .passres | .xover => 3
  | .list | .listres | .stat | .statres | .group | .groupres | .article | .articleres => 4
  | _ => 1

/-- Every command of the stack has its room within six places. -/
def Fits : List Cmd → Prop
  | [] => True
  | c :: cmd => room c + cmd.length ≤ 6 ∧ Fits cmd

theorem length_inscmd_le (cmd : List Cmd) (c : Cmd) : (inscmd cmd c).length ≤ cmd.length + 1 := by
  unfold inscmd
  split_ifs
  · simp
  · omega

variable {c : Cmd}

theorem inscmd_of_lt {cmd : List Cmd} (h : cmd.length < 99) : inscmd cmd c = c :: cmd :=
  if_pos (by rw [maxCmd]; omega)

theorem Fits.inscmd {cmd : List Cmd} (h : Fits cmd) (hle : room c + cmd.length ≤ 6) : Fits (Nntp.inscmd cmd c) := by
  rw [inscmd_of_lt (by omega)]
  exact ⟨hle, h⟩

theorem one_le_room (c : Cmd) : 1 ≤ room c := by cases c <;> decide

theorem Fits.length_le {cmd : List Cmd} (h : Fits cmd) : cmd.length ≤ 6 := by
  cases cmd with
  | nil => simp
  | cons c cmd =>
    have := one_le_room c
    have := h.1
    simp only [List.length_cons]
    omega

section Fields

variable (S : Session) (s : State) (c : Cmd) (text : List UInt8) (status : ℤ) (size : ℕ)

@[simp] theorem cmd_ins : (s.ins c).cmd = inscmd s.cmd c := rfl
@[simp] theorem cmd_sprintf : (s.sprintf text).cmd = s.cmd := rfl
@[simp] theorem cmd_snprintf : (s.snprintf size text).cmd = s.cmd := rfl
@[simp] theorem cmd_nntpRecv : s.nntpRecv.cmd = s.cmd := rfl
@[simp] theorem cmd_nntpSend : s.nntpSend.cmd = s.cmd := rfl
@[simp] theorem cmd_respond : (s.respond status).cmd = s.cmd := rfl
@[simp] theorem cmd_print : (s.print text).cmd = s.cmd := rfl
@[simp] theorem cmd_printEnd : (s.printEnd text).cmd = s.cmd := rfl

@[simp] theorem cmd_listLine : (listLine S s).cmd = s.cmd := by
  unfold listLine
  simp only
  split_ifs <;> rfl

@[simp] theorem cmd_xoverLine : (xoverLine S s).cmd = s.cmd := by
  unfold xoverLine
  simp only
  split_ifs
  · split <;> rfl
  · split
    · rfl
    · split_ifs <;> rfl

@[simp] theorem cmd_articleLine : (articleLine s).cmd = s.cmd := by
  unfold articleLine
  simp only
  split_ifs <;> rfl

@[simp] theorem cmd_ask : (s.ask c).cmd = inscmd (inscmd (inscmd s.cmd c) .recvcmd) .send := rfl

end Fields

theorem Fits.inscmd_two {cmd : List Cmd} {c' : Cmd} (h : Fits cmd) (hle : room c + cmd.length ≤ 6)
    (hle' : room c' + (cmd.length + 1) ≤ 6) : Fits (Nntp.inscmd (Nntp.inscmd cmd c) c') := by
  have := length_inscmd_le cmd c
  exact (h.inscmd hle).inscmd (by omega)

theorem Fits.ask {cmd : List Cmd} (h : Fits cmd) (hle : room c + cmd.length ≤ 6)
    (hle' : 3 + cmd.length ≤ 6) : Fits (Nntp.inscmd (Nntp.inscmd (Nntp.inscmd cmd c) .recvcmd) .send) := by
  have := length_inscmd_le cmd c
  have := length_inscmd_le (Nntp.inscmd cmd c) .recvcmd
  exact ((h.inscmd hle).inscmd (by simp only [room]; omega)).inscmd (by simp only [room]; omega)

variable {S : Session} {s s' : State} {input : List UInt8}

theorem Fits.exec (h : Fits s.cmd) (hle : room c + s.cmd.length ≤ 6) : Fits (exec S s c).cmd := by
  cases c <;> simp only [room] at hle <;> simp only [Nntp.exec]
  case connect =>
    split_ifs
    · exact h
    · simp only [cmd_ins]
      exact h.inscmd_two (by simp only [room]; omega) (by simp only [room]; omega)
  case recv | recvcmd | send => exact h
  case brk => trivial
  case reader | list | xover | group =>
    simp only [cmd_sprintf, cmd_ask]
    exact h.ask (by simp only [room]; omega) (by omega)
  case stat | article =>
    split_ifs <;> simp only [cmd_snprintf, cmd_ask] <;> exact h.ask (by simp only [room]; omega) (by omega)
  case user | pass =>
    split_ifs
    · simp only [cmd_ins, cmd_respond]
      exact h.inscmd (by simp only [room]; omega)
    · simp only [cmd_sprintf, cmd_ask]
      exact h.ask (by simp only [room]; omega) (by omega)
  case quit =>
    split_ifs <;> simp only [cmd_ins, cmd_nntpSend, cmd_sprintf] <;> exact h.inscmd (by simp only [room]; omega)
  case hello =>
    split_ifs
    · simp only [cmd_ins, cmd_respond]
      exact h.inscmd (by simp only [room]; omega)
    · exact h
  case passres =>
    by_cases hok : s.status ≠ 200 ∧ s.status ≠ 281
    · rw [if_pos hok, cmd_ins, cmd_respond]
      exact h.inscmd (by simp only [room]; omega)
    · rw [if_neg hok]
      exact h
  case userres => split_ifs <;> simp only [cmd_ins, cmd_respond] <;> exact h.inscmd (by simp only [room]; omega)
  case listdat | xoverdat | articledat =>
    split_ifs
    · exact h
    · simp only [cmd_ins, cmd_listLine, cmd_xoverLine, cmd_articleLine]
      exact h.inscmd_two (by simp only [room]; omega) (by simp only [room]; omega)
  case listres =>
    split_ifs <;> simp only [cmd_ins, cmd_respond]
    · exact h.inscmd_two (by simp only [room]; omega) (by simp only [room]; omega)
    · exact h.inscmd (by simp only [room]; omega)
    · exact h.inscmd_two (by simp only [room]; omega) (by simp only [room]; omega)
  case xoverres =>
    split_ifs <;> simp only [cmd_ins]
    · exact h.inscmd_two (by simp only [room]; omega) (by simp only [room]; omega)
    · exact h.inscmd (by simp only [room]; omega)
  case groupres =>
    split_ifs <;> simp only [cmd_ins, cmd_respond]
    · exact h.inscmd_two (by simp only [room]; omega) (by simp only [room]; omega)
    · exact h
    · exact h.inscmd (by simp only [room]; omega)
  case articleres =>
    split_ifs <;> simp only [cmd_ins, cmd_respond]
    · exact h.inscmd_two (by simp only [room]; omega) (by simp only [room]; omega)
    · exact h.inscmd_two (by simp only [room]; omega) (by simp only [room]; omega)
    · exact h.inscmd (by simp only [room]; omega)
  case statres =>
    split_ifs <;> simp only [cmd_ins, cmd_respond]
    · have hle' := length_inscmd_le s.cmd .stat
      have hle'' := length_inscmd_le (Nntp.inscmd s.cmd .stat) .user
      have htwo : Fits (Nntp.inscmd (Nntp.inscmd s.cmd .stat) .user) :=
        h.inscmd_two (by simp only [room]; omega) (by simp only [room]; omega)
      exact htwo.inscmd (by simp only [room]; omega)
    · exact h.inscmd (by simp only [room]; omega)
    · exact h.inscmd (by simp only [room]; omega)
    · exact h.inscmd (by simp only [room]; omega)

/-- **A round of the loop**. -/
theorem step_eq_some : step S s = some s' ↔
    ∃ c cmd, s.cmd = c :: cmd ∧ s.ret = none ∧ s' = exec S { s with cmd := cmd } c := by
  unfold step
  split
  · rename_i c cmd hcmd hret
    simp [hcmd, hret, eq_comm]
  · rename_i hno
    simp only [reduceCtorEq, false_iff]
    rintro ⟨c, cmd, hcmd, hret, -⟩
    exact hno c cmd hcmd hret

theorem Fits.reaches (h : Fits s.cmd) (hr : Reaches (step S) s s') : Fits s'.cmd := by
  induction hr with
  | refl => exact h
  | tail _ hstep ih =>
    obtain ⟨c, cmd, hcmd, -, rfl⟩ := step_eq_some.1 hstep
    rw [hcmd] at ih
    exact Fits.exec ih.2 ih.1

theorem cmd_start (h : s ∈ start S input) : s.cmd = [.connect, .reader] ++ S.tasks.map Task.cmd ++ [.quit] := by
  unfold start at h
  split at h
  · cases h
  · cases h
    have hlen := S.length_tasks_le
    rw [show inscmd [] .quit = [Cmd.quit] from rfl, S.request_fst (by simp), inscmd_of_lt, inscmd_of_lt]
    · simp
    · simp
      omega
    · rw [inscmd_of_lt (by simp; omega)]
      simp
      omega

theorem Fits.start (S : Session) : Fits ([.connect, .reader] ++ S.tasks.map Task.cmd ++ [.quit]) := by
  obtain ⟨t, h | h⟩ := S.tasks_cases <;> rw [h] <;> cases t <;> simp [Fits, room, Task.cmd]

/-- **The stack never has more than six commands**, whatever the server sends. -/
theorem length_cmd_le (h : s ∈ start S input) (hr : Reaches (step S) s s') : s'.cmd.length ≤ 6 := by
  have hfits : Fits s.cmd := by
    rw [cmd_start h]
    exact Fits.start S
  exact (hfits.reaches hr).length_le

end MnoGoSearch.Nntp
