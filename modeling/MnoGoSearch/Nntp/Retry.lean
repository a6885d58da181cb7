import MnoGoSearch.Nntp.Dialogue
import MnoGoSearch.Http.TransferDecode

/-!
# Authentication with a news server

A server that answers a command with 480 wants a user and a password, and then the command again.
`retries` is the theorem that the client sends it again, and that the status of the document is that of
the second answer. It holds of `UdmNNTPGet` as it is: `UDM_NNTP_STATRES` puts `quit` on top of the commands
that would ask again, but `stat` is never sent (`ofRequest_eq`).
-/

namespace MnoGoSearch.Nntp

open Url
open StateTransition
open MnoGoSearch.Lib (Buffer)
open MnoGoSearch.Http (printBuf tokens atoiInt fromBase64Map udmTrim str_printBuf length_printBuf)

/-! ## The headers of the request -/

/-- `udm_base64_decode`, at most some groups; there are zeros behind the text, and what is not in the encoding counts
as zero. -/
def udmBase64Decode : ℕ → List UInt8 → List UInt8
  | 0, _ => []
  | n + 1, src =>
    if src.isEmpty then []
    else
      let value i := (fromBase64Map (src.getD i 0)).toNat
      let res := value 3 + value 2 * 64 + value 1 * 64 * 64 + value 0 * 64 * 64 * 64
      [UInt8.ofNat (res >>> 16), UInt8.ofNat (res >>> 8), UInt8.ofNat res] ++ udmBase64Decode n (src.drop 4)

/-- A header of the request. -/
def Session.header (S : Session) (tok : List UInt8) : Session :=
  let S := if strcaseeq (tok.take 19) (bytes "If-Modified-Since: ") then { S with ifModified := true } else S
  if strcaseeq (tok.take 15) (bytes "Authorization: ") then
    let str := (udmTrim (bytes " \t\r\n") (tok.drop 15)).take 2047
    let user := (udmBase64Decode (255 / 4) str).takeWhile (· ≠ 0)
    match strchr user 0x3A with
    | some (user, pass) => { S with user := strncpy256 user, pass := strncpy256 pass }
    | none => { S with user := strncpy256 user }
  else S

/-- The session for a URL, with the headers of the request in `Doc.Buf`: a NUL is put at their beginning before they are
looked at. -/
def Session.ofRequest (url : UdmUrl) (hostinfo : List UInt8) (openHost : ℤ) (maxsize : ℕ) (buf : List UInt8) :
    Session :=
  (tokens (bytes "\r\n") ((buf.set 0 0).takeWhile (· ≠ 0))).foldl Session.header (.ofUrl url hostinfo openHost maxsize)

theorem ofRequest_eq (url : UdmUrl) (hostinfo : List UInt8) (openHost : ℤ) (maxsize : ℕ) (buf : List UInt8) :
    Session.ofRequest url hostinfo openHost maxsize buf = .ofUrl url hostinfo openHost maxsize := by
  have hempty : (buf.set 0 0).takeWhile (· ≠ 0) = [] := by cases buf <;> simp
  rw [Session.ofRequest, hempty]
  rfl

theorem stat_notMem_tasks {url : UdmUrl} {hostinfo : List UInt8} {openHost : ℤ} {maxsize : ℕ} :
    .stat ∉ (Session.ofUrl url hostinfo openHost maxsize).tasks := by
  have hno : (Session.ofUrl url hostinfo openHost maxsize).ifModified = false := by
    unfold Session.ofUrl
    simp only
    split <;> rfl
  unfold Session.tasks
  simp only [hno, Bool.false_eq_true, if_false]
  split_ifs <;> simp

/-! ## What is said and heard -/

/-- `authinfo user`. -/
def Session.userText (S : Session) : List UInt8 := bytes "authinfo user " ++ S.user ++ bytes "\r\n"

/-- `authinfo pass`. -/
def Session.passText (S : Session) : List UInt8 := bytes "authinfo pass " ++ S.pass ++ bytes "\r\n"

/-- What the server is told for a task. -/
def State.taskText (S : Session) (s : State) : Task → List UInt8
  | .list => bytes "list\r\n"
  | .group => bytes "group " ++ S.grp ++ bytes "\r\n"
  | .xover => bytes "xover " ++ decText s.fromArticle.toInt ++ bytes "-" ++ decText s.toArticle.toInt ++ bytes "\r\n"
  | .stat =>
    if S.isSchema "nntp" then bytes "stat " ++ S.msg ++ bytes "\r\n" else bytes "stat <" ++ S.msg ++ bytes ">\r\n"
  | .article =>
    if S.isSchema "nntp" then bytes "article " ++ S.msg ++ bytes "\r\n" else bytes "article <" ++ S.msg ++ bytes ">\r\n"

/-- The loop is about to do a command. -/
structure Does (c : Cmd) (s : State) : Prop where
  ret : s.ret = none
  head : s.cmd.head? = some c

/-- The client sends a text, and waits for an answer; nothing is read and nothing else is sent until then. -/
structure Says (S : Session) (text : List UInt8) (s s' : State) : Prop where
  reaches : Reaches (step S) s s'
  sent : s'.sent = s.sent ++ text.takeWhile (· ≠ 0)
  input : s'.input = s.input
  waits : Does .recvcmd s'

/-- The answer is read. -/
def State.hear (s : State) : State :=
  { s.nntpRecv with cmd := s.cmd.tail, status := atoiInt s.nntpRecv.str.str }

theorem step_hear {S : Session} {s : State} (h : Does .recvcmd s) : step S s = some s.hear := by
  obtain ⟨cmd, hcmd⟩ : ∃ cmd, s.cmd = .recvcmd :: cmd := List.head?_eq_some_iff.1 h.head
  rw [step_eq_some]
  refine ⟨.recvcmd, cmd, hcmd, h.ret, ?_⟩
  rw [State.hear, hcmd]
  rfl

/-- What an answer to a task means. -/
inductive Verdict where
  /-- The document has this status. -/
  | http (status : ℤ)
  /-- There is more to ask for. -/
  | more
  /-- The server wants to know the user first. -/
  | auth

/-- The meaning of the answer with a status. -/
def Task.verdict (status : ℤ) : Task → Verdict
  | .list => if status = 480 then .auth else if status = 215 then .http 200 else .http 500
  | .group => if status = 480 then .auth else if status = 211 then .more else .http 404
  | .xover => if status = 224 then .http 200 else .http 404
  | .stat =>
    if status = 480 then .auth else if status = 223 then .http 304 else if status = 423 then .http 404 else .http 500
  | .article => if status = 480 then .auth else if status = 220 then .http 200 else .http 404

/-- What the client does is what the answer to a task says: if the answer says the status of the document, then whenever
the loop ends, this is the status that is in `Doc.Buf`; if there is more to ask for, the commands for this come next;
and if the server wants to know the user, the client says so. -/
def Reflects (S : Session) (t : Task) (todo : List Cmd) (s : State) : Prop :=
  match t.verdict s.hear.status with
  | .http status => ∀ s', Reaches (step S) s.hear s' → step S s' = none → statusLine status <+: s'.buf.text
  | .more => ∃ s', Reaches (step S) s.hear s' ∧ s'.cmd = todo ∧ s'.sent = s.hear.sent ∧ s'.input = s.hear.input
  | .auth => ∃ s', Says S S.userText s.hear s'

/-- The client, about to do the command of a task: if the server answers with 480, and accepts the user and the
password, the command is sent again, and its second answer counts. -/
def Retries (S : Session) (t : Task) (s : State) : Prop :=
  ∃ s₁, Says S (s.taskText S t) s s₁ ∧ (s₁.hear.status = 480 →
    ∃ s₂, Says S S.userText s₁.hear s₂ ∧ (s₂.hear.status = 381 →
      ∃ s₃, Says S S.passText s₂.hear s₃ ∧ (s₃.hear.status = 281 ∨ s₃.hear.status = 200 →
        ∃ s₄, Says S (s.taskText S t) s₃.hear s₄ ∧ Reflects S t s.cmd.tail s₄)))

/-! ## The stack -/

/-- What a command may put on the stack. -/
def pushes : Cmd → List (List Cmd)
  | .connect => [[], [.recvcmd, .hello]]
  | .recv | .recvcmd | .send | .brk => [[]]
  | .reader => [[.send, .recvcmd, .hello]]
  | .hello | .passres => [[], [.quit]]
  | .user => [[.quit], [.send, .recvcmd, .userres]]
  | .userres => [[.pass], [.quit]]
  | .pass => [[.quit], [.send, .recvcmd, .passres]]
  | .list => [[.send, .recvcmd, .listres]]
  | .listres => [[.user, .list], [.quit], [.recv, .listdat]]
  | .listdat => [[], [.recv, .listdat]]
  | .xover => [[.send, .recvcmd, .xoverres]]
  | .xoverres => [[.recv, .xoverdat], [.quit]]
  | .xoverdat => [[], [.recv, .xoverdat]]
  | .group => [[.send, .recvcmd, .groupres]]
  | .groupres => [[.user, .group], [], [.quit]]
  | .stat => [[.send, .recvcmd, .statres]]
  | .statres => [[.quit, .user, .stat], [.quit]]
  | .article => [[.send, .recvcmd, .articleres]]
  | .articleres => [[.user, .article], [.recv, .articledat], [.quit]]
  | .articledat => [[], [.recv, .articledat]]
  | .quit => [[.brk]]

variable {S : Session} {s s' s'' : State} {status : ℤ} {a : Answer} {b : Buffer}

variable {c : Cmd}

/-- **What a command leaves on the stack**: what it puts there is on top of what was there. -/
theorem cmd_exec (h : s.cmd.length ≤ 90) (hbrk : c ≠ .brk) : ∃ p ∈ pushes c, (exec S s c).cmd = p ++ s.cmd := by
  have hone (c : Cmd) : inscmd s.cmd c = c :: s.cmd := inscmd_of_lt (by omega)
  have htwo (c c' : Cmd) : inscmd (c :: s.cmd) c' = c' :: c :: s.cmd :=
    inscmd_of_lt (by simp only [List.length_cons]; omega)
  have hthree (c c' c'' : Cmd) : inscmd (c :: c' :: s.cmd) c'' = c'' :: c :: c' :: s.cmd :=
    inscmd_of_lt (by simp only [List.length_cons]; omega)
  cases c <;> simp only [pushes, List.mem_cons, List.not_mem_nil, or_false, exists_eq_left, exists_eq_or_imp,
    List.nil_append, List.cons_append, exec]
  case brk => exact absurd rfl hbrk
  case recv | recvcmd | send => rfl
  case passres =>
    by_cases hok : s.status ≠ 200 ∧ s.status ≠ 281
    · rw [if_pos hok, cmd_ins, cmd_respond, hone]
      exact .inr rfl
    · rw [if_neg hok]
      exact .inl rfl
  case connect =>
    split_ifs
    · exact .inl rfl
    · simp only [cmd_ins, hone, htwo, or_true]
  case groupres =>
    split_ifs
    · simp only [cmd_ins, hone, htwo, true_or]
    · exact .inr (.inl rfl)
    · simp only [cmd_ins, cmd_respond, hone, or_true]
  all_goals try split_ifs
  all_goals simp only [cmd_ins, cmd_respond, cmd_ask, cmd_sprintf, cmd_snprintf, cmd_nntpSend, cmd_print, cmd_listLine,
    cmd_xoverLine, cmd_articleLine, hone, htwo, hthree, true_or, or_true]

/-- The commands that are the last ones before `quit`. -/
def Cmd.isLast : Cmd → Bool
  | .list | .listres | .listdat | .article | .articleres | .articledat => true
  | _ => false

/-- The stack never has `stat`, and the last commands are above `quit`. -/
def Plain : List Cmd → Prop
  | [] => True
  | c :: cmd => (c ≠ .stat ∧ c ≠ .statres ∧ (c.isLast = true → cmd = [.quit])) ∧ Plain cmd

variable {cmd : List Cmd}

theorem Plain.append {p : List Cmd} (h : Plain (c :: cmd)) (hp : p ∈ pushes c) : Plain (p ++ cmd) := by
  obtain ⟨⟨hstat, hstatres, hlast⟩, hcmd⟩ := h
  cases c <;> simp only [Cmd.isLast, Bool.false_eq_true, false_imp_iff, forall_const] at hlast <;>
    simp only [pushes, List.mem_cons, List.not_mem_nil, or_false] at hp
  case stat => exact absurd rfl hstat
  case statres => exact absurd rfl hstatres
  all_goals
    rcases hp with rfl | rfl | rfl <;> simp_all [Plain, Cmd.isLast]

theorem Plain.exec (h : Plain (c :: cmd)) (hle : cmd.length ≤ 90) (hcmd : s.cmd = cmd) : Plain (exec S s c).cmd := by
  subst hcmd
  by_cases hbrk : c = .brk
  · subst hbrk
    trivial
  · obtain ⟨p, hp, heq⟩ := cmd_exec (S := S) hle hbrk
    rw [heq]
    exact h.append hp

/-! ## Runs -/

@[simp] theorem length_snprintBuf (b : Buffer) (size : ℕ) (text : List UInt8) :
    (snprintBuf b size text).bytes.length = b.bytes.length := by
  rw [snprintBuf, Buffer.length_write, length_printBuf]

@[simp] theorem length_cutTokens (b : Buffer) (ts : List (ℕ × List UInt8)) :
    (cutTokens b ts).bytes.length = b.bytes.length := by
  unfold cutTokens
  induction ts generalizing b with
  | nil => rfl
  | cons t ts ih => rw [List.foldl_cons, ih, Buffer.length_write]

theorem length_listLine (S : Session) (s : State) : (listLine S s).str.bytes.length = s.str.bytes.length := by
  unfold listLine
  simp only
  split_ifs
  · exact Buffer.length_write _ _ _
  · rfl
  · exact Buffer.length_write _ _ _
  · rfl

theorem length_xoverLine (S : Session) (s : State) : (xoverLine S s).str.bytes.length = s.str.bytes.length := by
  unfold xoverLine
  simp only
  split_ifs
  · split <;> exact length_cutTokens _ _
  · split
    · exact length_cutTokens _ _
    · rename_i i field _
      generalize (if field.head? = some 0x3C then 1 else 0) = skip
      split_ifs
      · exact (Buffer.length_write _ _ _).trans (length_cutTokens _ _)
      · exact (Buffer.length_write _ _ _).trans (length_cutTokens _ _)
      · exact length_cutTokens _ _
      · exact length_cutTokens _ _

theorem length_articleLine (s : State) : (articleLine s).str.bytes.length = s.str.bytes.length := by
  unfold articleLine
  simp only
  split_ifs <;> rfl

section Fields

variable (S : Session) (s : State) (c : Cmd) (text : List UInt8) (status : ℤ) (size : ℕ)

@[simp] theorem str_ins : (s.ins c).str = s.str := rfl
@[simp] theorem str_ask : (s.ask c).str = s.str := rfl
@[simp] theorem str_sprintf : (s.sprintf text).str = printBuf s.str text := rfl
@[simp] theorem str_snprintf : (s.snprintf size text).str = snprintBuf s.str size text := rfl
@[simp] theorem str_nntpSend : s.nntpSend.str = s.str := rfl
@[simp] theorem str_respond : (s.respond status).str = s.str := rfl
@[simp] theorem str_print : (s.print text).str = s.str := rfl

theorem length_str_exec : (exec S s c).str.bytes.length = s.str.bytes.length := by
  cases c <;> simp only [exec]
  case recv | recvcmd => exact length_fdgets _ _ _
  case passres =>
    by_cases hok : s.status ≠ 200 ∧ s.status ≠ 281
    · rw [if_pos hok, str_ins, str_respond]
    · rw [if_neg hok]
  all_goals try split_ifs
  all_goals simp only [str_ins, str_ask, str_sprintf, str_snprintf, str_nntpSend, str_respond, str_print,
    length_printBuf, length_snprintBuf, length_listLine, length_xoverLine, length_articleLine]

end Fields

/-- What every state of a run has. -/
structure Sound (s : State) : Prop where
  length : s.str.bytes.length = 2048
  fits : Fits s.cmd
  plain : Plain s.cmd

theorem Sound.length_cmd (h : Sound s) (hcmd : s.cmd = c :: cmd) : cmd.length ≤ 5 := by
  have hle := h.fits.length_le
  rw [hcmd, List.length_cons] at hle
  omega

theorem Sound.step (h : Sound s) (hstep : step S s = some s') : Sound s' := by
  obtain ⟨c, cmd, hcmd, -, rfl⟩ := step_eq_some.1 hstep
  have hle := h.length_cmd hcmd
  obtain ⟨hlength, hfits, hplain⟩ := h
  rw [hcmd] at hfits hplain
  exact ⟨(length_str_exec _ _ _).trans hlength, Fits.exec hfits.2 hfits.1, hplain.exec (by omega) rfl⟩

theorem Sound.reaches (h : Sound s) (hr : Reaches (Nntp.step S) s s') : Sound s' := by
  induction hr with
  | refl => exact h
  | tail _ hstep ih => exact ih.step hstep

theorem sound_start {input : List UInt8} (hstat : .stat ∉ S.tasks) (h : s ∈ start S input) : Sound s := by
  have hcmd := cmd_start h
  refine ⟨(live_start h).1.length, ?_, ?_⟩
  · rw [hcmd]
    exact Fits.start S
  · rw [hcmd]
    clear hcmd h
    obtain ⟨t, ht | ht⟩ := S.tasks_cases <;> rw [ht] at hstat ⊢ <;> cases t <;> simp_all [Plain, Cmd.isLast, Task.cmd]

/-! ## Saying -/

/-- A state in which the client waits for an answer. -/
def State.asking (s : State) (text : List UInt8) (b : Buffer) (res : Cmd) (cmd : List Cmd) : State :=
  { s with cmd := .recvcmd :: res :: cmd, str := b, sent := s.sent ++ text.takeWhile (· ≠ 0) }

theorem says_ask {res : Cmd} {text : List UInt8} (hret : s.ret = none) (hcmd : s.cmd = c :: cmd) (hle : cmd.length ≤ 90)
    (hexec : exec S { s with cmd := cmd } c = { ({ s with cmd := cmd } : State).ask res with str := b })
    (hb : b.str = text.takeWhile (· ≠ 0)) : Says S text s (s.asking text b res cmd) := by
  have hask : (({ s with cmd := cmd } : State).ask res).cmd = .send :: .recvcmd :: res :: cmd := cmd_ask_of_le hle res
  have hexec' : exec S { s with cmd := cmd } c = { s with cmd := .send :: .recvcmd :: res :: cmd, str := b } := by
    rw [hexec, ← hask]
    rfl
  have hsend : step S { s with cmd := .send :: .recvcmd :: res :: cmd, str := b } =
      some { s with cmd := .recvcmd :: res :: cmd, str := b, sent := s.sent ++ b.str } :=
    step_eq_some.2 ⟨_, _, rfl, hret, rfl⟩
  rw [hb] at hsend
  have hfirst : step S s = some { s with cmd := .send :: .recvcmd :: res :: cmd, str := b } :=
    step_eq_some.2 ⟨c, cmd, hcmd, hret, hexec'.symm⟩
  exact ⟨.head hfirst (.single hsend), rfl, rfl, hret, rfl⟩

theorem Says.of_step {text : List UInt8} (hstep : step S s = some s') (hsent : s'.sent = s.sent)
    (hinput : s'.input = s.input) (h : Says S text s' s'') : Says S text s s'' :=
  ⟨.head hstep h.reaches, by rw [h.sent, hsent], by rw [h.input, hinput], h.waits⟩

theorem exec_user (huser : S.user.val ≠ []) :
    exec S s .user = { s.ask .userres with str := printBuf s.str S.userText } := by
  have hne : S.user.val.isEmpty = false := by simpa using huser
  simp only [exec, hne, Bool.false_eq_true, if_false]
  rfl

theorem exec_pass (hpass : S.pass.val ≠ []) :
    exec S s .pass = { s.ask .passres with str := printBuf s.str S.passText } := by
  have hne : S.pass.val.isEmpty = false := by simpa using hpass
  simp only [exec, hne, Bool.false_eq_true, if_false]
  rfl

theorem length_userText_lt (S : Session) : S.userText.length < 2048 := by
  have huser := S.user.2
  have htext : "authinfo user ".length + "\r\n".length = 16 := rfl
  rw [Session.userText]
  simp
  omega

theorem length_passText_lt (S : Session) : S.passText.length < 2048 := by
  have hpass := S.pass.2
  have htext : "authinfo pass ".length + "\r\n".length = 16 := rfl
  rw [Session.passText]
  simp
  omega

theorem length_taskText_lt (S : Session) (s : State) (t : Task) : (s.taskText S t).length < 2000 := by
  cases t <;> simp only [State.taskText]
  case list => simp; decide
  case group =>
    have hgrp := S.grp.2
    have htext : "group ".length + "\r\n".length = 8 := rfl
    simp
    omega
  case xover =>
    have hfrom := length_decText_le s.fromArticle
    have hto := length_decText_le s.toArticle
    have htext : "xover ".length + "-".length + "\r\n".length = 9 := rfl
    simp
    omega
  case stat =>
    have hmsg := S.msg.2
    have htext : "stat ".length + "\r\n".length = 7 ∧ "stat <".length + ">\r\n".length = 9 := ⟨rfl, rfl⟩
    split_ifs <;> simp <;> omega
  case article =>
    have hmsg := S.msg.2
    have htext : "article ".length + "\r\n".length = 10 ∧ "article <".length + ">\r\n".length = 12 := ⟨rfl, rfl⟩
    split_ifs <;> simp <;> omega

theorem str_snprintBuf {size : ℕ} {text : List UInt8} (hlt : text.length < size - 1)
    (hle : size ≤ b.bytes.length) : (snprintBuf b size text).str = text.takeWhile (· ≠ 0) := by
  have hbytes := Http.bytes_printBuf (show text.length < b.bytes.length by omega)
  generalize (printBuf b text).bytes.drop (text.length + 1) = rest at hbytes
  obtain ⟨k, hk⟩ : ∃ k, size - 1 = text.length + (k + 1) := ⟨size - 1 - text.length - 1, by omega⟩
  have hset : (text ++ 0 :: rest).set (text.length + (k + 1)) 0 = text ++ 0 :: rest.set k 0 := by
    rw [List.set_append_right _ _ (by omega), Nat.add_sub_cancel_left, List.set_cons_succ]
  rw [Buffer.str, snprintBuf, List.take_of_length_le (by omega), Buffer.bytes_write, hbytes, hk, hset,
    Http.takeWhile_append_nul]

theorem exec_task (hlen : s.str.bytes.length = 2048) (t : Task) :
    ∃ b, exec S s t.cmd = { s.ask t.res with str := b } ∧ b.str = (s.taskText S t).takeWhile (· ≠ 0) := by
  have htext := length_taskText_lt S s t
  have hprint : (printBuf s.str (s.taskText S t)).str = (s.taskText S t).takeWhile (· ≠ 0) := str_printBuf (by omega)
  have hsnprint (size : ℕ) (hlo : 2047 ≤ size) (hhi : size ≤ 2048) :
      (snprintBuf s.str size (s.taskText S t)).str = (s.taskText S t).takeWhile (· ≠ 0) :=
    str_snprintBuf (by omega) (by omega)
  cases t with
  | list => exact ⟨_, rfl, hprint⟩
  | group => exact ⟨_, rfl, hprint⟩
  | xover => exact ⟨_, rfl, hprint⟩
  | stat =>
    have hsnprint := hsnprint 2047 (by decide) (by decide)
    simp only [Task.cmd, exec, State.taskText] at hsnprint ⊢
    split_ifs at hsnprint ⊢ <;> exact ⟨_, rfl, hsnprint⟩
  | article =>
    have hsnprint := hsnprint 2048 (by decide) (by decide)
    simp only [Task.cmd, exec, State.taskText] at hsnprint ⊢
    split_ifs at hsnprint ⊢ <;> exact ⟨_, rfl, hsnprint⟩

theorem says_task (hs : Sound s) (hret : s.ret = none) {t : Task} (hcmd : s.cmd = t.cmd :: cmd) :
    ∃ s', Says S (s.taskText S t) s s' ∧ s'.cmd = .recvcmd :: t.res :: cmd := by
  have hle := hs.length_cmd hcmd
  obtain ⟨b, hexec, hb⟩ := exec_task (S := S) (s := { s with cmd := cmd }) hs.length t
  exact ⟨_, says_ask hret hcmd (by omega) hexec hb, rfl⟩

theorem says_user (huser : S.user.val ≠ []) (hs : Sound s) (hret : s.ret = none)
    (hcmd : s.cmd = .user :: cmd) : ∃ s', Says S S.userText s s' ∧ s'.cmd = .recvcmd :: .userres :: cmd := by
  have hle := hs.length_cmd hcmd
  have htext := length_userText_lt S
  have hlen := hs.length
  exact ⟨_, says_ask hret hcmd (by omega) (exec_user huser) (str_printBuf (by simp only; omega)), rfl⟩

theorem says_pass (hpass : S.pass.val ≠ []) (hs : Sound s) (hret : s.ret = none)
    (hcmd : s.cmd = .pass :: cmd) : ∃ s', Says S S.passText s s' ∧ s'.cmd = .recvcmd :: .passres :: cmd := by
  have hle := hs.length_cmd hcmd
  have htext := length_passText_lt S
  have hlen := hs.length
  exact ⟨_, says_ask hret hcmd (by omega) (exec_pass hpass) (str_printBuf (by simp only; omega)), rfl⟩

/-! ## The status of the document -/

/-- A page that is begun: it has its status, and there is room for it. -/
structure Begun (a : Answer) : Prop where
  text : statusLine 200 <+: a.text
  endAt : a.endAt = a.text.length
  room : a.text.length = a.maxsize → 17 < a.endAt

theorem length_statusLine : (statusLine 200).length = 17 := rfl

theorem Begun.print (h : Begun a) (text : List UInt8) :
    statusLine 200 <+: (a.print text).text ∧
      ((a.print text).text.length = a.maxsize → 17 < (a.print text).text.length) := by
  obtain ⟨htext, hend, hroom⟩ := h
  have hlen := htext.length_le
  rw [length_statusLine] at hlen
  unfold Answer.print
  rw [hend]
  split_ifs with hfull hmore
  · have hlt := hroom hfull
    simp only [List.length_take]
    exact ⟨List.prefix_take_iff.2 ⟨htext, by rw [length_statusLine]; omega⟩, fun h => by omega⟩
  · simp only [List.take_length, List.length_append]
    exact ⟨htext.trans (List.prefix_append _ _), fun h => by omega⟩
  · simp only [List.take_length, List.length_append, List.length_take]
    exact ⟨htext.trans (List.prefix_append _ _), fun h => by omega⟩

theorem Begun.printEnd (h : Begun a) (text : List UInt8) : Begun (a.print text).toEnd := by
  have hmax : (a.print text).maxsize = a.maxsize := by
    unfold Answer.print
    split_ifs <;> rfl
  obtain ⟨htext, hroom⟩ := h.print text
  exact ⟨htext, rfl, fun h => hroom (h.trans hmax)⟩

theorem begun_pageHead (a : Answer) : Begun (a.begin pageHead) :=
  ⟨show statusLine 200 <+: pageHead by decide, rfl, fun _ => show 17 < pageHead.length by decide⟩

theorem buf_listLine (S : Session) (s : State) : ∃ text, (listLine S s).buf = (s.buf.print text).toEnd := by
  unfold listLine
  simp only
  split_ifs <;> exact ⟨_, rfl⟩

theorem text_articleLine (s : State) : s.buf.text <+: (articleLine s).buf.text := by
  unfold articleLine
  simp only
  split_ifs
  all_goals first
    | exact List.prefix_rfl
    | exact List.prefix_append _ _
    | exact (List.prefix_append _ _).trans (List.prefix_append _ _)

/-- The status of the document does not change any more. -/
inductive Settled (status : ℤ) (s : State) : Prop
  | quits (hcmd : ∀ c ∈ s.cmd.head?, c = .quit ∨ c = .brk) (htext : statusLine status <+: s.buf.text)
  | list (hstatus : status = 200) (hcmd : s.cmd = [.listdat, .quit] ∨ s.cmd = [.recv, .listdat, .quit])
      (hbuf : Begun s.buf)
  | article (hstatus : status = 200) (hcmd : s.cmd = [.articledat, .quit] ∨ s.cmd = [.recv, .articledat, .quit])
      (htext : statusLine 200 <+: s.buf.text)

theorem Settled.text (h : Settled status s) : statusLine status <+: s.buf.text := by
  cases h with
  | quits _ htext => exact htext
  | list hstatus _ hbuf => exact hstatus ▸ hbuf.text
  | article hstatus _ htext => exact hstatus ▸ htext

theorem Settled.step {status : ℤ} (h : Settled status s) (hs : Sound s) (hstep : step S s = some s') :
    Settled status s' := by
  obtain ⟨c, cmd, hc, -, rfl⟩ := step_eq_some.1 hstep
  have hle := hs.length_cmd hc
  cases h with
  | quits hcmd htext =>
    rcases hcmd c (by rw [hc]; rfl) with rfl | rfl
    · have hcmd' : (exec S { s with cmd := cmd } .quit).cmd = .brk :: cmd := by
        simp only [exec]
        split_ifs <;> exact inscmd_of_lt (by simp only [cmd_nntpSend, cmd_sprintf]; omega)
      refine .quits (fun c' hc' => ?_) ?_
      · rw [hcmd'] at hc'
        exact .inr (Option.some_injective _ hc').symm
      · simp only [exec]
        split_ifs <;> exact htext
    · exact .quits (fun c' hc' => by cases hc') htext
  | list hstatus hcmd hbuf =>
    subst hstatus
    rw [hc] at hcmd
    rcases hcmd with hcmd | hcmd <;> cases hcmd
    · simp only [exec]
      split_ifs
      · exact .quits (fun c' hc' => .inl (Option.some_injective _ hc').symm) (hbuf.print _).1
      · obtain ⟨text, htext⟩ := buf_listLine S { s with cmd := [.quit] }
        refine .list rfl (.inr ?_) ?_
        · simp only [cmd_ins, cmd_listLine]
          rfl
        · exact htext ▸ hbuf.printEnd text
    · exact .list rfl (.inl rfl) hbuf
  | article hstatus hcmd htext =>
    subst hstatus
    rw [hc] at hcmd
    rcases hcmd with hcmd | hcmd <;> cases hcmd
    · simp only [exec]
      split_ifs
      · exact .quits (fun c' hc' => .inl (Option.some_injective _ hc').symm) htext
      · refine .article rfl (.inr ?_) ?_
        · simp only [cmd_ins, cmd_articleLine]
          rfl
        · exact htext.trans (text_articleLine { s with cmd := [.quit] })
    · exact .article rfl (.inl rfl) htext

theorem Settled.reaches (h : Settled status s) (hs : Sound s) (hr : Reaches (Nntp.step S) s s') :
    Settled status s' := by
  induction hr with
  | refl => exact h
  | tail hr hstep ih => exact ih.step (hs.reaches hr) hstep

theorem settled_respond (hle : s.cmd.length ≤ 90) (status : ℤ) : Settled status ((s.respond status).ins .quit) := by
  have hcmd : ((s.respond status).ins .quit).cmd = .quit :: s.cmd := inscmd_of_lt (by simp only [cmd_respond]; omega)
  refine .quits (fun c hc => ?_)
    ⟨bytes "NNTP-Response: " ++ s.str.str ++ bytes "\r\n\r\n", by simp [State.ins, State.respond]⟩
  rw [hcmd] at hc
  exact .inl (Option.some_injective _ hc).symm

/-! ## The second answer -/

theorem taskText_eq {t : Task} (ht : t ≠ .xover) (s s' : State) : s.taskText S t = s'.taskText S t := by
  cases t
  case xover => exact absurd rfl ht
  all_goals rfl

/-- The tasks that are tried again. -/
def Task.retried : Task → Bool
  | .list | .group | .article => true
  | .xover | .stat => false

theorem exec_res_auth {t : Task} (ht : t.retried = true) (h : s.status = 480) :
    exec S s t.res = (s.ins t.cmd).ins .user := by
  cases t <;> first | exact if_pos h | cases ht

theorem says_auth (huser : S.user.val ≠ []) (hs : Sound s) (hret : s.ret = none) {t : Task} (ht : t.retried = true)
    (hcmd : s.cmd = t.res :: cmd) (h : s.status = 480) :
    ∃ s', Says S S.userText s s' ∧ s'.cmd = .recvcmd :: .userres :: t.cmd :: cmd := by
  have hle := hs.length_cmd hcmd
  have hstep : step S s = some ((({ s with cmd := cmd } : State).ins t.cmd).ins .user) :=
    step_eq_some.2 ⟨_, _, hcmd, hret, (exec_res_auth (s := { s with cmd := cmd }) ht h).symm⟩
  have htop : ((({ s with cmd := cmd } : State).ins t.cmd).ins .user).cmd = .user :: t.cmd :: cmd := by
    have hone : inscmd cmd t.cmd = t.cmd :: cmd := inscmd_of_lt (by omega)
    rw [cmd_ins, cmd_ins, hone]
    exact inscmd_of_lt (by simp only [List.length_cons]; omega)
  obtain ⟨s', hsays, hcmd'⟩ := says_user huser (hs.step hstep) hret htop
  exact ⟨s', hsays.of_step hstep rfl rfl, hcmd'⟩

theorem says_userres (hpass : S.pass.val ≠ []) (hs : Sound s) (hret : s.ret = none)
    (hcmd : s.cmd = .userres :: cmd) (h : s.status = 381) :
    ∃ s', Says S S.passText s s' ∧ s'.cmd = .recvcmd :: .passres :: cmd := by
  have hle := hs.length_cmd hcmd
  have hstep : step S s = some (({ s with cmd := cmd } : State).ins .pass) :=
    step_eq_some.2 ⟨_, _, hcmd, hret, (if_pos h).symm⟩
  obtain ⟨s', hsays, hcmd'⟩ := says_pass hpass (hs.step hstep) hret (inscmd_of_lt (by simp only; omega))
  exact ⟨s', hsays.of_step hstep rfl rfl, hcmd'⟩

theorem says_passres (hs : Sound s) (hret : s.ret = none) {t : Task}
    (hcmd : s.cmd = .passres :: t.cmd :: cmd) (h : s.status = 281 ∨ s.status = 200) :
    ∃ s', Says S (s.taskText S t) s s' ∧ s'.cmd = .recvcmd :: t.res :: cmd := by
  have hno : ¬ (s.status ≠ 200 ∧ s.status ≠ 281) := by omega
  have hstep : step S s = some { s with cmd := t.cmd :: cmd } :=
    step_eq_some.2 ⟨_, _, hcmd, hret, (if_neg hno).symm⟩
  obtain ⟨s', hsays, hcmd'⟩ := says_task (hs.step hstep) hret rfl
  refine ⟨s', ?_, hcmd'⟩
  cases t <;> exact hsays.of_step hstep rfl rfl

theorem settled_of_step (hs : Sound s) (hstep : step S s = some s') (h : Settled status s')
    (hr : Reaches (step S) s s'') (hend : step S s'' = none) : statusLine status <+: s''.buf.text := by
  rcases Relation.ReflTransGen.cases_head hr with rfl | ⟨u, hu, hr⟩
  · rw [hend] at hstep
    cases hstep
  · cases Option.mem_unique hstep hu
    exact (h.reaches (hs.step hstep) hr).text

theorem Sound.cmd_eq (hs : Sound s) (hcmd : s.cmd = c :: cmd) (hlast : c.isLast = true) : cmd = [.quit] := by
  have hplain := hs.plain
  rw [hcmd] at hplain
  exact hplain.1.2.2 hlast

/-- **The answer counts**. -/
theorem reflects (huser : S.user.val ≠ []) (hs : Sound s) (hwaits : Does .recvcmd s) {t : Task}
    (ht : t.retried = true) (hcmd : s.cmd = .recvcmd :: t.res :: cmd) : Reflects S t cmd s := by
  have hhear : Sound s.hear := hs.step (step_hear hwaits (S := S))
  have htop : s.hear.cmd = t.res :: cmd := by rw [State.hear, hcmd]; rfl
  have hret : s.hear.ret = none := hwaits.ret
  have hle := hhear.length_cmd htop
  have hauth := says_auth huser hhear hret ht htop
  have hstep : step S s.hear = some (exec S { s.hear with cmd := cmd } t.res) :=
    step_eq_some.2 ⟨_, _, htop, hret, rfl⟩
  have hrespond (status : ℤ) : Settled status ((({ s.hear with cmd := cmd } : State).respond status).ins .quit) :=
    settled_respond (by simp only; omega) status
  unfold Reflects
  cases t with
  | list =>
    obtain rfl := hhear.cmd_eq htop rfl
    simp only [Task.verdict]
    by_cases h480 : s.hear.status = 480
    · obtain ⟨s', hsays, -⟩ := hauth h480
      rw [if_pos h480]
      exact ⟨s', hsays⟩
    rw [if_neg h480]
    by_cases h215 : s.hear.status = 215
    · rw [if_pos h215]
      refine fun s' hr hend => settled_of_step hhear hstep (.list rfl (.inr ?_) ?_) hr hend
      all_goals simp only [Task.res, exec, h215, ne_eq, not_true_eq_false, if_false]
      · rfl
      · exact begun_pageHead _
    · rw [if_neg h215]
      refine fun s' hr hend => settled_of_step hhear hstep ?_ hr hend
      simp only [Task.res, exec, h480, h215, ne_eq, not_false_eq_true, if_true, if_false]
      exact hrespond 500
  | group =>
    simp only [Task.verdict]
    by_cases h480 : s.hear.status = 480
    · obtain ⟨s', hsays, -⟩ := hauth h480
      rw [if_pos h480]
      exact ⟨s', hsays⟩
    rw [if_neg h480]
    by_cases h211 : s.hear.status = 211
    · rw [if_pos h211]
      refine ⟨_, .single hstep, ?_⟩
      simp only [Task.res, exec, h211, if_true]
      exact ⟨rfl, rfl, rfl⟩
    · rw [if_neg h211]
      refine fun s' hr hend => settled_of_step hhear hstep ?_ hr hend
      simp only [Task.res, exec, h480, h211, if_false]
      exact hrespond 404
  | article =>
    obtain rfl := hhear.cmd_eq htop rfl
    simp only [Task.verdict]
    by_cases h480 : s.hear.status = 480
    · obtain ⟨s', hsays, -⟩ := hauth h480
      rw [if_pos h480]
      exact ⟨s', hsays⟩
    rw [if_neg h480]
    by_cases h220 : s.hear.status = 220
    · rw [if_pos h220]
      refine fun s' hr hend => settled_of_step hhear hstep (.article rfl (.inr ?_) ?_) hr hend
      all_goals simp only [Task.res, exec, h220, if_true]
      · rfl
      · exact List.prefix_rfl
    · rw [if_neg h220]
      refine fun s' hr hend => settled_of_step hhear hstep ?_ hr hend
      simp only [Task.res, exec, h480, h220, if_false]
      exact hrespond 404
  | xover => cases ht
  | stat => cases ht

theorem retries_of_sound (huser : S.user.val ≠ []) (hpass : S.pass.val ≠ []) (hs : Sound s) {t : Task}
    (ht : t.retried = true) (hdoes : Does t.cmd s) : Retries S t s := by
  obtain ⟨cmd, hcmd⟩ : ∃ cmd, s.cmd = t.cmd :: cmd := List.head?_eq_some_iff.1 hdoes.head
  have hover : t ≠ .xover := by rintro rfl; cases ht
  have hread {s : State} {c : Cmd} {cmd : List Cmd} (hcmd : s.cmd = .recvcmd :: c :: cmd) :
      s.hear.cmd = c :: cmd := by rw [State.hear, hcmd]; rfl
  obtain ⟨s₁, h₁, hcmd₁⟩ := says_task (S := S) hs hdoes.ret hcmd
  have hs₁ := (hs.reaches h₁.reaches).step (step_hear (S := S) h₁.waits)
  refine ⟨s₁, h₁, fun h480 => ?_⟩
  obtain ⟨s₂, h₂, hcmd₂⟩ := says_auth huser hs₁ h₁.waits.ret ht (hread hcmd₁) h480
  have hs₂ := (hs₁.reaches h₂.reaches).step (step_hear (S := S) h₂.waits)
  refine ⟨s₂, h₂, fun h381 => ?_⟩
  obtain ⟨s₃, h₃, hcmd₃⟩ := says_userres hpass hs₂ h₂.waits.ret (hread hcmd₂) h381
  have hs₃ := (hs₂.reaches h₃.reaches).step (step_hear (S := S) h₃.waits)
  refine ⟨s₃, h₃, fun h281 => ?_⟩
  obtain ⟨s₄, h₄, hcmd₄⟩ := says_passres (S := S) hs₃ h₃.waits.ret (hread hcmd₃) h281
  rw [taskText_eq hover s s₃.hear, hcmd]
  exact ⟨s₄, h₄, reflects huser (hs₃.reaches h₄.reaches) h₄.waits ht hcmd₄⟩

/-- **The command is tried again**: in every run of the client with a user and a password, whenever the server answers
`list`, `group`, `stat` or `article` with 480, and accepts the user and the password, the client sends the same command
again before anything else, and the status of the document is that of the second answer. -/
theorem retries (url : UdmUrl) (hostinfo : List UInt8) (openHost : ℤ) (maxsize : ℕ) (buf input : List UInt8)
    (huser : (Session.ofRequest url hostinfo openHost maxsize buf).user.val ≠ [])
    (hpass : (Session.ofRequest url hostinfo openHost maxsize buf).pass.val ≠ []) {s₀ s : State}
    (hstart : s₀ ∈ start (.ofRequest url hostinfo openHost maxsize buf) input)
    (hr : Reaches (step (.ofRequest url hostinfo openHost maxsize buf)) s₀ s) {t : Task}
    (ht : t = .list ∨ t = .group ∨ t = .stat ∨ t = .article) (hdoes : Does t.cmd s) :
    Retries (.ofRequest url hostinfo openHost maxsize buf) t s := by
  rw [ofRequest_eq] at huser hpass hstart hr ⊢
  have hs := (sound_start stat_notMem_tasks hstart).reaches hr
  rcases ht with rfl | rfl | rfl | rfl
  · exact retries_of_sound huser hpass hs rfl hdoes
  · exact retries_of_sound huser hpass hs rfl hdoes
  · -- `stat` is on the stack of no run
    obtain ⟨cmd, hcmd⟩ : ∃ cmd, s.cmd = Cmd.stat :: cmd := List.head?_eq_some_iff.1 hdoes.head
    have hplain := hs.plain
    rw [hcmd] at hplain
    exact absurd rfl hplain.1.1
  · exact retries_of_sound huser hpass hs rfl hdoes

/-- The loop, for some rounds. -/
def rounds (S : Session) : ℕ → State → Option State
  | 0, s => some s
  | n + 1, s => (step S s).bind (rounds S n)

theorem reaches_rounds {n : ℕ} (h : rounds S n s = some s') : Reaches (step S) s s' := by
  induction n generalizing s with
  | zero =>
    cases h
    exact .refl
  | succ n ih =>
    obtain ⟨u, hu, hrest⟩ := Option.bind_eq_some_iff.1 h
    exact .head hu (ih hrest)

/-- The URL of the list of the groups, with a user and a password. -/
def authUrl : UdmUrl :=
  ⟨some (bytes "nntp"), bytes "//u:p@h/", some (bytes "u:p"), some (bytes "h"), bytes "/", none, 0, 119⟩

/-- The list is asked for in the eighth round. -/
theorem retries_list :
    ∃ s₀ ∈ start (.ofRequest authUrl (bytes "u:p@h") 3 65536 []) (bytes "200\n200\n480\n381\n281\n215\n.\n"),
      ∃ s, rounds (.ofRequest authUrl (bytes "u:p@h") 3 65536 []) 7 s₀ = some s ∧ Does .list s ∧
        Retries (.ofRequest authUrl (bytes "u:p@h") 3 65536 []) .list s := by
  obtain ⟨s₀, hs₀⟩ : ∃ s₀, s₀ ∈ start (.ofRequest authUrl (bytes "u:p@h") 3 65536 [])
      (bytes "200\n200\n480\n381\n281\n215\n.\n") := Option.isSome_iff_exists.1 (by rw [isSome_start]; decide)
  have hrun : ((start (.ofRequest authUrl (bytes "u:p@h") 3 65536 [])
      (bytes "200\n200\n480\n381\n281\n215\n.\n")).bind
        (rounds (.ofRequest authUrl (bytes "u:p@h") 3 65536 []) 7)).map (fun s => (s.ret, s.cmd)) =
          some (none, [.list, .quit]) := by decide +kernel
  rw [hs₀, Option.bind_some] at hrun
  obtain ⟨s, hs, heq⟩ := Option.map_eq_some_iff.1 hrun
  have hcmd : s.cmd = [.list, .quit] := congrArg Prod.snd heq
  have hdoes : Does Task.list.cmd s := ⟨congrArg Prod.fst heq, by rw [hcmd]; rfl⟩
  exact ⟨s₀, hs₀, s, hs, hdoes,
    retries authUrl (bytes "u:p@h") 3 65536 [] _ (by decide) (by decide) hs₀ (reaches_rounds hs) (.inl rfl) hdoes⟩

end MnoGoSearch.Nntp
