import MnoGoSearch.Nntp.Client

/-!
# The dialogue with a news server

The client as its protocol has it: it waits for an answer, does what the status says, and reads data up
to a line that begins with a dot. `Served` is what the client expects of a server: no line fills the
line buffer, and data have an end. `returns_iff` is the theorem that `UdmNNTPGet` returns, without a
write behind its line buffer, exactly for the servers that do so.
-/

namespace MnoGoSearch.Nntp

open Url
open StateTransition
open MnoGoSearch.Lib (Buffer)
open MnoGoSearch.Http (printBuf atoiInt length_printBuf overflow_printBuf)

/-! ## The protocol -/

/-- The lines of what a server sends; only the last one may have no newline. -/
@[grind =] def lines : List UInt8 → List (List UInt8)
  | [] => []
  | c :: s =>
    if c = 0x0A then [c] :: lines s
    else
      match lines s with
      | [] => [[c]]
      | l :: ls => (c :: l) :: ls

/-- The status in a line. -/
def lineStatus (l : List UInt8) : ℤ := atoiInt (l.takeWhile (· ≠ 0))

/-- What the client waits for. -/
inductive Wait where
  /-- The greeting of the server. -/
  | greeting
  /-- The answer to `mode reader`. -/
  | reader
  | user
  /-- The answer to a password. -/
  | pass
  | reply (t : Task)

/-- What the client does. -/
inductive Phase where
  /-- It waits for an answer, and has other tasks then. -/
  | ask (w : Wait) (todo : List Task)
  | data (todo : List Task)
  | done

/-- The first task is begun. -/
def Phase.begin : List Task → Phase
  | [] => .done
  | t :: todo => .ask (.reply t) todo

/-- The server wants to know the user first. -/
def Phase.auth (S : Session) (todo : List Task) : Phase := if S.user.val.isEmpty then .done else .ask .user todo

/-- What the client does after an answer. -/
def Phase.next (S : Session) (todo : List Task) (status : ℤ) : Wait → Phase
  | .greeting => if status = 200 then .ask .reader todo else .done
  | .reader => if status = 200 then .begin todo else .done
  | .user => if status = 381 ∧ ¬ S.pass.val.isEmpty then .ask .pass todo else .done
  | .pass => if status = 200 ∨ status = 281 then .begin todo else .done
  | .reply .list => if status = 480 then .auth S (.list :: todo) else if status = 215 then .data todo else .done
  | .reply .group => if status = 480 then .auth S (.group :: todo) else if status = 211 then .begin todo else .done
  | .reply .xover => if status = 224 then .data todo else .done
  | .reply .stat => .done
  | .reply .article => if status = 480 then .auth S (.article :: todo) else if status = 220 then .data todo else .done

/-- The server does its part, from some phase on: each of its lines that the client reads has less than 2048 bytes,
and it does not stop in the middle of data. -/
def Served (S : Session) : Phase → List (List UInt8) → Prop
  | .done, _ => True
  | .ask _ _, [] => True
  | .ask w todo, l :: ls => l.length < 2048 ∧ Served S (.next S todo (lineStatus l) w) ls
  | .data _, [] => False
  | .data todo, l :: ls =>
    l.length < 2048 ∧ Served S (if l.head? = some 0x2E then .begin todo else .data todo) ls

instance Served.decidable (S : Session) : ∀ phase ls, Decidable (Served S phase ls)
  | .done, [] => isTrue trivial
  | .done, _ :: _ => isTrue trivial
  | .ask _ _, [] => isTrue trivial
  | .ask w todo, l :: ls =>
    have := Served.decidable S (.next S todo (lineStatus l) w) ls
    inferInstanceAs (Decidable (_ ∧ _))
  | .data _, [] => isFalse id
  | .data todo, l :: ls =>
    have := Served.decidable S (if l.head? = some 0x2E then .begin todo else .data todo) ls
    inferInstanceAs (Decidable (_ ∧ _))

/-! ## Lines in the buffer -/

variable {input l text : List UInt8} {ls : List (List UInt8)} {w : Wait} {cmd : List Cmd} {a : UInt8} {c : Cmd}
variable {i size n : ℕ} {S : Session} {s s' s'' : State} {b : Buffer}

theorem ne_nil_of_lines (h : lines input = l :: ls) : l ≠ [] := by
  cases input with
  | nil => cases h
  | cons c input =>
    rw [lines] at h
    split_ifs at h
    · cases h
      exact List.cons_ne_nil _ _
    · split at h <;> cases h <;> exact List.cons_ne_nil _ _

@[simp] theorem lines_eq_nil : lines input = [] ↔ input = [] := by
  cases input with
  | nil => simp [lines]
  | cons c input =>
    rw [lines]
    split_ifs
    · simp
    · split <;> simp

theorem fdgetsLoop_line (h : lines input = l :: ls) (hle : n + l.length ≤ size) :
    ∃ rest, lines rest = ls ∧ fdgetsLoop size n b input = (n + l.length, b.writes n l, rest) := by
  induction input generalizing n b l with
  | nil => cases h
  | cons c input ih =>
    rw [lines] at h
    rw [fdgetsLoop]
    by_cases hc : c = 0x0A
    · rw [if_pos hc] at h
      cases h
      rw [if_neg (by simp at hle; omega), if_pos hc]
      exact ⟨input, rfl, rfl⟩
    · rw [if_neg hc] at h
      rw [if_neg (by split at h <;> cases h <;> simp at hle <;> omega), if_neg hc]
      cases hls : lines input with
      | nil =>
        rw [hls] at h
        cases h
        rw [lines_eq_nil.1 hls]
        exact ⟨[], rfl, rfl⟩
      | cons l' ls' =>
        rw [hls] at h
        cases h
        rw [List.length_cons] at hle ⊢
        obtain ⟨rest, hrest, hloop⟩ := ih (n := n + 1) (b := b.write n c) hls (by omega)
        refine ⟨rest, hrest, ?_⟩
        rw [hloop, Buffer.writes, Nat.add_right_comm, Nat.add_assoc]

theorem fdgetsLoop_long (h : lines input = l :: ls) (hle : n ≤ size) (hlong : size ≤ n + l.length) :
    (fdgetsLoop size n b input).1 = size := by
  induction input generalizing n b l with
  | nil => cases h
  | cons c input ih =>
    rw [lines] at h
    rw [fdgetsLoop]
    by_cases hfull : size < n + 1
    · rw [if_pos hfull]
      simp only
      omega
    rw [if_neg hfull]
    by_cases hc : c = 0x0A
    · rw [if_pos hc] at h
      cases h
      rw [if_pos hc]
      simp only [List.length_cons, List.length_nil] at hlong ⊢
      omega
    · rw [if_neg hc] at h ⊢
      cases hls : lines input with
      | nil =>
        rw [hls] at h
        cases h
        rw [lines_eq_nil.1 hls]
        simp only [List.length_cons, List.length_nil] at hlong
        simp only [fdgetsLoop]
        omega
      | cons l' ls' =>
        rw [hls] at h
        cases h
        rw [List.length_cons] at hlong
        exact ih hls (by omega) (by omega)

theorem fdgets_line (h : lines input = l :: ls) (hlt : l.length < size) :
    ∃ rest, lines rest = ls ∧ fdgets b size input = (printBuf b l, rest) := by
  obtain ⟨rest, hrest, hloop⟩ := fdgetsLoop_line (n := 0) (b := b) h (show 0 + l.length ≤ size by omega)
  obtain ⟨k, hk⟩ : ∃ k, l.length = k + 1 := ⟨l.length - 1, by
    have := List.length_pos_iff.2 (ne_nil_of_lines h)
    omega⟩
  refine ⟨rest, hrest, ?_⟩
  rw [Nat.zero_add] at hloop
  rw [fdgets, hloop, hk, printBuf, hk]

@[simp] theorem length_fdgetsLoop (size n : ℕ) (b : Buffer) (input : List UInt8) :
    (fdgetsLoop size n b input).2.1.bytes.length = b.bytes.length := by
  induction input generalizing n b with
  | nil => rfl
  | cons c input ih =>
    rw [fdgetsLoop]
    split_ifs
    · rfl
    · exact Buffer.length_write _ _ _
    · rw [ih, Buffer.length_write]

theorem overflow_fdgetsLoop (h : b.overflow = true) (size n : ℕ) (input : List UInt8) :
    (fdgetsLoop size n b input).2.1.overflow = true := by
  induction input generalizing n b with
  | nil => exact h
  | cons c input ih =>
    rw [fdgetsLoop]
    split_ifs
    · exact h
    · exact Buffer.overflow_write_of_true h
    · exact ih (Buffer.overflow_write_of_true h) _

theorem overflow_fdgets_long
    (h : lines input = l :: ls) (hlong : b.bytes.length ≤ l.length) (hpos : 0 < b.bytes.length) :
    (fdgets b b.bytes.length input).1.overflow = true := by
  have hread := fdgetsLoop_long (b := b) h (Nat.zero_le b.bytes.length) (by omega)
  have hlen := length_fdgetsLoop b.bytes.length 0 b input
  obtain ⟨n, hn⟩ : ∃ n, b.bytes.length = n + 1 := ⟨b.bytes.length - 1, by omega⟩
  rw [hn] at hread hlen ⊢
  unfold fdgets
  generalize fdgetsLoop (n + 1) 0 b input = r at hread hlen
  obtain ⟨_, b', rest⟩ := r
  cases hread
  rw [Buffer.overflow_write]
  simp [hlen]

theorem fdgets_closed (str : Buffer) (size : ℕ) : fdgets str size [] = (str, []) := rfl

@[simp] theorem length_fdgets (str : Buffer) (size : ℕ) (input : List UInt8) :
    (fdgets str size input).1.bytes.length = str.bytes.length := by
  have hlen := length_fdgetsLoop size 0 str input
  unfold fdgets
  split <;> simp_all

theorem overflow_fdgets {str : Buffer} (h : str.overflow = true) (size : ℕ) (input : List UInt8) :
    (fdgets str size input).1.overflow = true := by
  have hloop := overflow_fdgetsLoop h size 0 input
  unfold fdgets
  split
  · simp_all
  · rename_i heq
    rw [heq] at hloop
    exact Buffer.overflow_write_of_true hloop

/-! ## What a command keeps -/

/-- The loop goes on, and the line buffer holds a string. -/
structure Live (s : State) : Prop where
  ret : s.ret = none
  length : s.str.bytes.length = 2048
  nul : ∃ i, s.str.NulAt i

theorem Live.length_str {s : State} (h : Live s) : s.str.str.length < 2048 := by
  obtain ⟨i, hi⟩ := h.nul
  have hle := Buffer.length_str_le hi
  have hlt := hi.lt
  have hlen := h.length
  omega

/-- What a command that reads nothing keeps: what is not read yet, what was written behind the line buffer, and, as
long as the line buffer holds a string, that nothing is written behind it. -/
structure Kept (s s' : State) : Prop where
  input : s'.input = s.input
  ret : s'.ret = s.ret
  sticky : s.str.overflow = true → s'.str.overflow = true
  sound : Live s → s'.str.overflow = s.str.overflow ∧ Live s'

theorem Kept.refl (s : State) : Kept s s := ⟨rfl, rfl, id, fun h => ⟨rfl, h⟩⟩

theorem Kept.trans (h : Kept s s') (h' : Kept s' s'') : Kept s s'' where
  input := h'.input.trans h.input
  ret := h'.ret.trans h.ret
  sticky hs := h'.sticky (h.sticky hs)
  sound hs := by
    obtain ⟨hoverflow, hlive⟩ := h.sound hs
    obtain ⟨hoverflow', hlive'⟩ := h'.sound hlive
    exact ⟨hoverflow'.trans hoverflow, hlive'⟩

theorem Kept.of_eq (h : Kept s s') (hinput : s''.input = s'.input) (hret : s''.ret = s'.ret) (hstr : s''.str = s'.str) :
    Kept s s'' where
  input := hinput.trans h.input
  ret := hret.trans h.ret
  sticky := by
    rw [hstr]
    exact h.sticky
  sound hs := by
    obtain ⟨hoverflow, hlive⟩ := h.sound hs
    exact ⟨by rw [hstr, hoverflow], hret.trans hlive.ret, by rw [hstr, hlive.length], by rw [hstr]; exact hlive.nul⟩

theorem Kept.ins (h : Kept s s') (c : Cmd) : Kept s (s'.ins c) := h.of_eq rfl rfl rfl

theorem Kept.ask (h : Kept s s') (c : Cmd) : Kept s (s'.ask c) := h.of_eq rfl rfl rfl

theorem Kept.respond (h : Kept s s') (status : ℤ) : Kept s (s'.respond status) := h.of_eq rfl rfl rfl

theorem Kept.nntpSend (h : Kept s s') : Kept s s'.nntpSend := h.of_eq rfl rfl rfl

theorem Kept.close (h : Kept s s') : Kept s { s' with fd := 0 } := h.of_eq rfl rfl rfl

theorem Kept.print (h : Kept s s') (text : List UInt8) : Kept s (s'.print text) := h.of_eq rfl rfl rfl

theorem Kept.printEnd (h : Kept s s') (text : List UInt8) : Kept s (s'.printEnd text) := h.of_eq rfl rfl rfl

theorem Kept.sprintf (h : Kept s s') {t : List UInt8} (hlt : t.length < 2048) : Kept s (s'.sprintf t) where
  input := h.input
  ret := h.ret
  sticky hs := Buffer.overflow_write_of_true (Buffer.overflow_writes_of_true (h.sticky hs))
  sound hs := by
    obtain ⟨hoverflow, hret, hlen, -⟩ := h.sound hs
    have hfits : t.length < s'.str.bytes.length := by omega
    exact ⟨(overflow_printBuf hfits).trans hoverflow, hret, (length_printBuf _ _).trans hlen,
      _, Http.nulAt_printBuf hfits⟩

theorem Kept.write (h : Kept s s') (hlt : Live s → i < 2048) : Kept s { s' with str := s'.str.write i 0 } where
  input := h.input
  ret := h.ret
  sticky hs := Buffer.overflow_write_of_true (h.sticky hs)
  sound hs := by
    obtain ⟨hoverflow, hret, hlen, j, hj⟩ := h.sound hs
    have hi := hlt hs
    refine ⟨?_, hret, (Buffer.length_write _ _ _).trans hlen, j, hj.write_zero i⟩
    rw [Buffer.overflow_write, hoverflow, decide_eq_false (by omega), Bool.or_false]

theorem Kept.snprintf (h : Kept s s') (hle : size ≤ 2048) (hpos : 0 < size) (text : List UInt8) :
    Kept s (s'.snprintf size text) := by
  have htake := List.length_take_le (size - 1) text
  exact (h.sprintf (t := text.take (size - 1)) (by omega)).write (i := size - 1) fun _ => by omega

theorem le_of_mem_tokensAt {delim s : List UInt8} {t : ℕ × List UInt8} (h : t ∈ tokensAt delim i s) :
    t.1 + t.2.length ≤ i + s.length := by
  induction s generalizing i t with
  | nil => cases h
  | cons c s ih =>
    rw [tokensAt] at h
    rw [List.length_cons]
    split_ifs at h
    · have := ih h
      omega
    · split at h
      · simp only [List.mem_singleton] at h
        subst h
        simp
      · rename_i j u ts hts
        have hmem (v : ℕ × List UInt8) (hv : v ∈ (j, u) :: ts) : v.1 + v.2.length ≤ i + 1 + s.length :=
          ih (by rwa [hts])
        split_ifs at h with hj
        · rcases List.mem_cons.1 h with rfl | h
          · have := hmem (j, u) (by simp)
            simp only [List.length_cons] at this ⊢
            omega
          · have := hmem t (by simp [h])
            omega
        · rcases List.mem_cons.1 h with rfl | h
          · simp
          · have := hmem t h
            omega

theorem Kept.cutTokens (h : Kept s s') {ts : List (ℕ × List UInt8)} (hle : Live s → ∀ t ∈ ts, t.1 + t.2.length < 2048) :
    Kept s { s' with str := Nntp.cutTokens s'.str ts } := by
  unfold Nntp.cutTokens
  induction ts generalizing s' with
  | nil => exact h
  | cons t ts ih => exact ih (h.write fun hs => hle hs t (by simp)) fun hs t' ht' => hle hs t' (by simp [ht'])

theorem Kept.listLine : Kept s (listLine S s) := by
  have hcut : Kept s (if 0x20 ∈ s.str.str then
      { s with str := s.str.write (s.str.str.takeWhile (· ≠ 0x20)).length 0 } else s) := by
    split_ifs
    · refine (Kept.refl s).write fun hs => ?_
      have hle := (List.takeWhile_prefix (· ≠ 0x20) (l := s.str.str)).length_le
      have hlen := hs.length_str
      omega
    · exact Kept.refl s
  unfold Nntp.listLine
  simp only
  split_ifs at hcut ⊢ <;> exact hcut.printEnd _

theorem Kept.xoverLine : Kept s (xoverLine S s) := by
  have hfields (hs : Live s) (t : ℕ × List UInt8) (ht : t ∈ tokensAt (bytes "\t\r\n") 0 s.str.str) :
      t.1 + t.2.length < 2048 := by
    have hle := le_of_mem_tokensAt ht
    have hlen := hs.length_str
    omega
  unfold Nntp.xoverLine
  simp only
  generalize tokensAt (bytes "\t\r\n") 0 s.str.str = fields at hfields
  split_ifs
  · have hcut : Kept s { s with str := Nntp.cutTokens s.str (fields.take 1) } :=
      (Kept.refl s).cutTokens fun hs t ht => hfields hs t (List.mem_of_mem_take ht)
    split
    · exact hcut.of_eq rfl rfl rfl
    · exact hcut.printEnd _
  · have hcut : Kept s { s with str := Nntp.cutTokens s.str fields } := (Kept.refl s).cutTokens hfields
    split
    · exact hcut
    · rename_i i field hfield
      generalize hskip : (if field.head? = some 0x3C then 1 else 0) = skip
      have hgt : Kept s (if 0x3E ∈ field.drop skip then
          { s with
            str := (Nntp.cutTokens s.str fields).write
              (i + skip + ((field.drop skip).takeWhile (· ≠ 0x3E)).length) 0 }
          else { s with str := Nntp.cutTokens s.str fields }) := by
        split_ifs with hmem
        · refine hcut.write fun hs => ?_
          have hend := hfields hs (i, field) (List.mem_of_getElem? hfield)
          have hle := (List.takeWhile_prefix (· ≠ 0x3E) (l := field.drop skip)).length_le
          have hpos := List.length_pos_of_mem hmem
          rw [List.length_drop] at hle hpos
          simp only at hend
          omega
        · exact hcut
      split_ifs at hgt ⊢
      all_goals first
        | exact hgt.printEnd _
        | exact hgt

theorem Kept.articleLine : Kept s (articleLine s) := by
  unfold Nntp.articleLine
  simp only
  split_ifs <;> exact (Kept.refl s).of_eq rfl rfl rfl

@[simp] theorem length_bytes (s : String) : (bytes s).length = s.length := by
  simp [bytes, String.length_toList]

theorem length_decText_le (x : Int32) : (decText x.toInt).length ≤ 11 := by
  have hlo := x.le_toInt
  have hhi := x.toInt_lt
  cases hx : x.toInt with
  | ofNat n =>
    rw [hx] at hhi
    have hn : n < 10 ^ (9 + 1) := by
      have : n < 2 ^ 31 := Int.ofNat_lt.1 hhi
      omega
    have : (natDigits (n + 1) n).length ≤ 9 + 1 := length_natDigits_le hn
    rw [decText]
    omega
  | negSucc n =>
    rw [hx] at hlo
    have hn : n + 1 < 10 ^ (9 + 1) := by omega
    have : (natDigits (n + 2) (n + 1)).length ≤ 9 + 1 := length_natDigits_le hn
    rw [decText, List.length_cons]
    omega

/-- **A command that reads nothing** keeps what is not read, and the line buffer. -/
theorem Kept.exec (hrecv : c ≠ .recv) (hcmd : c ≠ .recvcmd) (hconnect : c ≠ .connect) : Kept s (exec S s c) := by
  have hrefl := Kept.refl s
  have huser := S.user.2
  have hpass := S.pass.2
  have hgrp := S.grp.2
  cases c <;> simp only [Nntp.exec]
  case recv => exact absurd rfl hrecv
  case recvcmd => exact absurd rfl hcmd
  case connect => exact absurd rfl hconnect
  case send | brk => exact hrefl.of_eq rfl rfl rfl
  case reader | list => exact (hrefl.ask _).sprintf (by simp; decide)
  case group =>
    have htext : "group ".length + "\r\n".length = 8 := rfl
    exact (hrefl.ask _).sprintf (by simp; omega)
  case xover =>
    have hfrom := length_decText_le s.fromArticle
    have hto := length_decText_le s.toArticle
    have htext : "xover ".length + "-".length + "\r\n".length = 9 := rfl
    exact (hrefl.ask _).sprintf (by simp; omega)
  case user | pass =>
    split_ifs
    · exact (hrefl.respond _).ins _
    · have huserText : "authinfo user ".length + "\r\n".length = 16 := rfl
      have hpassText : "authinfo pass ".length + "\r\n".length = 16 := rfl
      exact (hrefl.ask _).sprintf (by simp; omega)
  case stat | article => split_ifs <;> exact (hrefl.ask _).snprintf (by decide) (by decide) _
  case hello =>
    split_ifs
    · exact (hrefl.respond _).ins _
    · exact hrefl
  case userres =>
    split_ifs
    · exact hrefl.ins _
    · exact (hrefl.respond _).ins _
  case passres =>
    by_cases hok : s.status ≠ 200 ∧ s.status ≠ 281
    · rw [if_pos hok]
      exact (hrefl.respond _).ins _
    · rw [if_neg hok]
      exact hrefl
  case listres | articleres =>
    split_ifs
    all_goals first
      | exact (hrefl.ins _).ins _
      | exact (hrefl.respond _).ins _
      | exact hrefl.of_eq rfl rfl rfl
  case xoverres => split_ifs <;> exact hrefl.of_eq rfl rfl rfl
  case groupres =>
    split_ifs
    · exact (hrefl.ins _).ins _
    · exact hrefl.of_eq rfl rfl rfl
    · exact (hrefl.respond _).ins _
  case statres =>
    split_ifs
    · exact (((hrefl.ins _).ins _).respond _).ins _
    · exact (hrefl.respond _).ins _
    · exact (hrefl.respond _).ins _
    · exact (hrefl.respond _).ins _
  case listdat =>
    split_ifs
    · exact hrefl.print _
    · exact (Kept.listLine.ins _).ins _
  case xoverdat =>
    split_ifs
    · exact hrefl.print _
    · exact (Kept.xoverLine.ins _).ins _
  case articledat =>
    split_ifs
    · exact hrefl
    · exact (Kept.articleLine.ins _).ins _
  case quit =>
    split_ifs
    · have hquit : Kept s (s.sprintf (bytes "quit\r\n")) := hrefl.sprintf (by simp; decide)
      exact hquit.nntpSend.close.ins _
    · exact hrefl.ins _

theorem overflow_exec (c : Cmd) (h : s.str.overflow = true) : (exec S s c).str.overflow = true := by
  by_cases hread : c = .recv ∨ c = .recvcmd
  · rcases hread with rfl | rfl <;> exact overflow_fdgets h 2048 s.input
  · obtain ⟨hrecv, hcmd⟩ := not_or.1 hread
    by_cases hconnect : c = .connect
    · subst hconnect
      simp only [exec]
      split_ifs <;> exact h
    · exact (Kept.exec hrecv hcmd hconnect).sticky h

theorem overflow_reaches (hr : Reaches (step S) s s') (h : s.str.overflow = true) : s'.str.overflow = true := by
  induction hr with
  | refl => exact h
  | tail _ hstep ih =>
    obtain ⟨c, cmd, -, -, rfl⟩ := step_eq_some.1 hstep
    exact overflow_exec c ih

/-! ## Runs -/

/-- The loop ends, and nothing was written behind the line buffer. -/
def Fine (S : Session) (s : State) : Prop :=
  ∃ s', Reaches (step S) s s' ∧ step S s' = none ∧ s'.str.overflow = false

theorem fine_iff_of_reaches (hr : Reaches (step S) s s') : Fine S s ↔ Fine S s' := by
  constructor
  · rintro ⟨t, ht, hend, hfine⟩
    rcases reaches_total hr ht with h | h
    · exact ⟨t, h, hend, hfine⟩
    · -- the run has ended at `t` already
      have heq : s' = t := by
        cases Relation.ReflTransGen.cases_head h with
        | inl heq => exact heq.symm
        | inr hstep =>
          obtain ⟨u, hu, -⟩ := hstep
          rw [hend] at hu
          cases hu
      subst heq
      exact ⟨s', .refl, hend, hfine⟩
  · rintro ⟨t, ht, hend, hfine⟩
    exact ⟨t, hr.trans ht, hend, hfine⟩

theorem Fine.overflow (h : Fine S s) (hr : Reaches (step S) s s') : s'.str.overflow = false := by
  obtain ⟨t, ht, -, hfine⟩ := (fine_iff_of_reaches hr).1 h
  by_contra hne
  rw [overflow_reaches ht (by simpa using hne)] at hfine
  cases hfine

/-! ## The client follows the protocol -/

/-- The command that looks at the answer to a task. -/
def Task.res : Task → Cmd
  | .list => .listres
  | .group => .groupres
  | .xover => .xoverres
  | .stat => .statres
  | .article => .articleres

/-- The commands that look at an answer. -/
def Wait.cmds : Wait → List Cmd
  | .greeting => [.hello, .reader]
  | .reader => [.hello]
  | .user => [.userres]
  | .pass => [.passres]
  | .reply t => [t.res]

/-- The commands for some tasks. -/
def pending (todo : List Task) : List Cmd := todo.map Task.cmd ++ [.quit]

/-- How many tasks may be left. -/
def Wait.spare : Wait → ℕ
  | .reply _ => 1
  | _ => 2

/-- A state of the code in a phase of the protocol. What is in the line buffer is no status, unless the server has
sent it. -/
inductive At : Phase → State → Prop
  | ask {w : Wait} {todo : List Task} {s : State} (hcmd : s.cmd = .recvcmd :: (w.cmds ++ pending todo))
      (hlen : todo.length ≤ w.spare) (hzero : atoiInt s.str.str = 0) : At (.ask w todo) s
  | data {c : Cmd} {todo : List Task} {s : State} (hcmd : s.cmd = .recv :: c :: pending todo)
      (hdat : c = .listdat ∨ c = .xoverdat ∨ c = .articledat) (hlen : todo.length ≤ 1) (hdot : s.isDot = false) :
      At (.data todo) s
  | done {cmd : List Cmd} {s : State} (hcmd : s.cmd = .quit :: cmd) (hle : cmd.length ≤ 90) : At .done s

@[simp] theorem length_pending (todo : List Task) : (pending todo).length = todo.length + 1 := by simp [pending]

theorem atoiInt_cons {c : UInt8} (s : List UInt8) (hc : c = 0x2E ∨ 0x61 ≤ c) : atoiInt (c :: s) = 0 := by
  have hblank : (c == 0x20 || (0x09 ≤ c && c ≤ 0x0D)) = false := by
    rcases hc with rfl | hc
    · decide
    · simp only [UInt8.le_iff_toNat_le, Bool.or_eq_false_iff, beq_eq_false_iff_ne, Bool.and_eq_false_iff,
        decide_eq_false_iff_not] at hc ⊢
      refine ⟨?_, .inr (by simp at hc ⊢; omega)⟩
      rintro rfl
      simp at hc
  have hdigit : isdigit c = false := by
    rcases hc with rfl | hc
    · decide
    · simp only [isdigit, UInt8.le_iff_toNat_le, Bool.and_eq_false_iff, decide_eq_false_iff_not] at hc ⊢
      right
      simp at hc ⊢
      omega
  have hminus : c ≠ 0x2D := by rintro rfl; revert hc; decide
  have hplus : c ≠ 0x2B := by rintro rfl; revert hc; decide
  have hnumber : numberAt (c :: s) = 0 := by
    unfold numberAt
    rw [List.dropWhile_cons, if_neg (by simp [hblank])]
    split
    · simp_all
    · simp_all
    · simp [digitsValue, hdigit]
  rw [atoiInt, hnumber]
  decide

theorem atoiInt_str {c : UInt8} (h : b.bytes.head? = some c) (hc : c = 0x2E ∨ 0x61 ≤ c) : atoiInt b.str = 0 := by
  obtain ⟨s, hs⟩ : ∃ s, b.bytes = c :: s := List.head?_eq_some_iff.1 h
  have hne : c ≠ 0 := by rintro rfl; revert hc; decide
  rw [Buffer.str, hs, List.takeWhile_cons, if_pos (by simpa using hne)]
  exact atoiInt_cons _ hc

variable {t : Task} {todo : List Task}

theorem head?_printBuf {c : UInt8} (h : text.head? = some c)
    (hlt : text.length < b.bytes.length) : (printBuf b text).bytes.head? = some c := by
  rw [Http.bytes_printBuf hlt, List.head?_append, h]
  rfl

theorem head?_snprintBuf {c : UInt8} (h : text.head? = some c)
    (hpos : 1 < size) (hle : size ≤ b.bytes.length) : (snprintBuf b size text).bytes.head? = some c := by
  have htake := List.length_take_le (size - 1) text
  have hhead : (text.take (size - 1)).head? = some c := by
    rw [List.head?_take, if_neg (by omega), h]
  have hprint := head?_printBuf (b := b) hhead (by omega)
  rw [snprintBuf, Buffer.bytes_write, List.head?_eq_getElem?, List.getElem?_set_ne (by omega),
    ← List.head?_eq_getElem?, hprint]

/-- A command asks something, and another one will look at the answer. -/
def Asks (S : Session) (c res : Cmd) : Prop :=
  ∀ s : State, Live s → s.cmd.length ≤ 90 →
    (exec S s c).cmd = .send :: .recvcmd :: res :: s.cmd ∧ atoiInt (exec S s c).str.str = 0

theorem cmd_ask_of_le (hle : s.cmd.length ≤ 90) (res : Cmd) : (s.ask res).cmd = .send :: .recvcmd :: res :: s.cmd := by
  have hone : inscmd s.cmd res = res :: s.cmd := inscmd_of_lt (by omega)
  have htwo : inscmd (res :: s.cmd) .recvcmd = .recvcmd :: res :: s.cmd :=
    inscmd_of_lt (by simp only [List.length_cons]; omega)
  rw [cmd_ask, hone, htwo]
  exact inscmd_of_lt (by simp only [List.length_cons]; omega)

theorem asks_sprintf (hlive : Live s) (hle : s.cmd.length ≤ 90) (res : Cmd)
    (hhead : text.head? = some a) (ha : 0x61 ≤ a) (hlt : text.length < 2048) :
    ((s.ask res).sprintf text).cmd = .send :: .recvcmd :: res :: s.cmd ∧
      atoiInt ((s.ask res).sprintf text).str.str = 0 := by
  have hlen : text.length < (s.ask res).str.bytes.length := by
    have := hlive.length
    exact this.symm ▸ hlt
  exact ⟨cmd_ask_of_le hle res, atoiInt_str (head?_printBuf hhead hlen) (.inr ha)⟩

theorem asks_snprintf (hlive : Live s) (hle : s.cmd.length ≤ 90) (res : Cmd)
    (hhead : text.head? = some a) (ha : 0x61 ≤ a) (hpos : 1 < size) (hsize : size ≤ 2048) :
    ((s.ask res).snprintf size text).cmd = .send :: .recvcmd :: res :: s.cmd ∧
      atoiInt ((s.ask res).snprintf size text).str.str = 0 := by
  have hlen : size ≤ (s.ask res).str.bytes.length := by
    have := hlive.length
    exact this.symm ▸ hsize
  exact ⟨cmd_ask_of_le hle res, atoiInt_str (head?_snprintBuf hhead hpos hlen) (.inr ha)⟩

theorem asks_reader : Asks S .reader .hello := fun _ hlive hle =>
  asks_sprintf hlive hle .hello (a := 0x6D) rfl (by decide) (by simp; decide)

theorem asks_user (h : S.user.val.isEmpty = false) : Asks S .user .userres := fun s hlive hle => by
  have huser := S.user.2
  have htext : "authinfo user ".length + "\r\n".length = 16 := rfl
  simp only [exec, h, Bool.false_eq_true, if_false]
  exact asks_sprintf hlive hle .userres (a := 0x61) rfl (by decide) (by simp; omega)

theorem asks_pass (h : S.pass.val.isEmpty = false) : Asks S .pass .passres := fun s hlive hle => by
  have hpass := S.pass.2
  have htext : "authinfo pass ".length + "\r\n".length = 16 := rfl
  simp only [exec, h, Bool.false_eq_true, if_false]
  exact asks_sprintf hlive hle .passres (a := 0x61) rfl (by decide) (by simp; omega)

theorem asks_task (t : Task) : Asks S t.cmd t.res := fun s hlive hle => by
  cases t with
  | list => exact asks_sprintf hlive hle .listres (a := 0x6C) rfl (by decide) (by simp; decide)
  | group =>
    have hgrp := S.grp.2
    have htext : "group ".length + "\r\n".length = 8 := rfl
    exact asks_sprintf hlive hle .groupres (a := 0x67) rfl (by decide) (by simp; omega)
  | xover =>
    have hfrom := length_decText_le s.fromArticle
    have hto := length_decText_le s.toArticle
    have htext : "xover ".length + "-".length + "\r\n".length = 9 := rfl
    exact asks_sprintf hlive hle .xoverres (a := 0x78) rfl (by decide) (by simp; omega)
  | stat =>
    simp only [Task.cmd, exec]
    split_ifs <;> exact asks_snprintf hlive hle .statres (a := 0x73) rfl (by decide) (by decide) (by decide)
  | article =>
    simp only [Task.cmd, exec]
    split_ifs <;> exact asks_snprintf hlive hle .articleres (a := 0x61) rfl (by decide) (by decide) (by decide)

/-- A run in which nothing is read. -/
structure Leads (S : Session) (s s' : State) : Prop where
  reaches : Reaches (step S) s s'
  kept : Kept s s'

theorem Leads.refl (s : State) : Leads S s s := ⟨.refl, .refl s⟩

theorem Leads.trans (h : Leads S s s') (h' : Leads S s' s'') : Leads S s s'' :=
  ⟨h.reaches.trans h'.reaches, h.kept.trans h'.kept⟩

theorem Leads.live (h : Leads S s s') (hlive : Live s) : Live s' := (h.kept.sound hlive).2

theorem leads_exec (hlive : Live s) (hcmd : s.cmd = c :: cmd) (hrecv : c ≠ .recv)
    (hrecvcmd : c ≠ .recvcmd) (hconnect : c ≠ .connect) : Leads S s (exec S { s with cmd := cmd } c) where
  reaches := .single (step_eq_some.2 ⟨c, cmd, hcmd, hlive.ret, rfl⟩)
  kept := by
    have hpop : Kept s { s with cmd := cmd } := (Kept.refl s).of_eq rfl rfl rfl
    exact hpop.trans (.exec hrecv hrecvcmd hconnect)

theorem leads_ask (hlive : Live s) {res : Cmd} (hasks : Asks S c res) (hcmd : s.cmd = c :: cmd)
    (hle : cmd.length ≤ 90) (hrecv : c ≠ .recv) (hrecvcmd : c ≠ .recvcmd) (hconnect : c ≠ .connect) :
    ∃ s', Leads S s s' ∧ s'.cmd = .recvcmd :: res :: cmd ∧ atoiInt s'.str.str = 0 := by
  have hexec := leads_exec (S := S) hlive hcmd hrecv hrecvcmd hconnect
  obtain ⟨hask, hzero⟩ := hasks { s with cmd := cmd } ⟨hlive.ret, hlive.length, hlive.nul⟩ hle
  have hsend := leads_exec (S := S) (hexec.live hlive) hask (by decide) (by decide) (by decide)
  exact ⟨_, hexec.trans hsend, rfl, hzero⟩

theorem leads_begin (hlive : Live s) (hcmd : s.cmd = pending todo) (hlen : todo.length ≤ 2) :
    ∃ s', Leads S s s' ∧ At (.begin todo) s' := by
  cases todo with
  | nil => exact ⟨s, .refl s, .done hcmd (by simp)⟩
  | cons t todo =>
    rw [List.length_cons] at hlen
    have hle : (todo.map Task.cmd ++ [Cmd.quit]).length ≤ 90 := by
      simp
      omega
    obtain ⟨s', hleads, hcmd', hzero⟩ := leads_ask hlive (asks_task (S := S) t) hcmd hle
      (by cases t <;> decide) (by cases t <;> decide) (by cases t <;> decide)
    exact ⟨s', hleads, .ask hcmd' (by simp only [Wait.spare]; omega) hzero⟩

theorem leads_auth (hlive : Live s) (hcmd : s.cmd = .user :: pending todo) (hlen : todo.length ≤ 2) :
    ∃ s', Leads S s s' ∧ At (.auth S todo) s' := by
  cases huser : S.user.val.isEmpty with
  | false =>
    obtain ⟨s', hleads, hcmd', hzero⟩ := leads_ask hlive (asks_user huser) hcmd
      (by simp; omega) (by decide) (by decide) (by decide)
    rw [Phase.auth, if_neg (by simp [huser])]
    exact ⟨s', hleads, .ask hcmd' hlen hzero⟩
  | true =>
    have hexec := leads_exec (S := S) hlive hcmd (by decide) (by decide) (by decide)
    rw [Phase.auth, if_pos huser]
    refine ⟨_, hexec, .done (show _ = .quit :: pending todo from ?_) (by simp; omega)⟩
    simp only [exec, huser, if_true, cmd_ins, cmd_respond]
    exact inscmd_of_lt (by simp; omega)

theorem leads_pass (hlive : Live s) (hcmd : s.cmd = .pass :: pending todo) (hlen : todo.length ≤ 2) :
    ∃ s', Leads S s s' ∧ At (if ¬ S.pass.val.isEmpty then .ask .pass todo else .done) s' := by
  cases hpass : S.pass.val.isEmpty with
  | false =>
    obtain ⟨s', hleads, hcmd', hzero⟩ := leads_ask hlive (asks_pass hpass) hcmd
      (by simp; omega) (by decide) (by decide) (by decide)
    exact ⟨s', hleads, .ask hcmd' hlen hzero⟩
  | true =>
    have hexec := leads_exec (S := S) hlive hcmd (by decide) (by decide) (by decide)
    refine ⟨_, hexec, .done (show _ = .quit :: pending todo from ?_) (by simp; omega)⟩
    simp only [exec, hpass, if_true, cmd_ins, cmd_respond]
    exact inscmd_of_lt (by simp; omega)

theorem cmd_ins_of_le (hle : s.cmd.length ≤ 90) (c : Cmd) : (s.ins c).cmd = c :: s.cmd :=
  inscmd_of_lt (by omega)

theorem at_quit (hle : s.cmd.length ≤ 90) : At .done (s.ins .quit) := .done (cmd_ins_of_le hle .quit) hle

theorem isDot_of_status (h : atoiInt s.str.str ≠ 0) : s.isDot = false := by
  by_contra hdot
  have hhead : s.str.bytes.head? = some 0x2E := by simpa [State.isDot] using hdot
  exact h (atoiInt_str hhead (.inl rfl))

theorem at_data (hcmd : s.cmd = pending todo) (hlen : todo.length ≤ 1)
    (hdot : s.isDot = false) (hdat : c = .listdat ∨ c = .xoverdat ∨ c = .articledat) :
    At (.data todo) ((s.ins c).ins .recv) := by
  have hone : (s.ins c).cmd = c :: pending todo := by
    rw [cmd_ins_of_le (by rw [hcmd]; simp; omega), hcmd]
  refine .data (c := c) ?_ hdat hlen hdot
  rw [cmd_ins_of_le (by rw [hone]; simp; omega), hone]

theorem leads_retry (hlive : Live s) (hlen : todo.length ≤ 1)
    (hexec : exec S { s with cmd := pending todo } t.res = (({ s with cmd := pending todo } : State).ins t.cmd).ins .user)
    (hleads : Leads S s (exec S { s with cmd := pending todo } t.res)) :
    ∃ s', Leads S s s' ∧ At (.auth S (t :: todo)) s' := by
  have hone : (({ s with cmd := pending todo } : State).ins t.cmd).cmd = pending (t :: todo) :=
    cmd_ins_of_le (by simp; omega) _
  have htwo : (exec S { s with cmd := pending todo } t.res).cmd = .user :: pending (t :: todo) := by
    rw [hexec, cmd_ins_of_le (by rw [hone]; simp; omega), hone]
  obtain ⟨s', hleads', hat⟩ := leads_auth (hleads.live hlive) htwo (by simp; omega)
  exact ⟨s', hleads.trans hleads', hat⟩

/-- **The answer to a task** is looked at. -/
theorem leads_reply (hlive : Live s) (hcmd : s.cmd = t.res :: pending todo)
    (hlen : todo.length ≤ 1) (hst : atoiInt s.str.str = s.status) :
    ∃ s', Leads S s s' ∧ At (.next S todo s.status (.reply t)) s' := by
  have hleads := leads_exec (S := S) hlive hcmd (by cases t <;> decide) (by cases t <;> decide)
    (by cases t <;> decide)
  have hle : (pending todo).length ≤ 90 := by
    simp
    omega
  have hretry := leads_retry (S := S) (t := t) hlive hlen
  have hdot (h : s.status ≠ 0) : s.isDot = false := isDot_of_status (by rwa [hst])
  cases t with
  | list =>
    simp only [Phase.next]
    by_cases h480 : s.status = 480
    · rw [if_pos h480]
      exact hretry (if_pos h480) hleads
    by_cases h215 : s.status = 215
    · refine ⟨_, hleads, ?_⟩
      simp only [Task.res, exec, h215, if_false, if_true, ne_eq, not_true_eq_false]
      exact at_data rfl hlen (hdot (by omega)) (.inl rfl)
    · refine ⟨_, hleads, ?_⟩
      simp only [Task.res, exec, h480, h215, if_false, if_true, ne_eq, not_false_eq_true]
      exact at_quit hle
  | group =>
    simp only [Phase.next]
    by_cases h480 : s.status = 480
    · rw [if_pos h480]
      exact hretry (if_pos h480) hleads
    by_cases h211 : s.status = 211
    · have hcmd' : (exec S { s with cmd := pending todo } .groupres).cmd = pending todo := by
        simp only [exec, h211, if_true]
        rfl
      obtain ⟨s', hleads', hat⟩ := leads_begin (hleads.live hlive) hcmd' (by omega)
      rw [if_neg h480, if_pos h211]
      exact ⟨s', hleads.trans hleads', hat⟩
    · refine ⟨_, hleads, ?_⟩
      simp only [Task.res, exec, h480, h211, if_false]
      exact at_quit hle
  | xover =>
    refine ⟨_, hleads, ?_⟩
    simp only [Phase.next]
    by_cases h224 : s.status = 224
    · simp only [Task.res, exec, h224, if_true]
      exact at_data rfl hlen (hdot (by omega)) (.inr (.inl rfl))
    · simp only [Task.res, exec, h224, if_false]
      exact at_quit hle
  | stat =>
    refine ⟨_, hleads, ?_⟩
    simp only [Phase.next, Task.res, exec]
    split_ifs
    · have hone : (({ s with cmd := pending todo } : State).ins .stat).cmd = .stat :: pending todo := cmd_ins_of_le hle _
      have htwo : ((({ s with cmd := pending todo } : State).ins .stat).ins .user).cmd =
          .user :: .stat :: pending todo := by
        rw [cmd_ins_of_le (by rw [hone]; simp; omega), hone]
      exact at_quit (by rw [cmd_respond, htwo]; simp; omega)
    · exact at_quit hle
    · exact at_quit hle
    · exact at_quit hle
  | article =>
    simp only [Phase.next]
    by_cases h480 : s.status = 480
    · rw [if_pos h480]
      exact hretry (if_pos h480) hleads
    by_cases h220 : s.status = 220
    · refine ⟨_, hleads, ?_⟩
      simp only [Task.res, exec, h220, if_true]
      exact at_data rfl hlen (hdot (by omega)) (.inr (.inr rfl))
    · refine ⟨_, hleads, ?_⟩
      simp only [Task.res, exec, h480, h220, if_false]
      exact at_quit hle

/-- **An answer** is looked at: what the client does then is what the protocol says. -/
theorem leads_answer (hlive : Live s) (hcmd : s.cmd = w.cmds ++ pending todo)
    (hlen : todo.length ≤ w.spare) (hst : atoiInt s.str.str = s.status) :
    ∃ s', Leads S s s' ∧ At (.next S todo s.status w) s' := by
  cases w with
  | greeting =>
    simp only [Wait.spare] at hlen
    have hleads := leads_exec (S := S) hlive hcmd (by decide) (by decide) (by decide)
    simp only [Phase.next]
    by_cases h200 : s.status = 200
    · have hcmd' : (exec S { s with cmd := .reader :: pending todo } .hello).cmd = .reader :: pending todo := by
        simp only [exec, h200, ne_eq, not_true_eq_false, if_false]
      obtain ⟨s', hleads', hask, hzero⟩ := leads_ask (hleads.live hlive) asks_reader hcmd'
        (by simp; omega) (by decide) (by decide) (by decide)
      rw [if_pos h200]
      exact ⟨s', hleads.trans hleads', .ask hask hlen hzero⟩
    · refine ⟨_, hleads, ?_⟩
      simp only [exec, h200, ne_eq, not_false_eq_true, if_true, if_false]
      exact at_quit (by simp; omega)
  | reader =>
    simp only [Wait.spare] at hlen
    have hleads := leads_exec (S := S) hlive hcmd (by decide) (by decide) (by decide)
    simp only [Phase.next]
    by_cases h200 : s.status = 200
    · have hcmd' : (exec S { s with cmd := pending todo } .hello).cmd = pending todo := by
        simp only [exec, h200, ne_eq, not_true_eq_false, if_false]
      obtain ⟨s', hleads', hat⟩ := leads_begin (hleads.live hlive) hcmd' hlen
      rw [if_pos h200]
      exact ⟨s', hleads.trans hleads', hat⟩
    · refine ⟨_, hleads, ?_⟩
      simp only [exec, h200, ne_eq, not_false_eq_true, if_true, if_false]
      exact at_quit (by simp; omega)
  | user =>
    simp only [Wait.spare] at hlen
    have hleads := leads_exec (S := S) hlive hcmd (by decide) (by decide) (by decide)
    simp only [Phase.next]
    by_cases h381 : s.status = 381
    · have hcmd' : (exec S { s with cmd := pending todo } .userres).cmd = .pass :: pending todo := by
        simp only [exec, h381, if_true]
        exact cmd_ins_of_le (by simp; omega) _
      obtain ⟨s', hleads', hat⟩ := leads_pass (hleads.live hlive) hcmd' hlen
      simp only [h381, true_and]
      exact ⟨s', hleads.trans hleads', hat⟩
    · refine ⟨_, hleads, ?_⟩
      simp only [exec, h381, false_and, if_false]
      exact at_quit (by simp; omega)
  | pass =>
    simp only [Wait.spare] at hlen
    have hcmd : s.cmd = .passres :: pending todo := hcmd
    have hleads := leads_exec (S := S) hlive hcmd (by decide) (by decide) (by decide)
    simp only [Phase.next]
    by_cases hok : s.status = 200 ∨ s.status = 281
    · have hexec : exec S { s with cmd := pending todo } .passres = { s with cmd := pending todo } :=
        if_neg fun h => hok.elim h.1 h.2
      obtain ⟨s', hleads', hat⟩ := leads_begin (hleads.live hlive) (by rw [hexec]) hlen
      rw [if_pos hok]
      exact ⟨s', hleads.trans hleads', hat⟩
    · refine ⟨_, hleads, ?_⟩
      rw [if_neg hok]
      simp only [exec]
      rw [if_pos (not_or.1 hok)]
      exact at_quit (by simp; omega)
  | reply t => exact leads_reply hlive hcmd hlen hst

theorem reaches_recv (hlive : Live s) (hcmd : s.cmd = .recv :: cmd) :
    Reaches (step S) s { s.nntpRecv with cmd := cmd } :=
  .single (step_eq_some.2 ⟨_, _, hcmd, hlive.ret, rfl⟩)

theorem reaches_recvcmd (hlive : Live s) (hcmd : s.cmd = .recvcmd :: cmd) :
    Reaches (step S) s { s.nntpRecv with cmd := cmd, status := atoiInt s.nntpRecv.str.str } :=
  .single (step_eq_some.2 ⟨_, _, hcmd, hlive.ret, rfl⟩)

theorem nntpRecv_line (hlive : Live s) (hl : lines s.input = l :: ls)
    (hlt : l.length < 2048) :
    s.nntpRecv.str = printBuf s.str l ∧ lines s.nntpRecv.input = ls ∧ Live s.nntpRecv ∧
      s.nntpRecv.str.overflow = s.str.overflow := by
  obtain ⟨rest, hrest, hread⟩ := fdgets_line (b := s.str) hl hlt
  have hfits : l.length < s.str.bytes.length := by
    have := hlive.length
    omega
  have hstr : s.nntpRecv.str = printBuf s.str l := by rw [State.nntpRecv, hread]
  refine ⟨hstr, by rw [State.nntpRecv, hread, hrest], ⟨hlive.ret, ?_, ?_⟩, ?_⟩
  · rw [hstr, length_printBuf, hlive.length]
  · exact ⟨_, by rw [hstr]; exact Http.nulAt_printBuf hfits⟩
  · rw [hstr, overflow_printBuf hfits]

theorem fine_of_done (hlive : Live s) (hat : At .done s) (hoverflow : s.str.overflow = false) : Fine S s := by
  cases hat with
  | @done cmd _ hcmd hle =>
  have hquit := leads_exec (S := S) hlive hcmd (by decide) (by decide) (by decide)
  have hcmd' : (exec S { s with cmd := cmd } .quit).cmd = .brk :: cmd := by
    simp only [exec]
    split_ifs <;> exact inscmd_of_lt (by simp only [cmd_nntpSend, cmd_sprintf]; omega)
  have hbrk := hquit.trans (leads_exec (hquit.live hlive) hcmd' (by decide) (by decide) (by decide))
  refine ⟨_, hbrk.reaches, rfl, ?_⟩
  rw [(hbrk.kept.sound hlive).1, hoverflow]

theorem fine_of_closed_ask (hlive : Live s) (hat : At (.ask w todo) s)
    (hinput : s.input = []) (hoverflow : s.str.overflow = false) : Fine S s := by
  obtain ⟨hcmd, hlen, hzero⟩ := hat
  have hrecv : s.nntpRecv = s := by rw [State.nntpRecv, hinput, fdgets_closed, ← hinput]
  have hread := reaches_recvcmd (S := S) hlive hcmd
  rw [hrecv, hzero] at hread
  set s1 : State := { s with cmd := w.cmds ++ pending todo, status := 0 } with hs1
  have hlive1 : Live s1 := ⟨hlive.ret, hlive.length, hlive.nul⟩
  obtain ⟨s', hleads, hat⟩ := leads_answer (S := S) hlive1 (show s1.cmd = w.cmds ++ pending todo from rfl) hlen hzero
  have hdone : Phase.next S todo 0 w = .done := by
    cases w with
    | reply t => cases t <;> rfl
    | _ => rfl
  rw [hs1, hdone] at hat
  rw [fine_iff_of_reaches (hread.trans hleads.reaches)]
  exact fine_of_done (hleads.live hlive1) hat ((hleads.kept.sound hlive1).1.trans hoverflow)

/-! ## Data without an end -/

/-- The client reads data from a server that has closed the connection. -/
structure Stuck (s : State) : Prop where
  ret : s.ret = none
  input : s.input = []
  dot : s.isDot = false
  cmd : ∃ c cmd, (s.cmd = c :: cmd ∨ s.cmd = .recv :: c :: cmd) ∧ (c = .listdat ∨ c = .xoverdat ∨ c = .articledat) ∧
    cmd.length ≤ 90

theorem isDot_write (h : s.isDot = false) (i : ℕ) : ({ s with str := s.str.write i 0 } : State).isDot = false := by
  unfold State.isDot at h ⊢
  simp only [Buffer.bytes_write] at h ⊢
  cases hb : s.str.bytes with
  | nil => simp
  | cons a b =>
    rw [hb] at h
    cases i with
    | zero => simp
    | succ i => simpa using h

theorem isDot_cutTokens (h : s.isDot = false) (ts : List (ℕ × List UInt8)) :
    ({ s with str := cutTokens s.str ts } : State).isDot = false := by
  unfold cutTokens
  induction ts generalizing s with
  | nil => exact h
  | cons t ts ih => exact ih (isDot_write h _)

theorem isDot_listLine (h : s.isDot = false) : (listLine S s).isDot = false := by
  have hcut := isDot_write h (s.str.str.takeWhile (· ≠ 0x20)).length
  unfold listLine
  simp only
  split_ifs
  · exact hcut
  · exact h
  · exact hcut
  · exact h

theorem isDot_xoverLine (h : s.isDot = false) : (xoverLine S s).isDot = false := by
  unfold xoverLine
  simp only
  generalize tokensAt (bytes "\t\r\n") 0 s.str.str = fields
  have hone := isDot_cutTokens h (fields.take 1)
  have hall := isDot_cutTokens h fields
  split_ifs
  · split
    · exact hone
    · exact hone
  · split
    · exact hall
    · rename_i i field _
      generalize (if field.head? = some 0x3C then 1 else 0) = skip
      have hgt := isDot_write hall (i + skip + ((field.drop skip).takeWhile (· ≠ 0x3E)).length)
      split_ifs
      · exact hgt
      · exact hgt
      · exact hall
      · exact hall

theorem isDot_articleLine (h : s.isDot = false) : (articleLine s).isDot = false := by
  unfold articleLine
  simp only
  split_ifs <;> exact h

theorem exec_dat (hdot : s.isDot = false) (hle : s.cmd.length ≤ 90)
    (hdat : c = .listdat ∨ c = .xoverdat ∨ c = .articledat) :
    (exec S s c).cmd = .recv :: c :: s.cmd ∧ (exec S s c).isDot = false := by
  have hcmd : inscmd (inscmd s.cmd c) .recv = .recv :: c :: s.cmd := by
    rw [inscmd_of_lt (c := c) (by omega)]
    exact inscmd_of_lt (by simp only [List.length_cons]; omega)
  rcases hdat with rfl | rfl | rfl <;> simp only [exec, hdot, Bool.false_eq_true, if_false, cmd_ins, cmd_listLine,
    cmd_xoverLine, cmd_articleLine, hcmd, true_and]
  · exact isDot_listLine (S := S) hdot
  · exact isDot_xoverLine (S := S) hdot
  · exact isDot_articleLine hdot

theorem Stuck.step (h : Stuck s) : ∃ s', step S s = some s' ∧ Stuck s' := by
  obtain ⟨hret, hinput, hdot, c, cmd, hcmd | hcmd, hdat, hle⟩ := h
  · refine ⟨_, step_eq_some.2 ⟨c, cmd, hcmd, hret, rfl⟩, ?_⟩
    obtain ⟨hcmd', hdot'⟩ := exec_dat (S := S) (s := { s with cmd := cmd }) hdot hle hdat
    have hkept : Kept { s with cmd := cmd } (exec S { s with cmd := cmd } c) := by
      rcases hdat with rfl | rfl | rfl <;> exact .exec (by decide) (by decide) (by decide)
    exact ⟨hkept.ret.trans hret, hkept.input.trans hinput, hdot', c, cmd, .inr hcmd', hdat, hle⟩
  · refine ⟨_, step_eq_some.2 ⟨.recv, c :: cmd, hcmd, hret, rfl⟩, ?_⟩
    have hrecv : ({ s with cmd := c :: cmd } : State).nntpRecv = { s with cmd := c :: cmd } := by
      rw [State.nntpRecv, hinput, fdgets_closed]
    simp only [exec]
    rw [hrecv]
    exact ⟨hret, hinput, hdot, c, cmd, .inl rfl, hdat, hle⟩

/-- **The client that reads data from a closed connection never returns.** -/
theorem Stuck.not_fine (h : Stuck s) : ¬ Fine S s := by
  rintro ⟨t, ht, hend, -⟩
  have hstuck : Stuck t := by
    clear hend
    induction ht with
    | refl => exact h
    | tail _ hstep ih =>
      obtain ⟨u, hu, hstuck⟩ := ih.step (S := S)
      rwa [Option.mem_unique hstep hu]
  obtain ⟨u, hu, -⟩ := hstuck.step (S := S)
  rw [hend] at hu
  cases hu

/-! ## The whole dialogue -/

theorem not_fine_of_long (hlive : Live s) (hl : lines s.input = l :: ls)
    (hlong : 2048 ≤ l.length) (hr : Reaches (step S) s s') (hstr : s'.str = s.nntpRecv.str) : ¬ Fine S s := by
  intro hfine
  have hover := overflow_fdgets_long (b := s.str) hl (by rw [hlive.length]; exact hlong) (by rw [hlive.length]; decide)
  have hno := hfine.overflow hr
  rw [hstr, State.nntpRecv] at hno
  rw [hlive.length] at hover
  rw [hover] at hno
  cases hno

/-- A state that the client is in after a line, with the lines that are left. -/
structure After (S : Session) (phase : Phase) (ls : List (List UInt8)) (s s' : State) : Prop where
  reaches : Reaches (step S) s s'
  at_phase : At phase s'
  live : Live s'
  lines_eq : lines s'.input = ls
  overflow : s'.str.overflow = s.str.overflow

theorem After.of_leads {phase : Phase} {s1 : State} (hread : Reaches (step S) s s1)
    (hlive : Live s1) (hlines : lines s1.input = ls) (hoverflow : s1.str.overflow = s.str.overflow)
    (hleads : Leads S s1 s') (hat : At phase s') : After S phase ls s s' where
  reaches := hread.trans hleads.reaches
  at_phase := hat
  live := hleads.live hlive
  lines_eq := by rw [hleads.kept.input, hlines]
  overflow := (hleads.kept.sound hlive).1.trans hoverflow

theorem after_ask (hlive : Live s) (hat : At (.ask w todo) s) (hl : lines s.input = l :: ls) (hlt : l.length < 2048) :
    ∃ s', After S (.next S todo (lineStatus l) w) ls s s' := by
  obtain ⟨hcmd, hlen, -⟩ := hat
  obtain ⟨hstr, hinput, hlive1, hoverflow⟩ := nntpRecv_line hlive hl hlt
  have hread := reaches_recvcmd (S := S) hlive hcmd
  have hstatus : atoiInt s.nntpRecv.str.str = lineStatus l := by
    rw [hstr, Http.str_printBuf (by rw [hlive.length]; exact hlt), lineStatus]
  rw [hstatus] at hread
  have hlive2 : Live { s.nntpRecv with cmd := w.cmds ++ pending todo, status := lineStatus l } :=
    ⟨hlive1.ret, hlive1.length, hlive1.nul⟩
  obtain ⟨s', hleads, hat'⟩ := leads_answer (S := S) hlive2 rfl hlen hstatus
  exact ⟨s', .of_leads hread hlive2 hinput hoverflow hleads hat'⟩

theorem cmd_exec_dot (hdot : s.isDot = true) (hdat : c = .listdat ∨ c = .xoverdat ∨ c = .articledat) :
    (exec S s c).cmd = s.cmd := by
  rcases hdat with rfl | rfl | rfl <;> simp only [exec, hdot, if_true, cmd_print]

theorem after_data (hlive : Live s) (hat : At (.data todo) s) (hl : lines s.input = l :: ls) (hlt : l.length < 2048) :
    ∃ s', After S (if l.head? = some 0x2E then .begin todo else .data todo) ls s s' := by
  obtain - | @⟨c, _, _, hcmd, hdat, hlen, -⟩ := hat
  obtain ⟨hstr, hinput, hlive1, hoverflow⟩ := nntpRecv_line hlive hl hlt
  have hread := reaches_recv (S := S) hlive hcmd
  have hlive2 : Live { s.nntpRecv with cmd := c :: pending todo } := ⟨hlive1.ret, hlive1.length, hlive1.nul⟩
  have hhead : s.nntpRecv.str.bytes.head? = l.head? := by
    obtain ⟨a, t, rfl⟩ := List.exists_cons_of_ne_nil (ne_nil_of_lines hl)
    rw [hstr, head?_printBuf rfl (by rw [hlive.length]; exact hlt)]
    rfl
  have hexec := leads_exec (S := S) hlive2 (show _ = c :: pending todo from rfl)
    (by rcases hdat with rfl | rfl | rfl <;> decide) (by rcases hdat with rfl | rfl | rfl <;> decide)
    (by rcases hdat with rfl | rfl | rfl <;> decide)
  by_cases hdot : l.head? = some 0x2E
  · have hcmd' := cmd_exec_dot (S := S) (s := { s.nntpRecv with cmd := pending todo })
      (by simp [State.isDot, hhead, hdot]) hdat
    obtain ⟨s', hleads, hat'⟩ := leads_begin (hexec.live hlive2) hcmd' (by omega)
    rw [if_pos hdot]
    exact ⟨s', .of_leads hread hlive2 hinput hoverflow (hexec.trans hleads) hat'⟩
  · obtain ⟨hcmd', hdot'⟩ := exec_dat (S := S) (s := { s.nntpRecv with cmd := pending todo })
      (by simp [State.isDot, hhead, hdot]) (by simp; omega) hdat
    rw [if_neg hdot]
    exact ⟨_, .of_leads hread hlive2 hinput hoverflow hexec (.data hcmd' hdat hlen hdot')⟩

/-- **The client and the protocol**: from every phase on, the loop ends well for those servers that do their part. -/
theorem fine_iff_served {p : Phase} (hat : At p s) (hlive : Live s) (hoverflow : s.str.overflow = false) :
    Fine S s ↔ Served S p (lines s.input) := by
  generalize hls : lines s.input = ls
  induction ls generalizing s p with
  | nil =>
    have hinput : s.input = [] := lines_eq_nil.1 hls
    cases p with
    | done => exact iff_of_true (fine_of_done hlive hat hoverflow) trivial
    | ask w todo => exact iff_of_true (fine_of_closed_ask hlive hat hinput hoverflow) trivial
    | data todo =>
      obtain - | @⟨c, _, _, hcmd, hdat, hlen, hdot⟩ := hat
      exact iff_of_false (Stuck.not_fine ⟨hlive.ret, hinput, hdot, c, pending todo, .inr hcmd, hdat, by simp; omega⟩) id
  | cons l ls ih =>
    cases p with
    | done => exact iff_of_true (fine_of_done hlive hat hoverflow) trivial
    | ask w todo =>
      rw [Served]
      by_cases hlt : l.length < 2048
      · obtain ⟨s', hafter⟩ := after_ask (S := S) hlive hat hls hlt
        rw [fine_iff_of_reaches hafter.reaches,
          ih hafter.at_phase hafter.live (hafter.overflow.trans hoverflow) hafter.lines_eq]
        exact (and_iff_right hlt).symm
      · obtain ⟨hcmd, -, -⟩ := hat
        exact iff_of_false (not_fine_of_long hlive hls (by omega) (reaches_recvcmd hlive hcmd) rfl) fun h => hlt h.1
    | data todo =>
      rw [Served]
      by_cases hlt : l.length < 2048
      · obtain ⟨s', hafter⟩ := after_data (S := S) hlive hat hls hlt
        rw [fine_iff_of_reaches hafter.reaches,
          ih hafter.at_phase hafter.live (hafter.overflow.trans hoverflow) hafter.lines_eq]
        exact (and_iff_right hlt).symm
      · obtain - | @⟨c, _, _, hcmd, -, -, -⟩ := hat
        exact iff_of_false (not_fine_of_long hlive hls (by omega) (reaches_recv hlive hcmd) rfl) fun h => hlt h.1

/-- `UdmNNTPGet` does what it should, for some bytes that the server sends before it closes the connection: it returns,
its stack always has room for one more command, and nothing is written behind the line buffer. -/
def Returns (S : Session) (input : List UInt8) : Prop :=
  ∀ s ∈ start S input,
    (∃ s', Reaches (step S) s s' ∧ step S s' = none) ∧
      ∀ s', Reaches (step S) s s' → s'.cmd.length + 1 < maxCmd ∧ s'.str.overflow = false

theorem returns_of_start (h : s ∈ start S input) : Returns S input ↔ Fine S s := by
  constructor
  · intro hret
    obtain ⟨⟨s', hr, hend⟩, hall⟩ := hret s h
    exact ⟨s', hr, hend, (hall s' hr).2⟩
  · intro hfine t ht
    rw [← Option.mem_unique h ht]
    obtain ⟨s', hr, hend, -⟩ := id hfine
    refine ⟨⟨s', hr, hend⟩, fun u hu => ⟨?_, hfine.overflow hu⟩⟩
    have := length_cmd_le h hu
    rw [maxCmd]
    omega

theorem live_start (h : s ∈ start S input) :
    Live s ∧ s.str.str = [] ∧ s.str.overflow = false ∧ s.input = input ∧
      s.cmd = .connect :: .reader :: pending S.tasks := by
  have hcmd := cmd_start h
  unfold start at h
  split at h
  · cases h
  · cases h
    refine ⟨⟨rfl, List.length_replicate, 0, rfl⟩, rfl, rfl, rfl, ?_⟩
    rw [hcmd, pending]
    simp

theorem fine_start_iff (h : s ∈ start S input) :
    Fine S s ↔ S.openHost < 0 ∨ Served S (.ask .greeting S.tasks) (lines input) := by
  obtain ⟨hlive, hstr, hoverflow, hinput, hcmd⟩ := live_start h
  have hstep : Reaches (step S) s (exec S { s with cmd := .reader :: pending S.tasks } .connect) :=
    .single (step_eq_some.2 ⟨_, _, hcmd, hlive.ret, rfl⟩)
  have hlen := S.length_tasks_le
  rw [fine_iff_of_reaches hstep]
  simp only [exec]
  by_cases hopen : S.openHost < 0
  · rw [if_pos hopen]
    exact iff_of_true ⟨_, .refl, rfl, hoverflow⟩ (.inl hopen)
  · rw [if_neg hopen]
    have hhello : inscmd (.reader :: pending S.tasks) .hello = .hello :: .reader :: pending S.tasks :=
      inscmd_of_lt (by simp; omega)
    have hrecvcmd : inscmd (.hello :: .reader :: pending S.tasks) .recvcmd =
        .recvcmd :: .hello :: .reader :: pending S.tasks := inscmd_of_lt (by simp; omega)
    have hzero : atoiInt s.str.str = 0 := by
      rw [hstr]
      decide
    have hserved := fine_iff_served (S := S) (p := .ask .greeting S.tasks)
      (s := (({ s with cmd := .reader :: pending S.tasks, fd := S.openHost } : State).ins .hello).ins .recvcmd)
      (.ask (by rw [cmd_ins, cmd_ins, hhello, hrecvcmd]; rfl) hlen hzero) ⟨hlive.ret, hlive.length, hlive.nul⟩ hoverflow
    rw [hserved]
    simp only [hopen, false_or, State.ins, hinput]

theorem isSome_start (S : Session) (input : List UInt8) : (start S input).isSome = !S.redirect.isSome := by
  unfold start
  cases S.redirect <;> rfl

/-- **When the client returns**: exactly if the URL is redirected, there is no connection, or the server ends every line
in time and its data with a dot. -/
theorem returns_iff (S : Session) (input : List UInt8) :
    Returns S input ↔
      S.redirect.isSome ∨ S.openHost < 0 ∨ Served S (.ask .greeting S.tasks) (lines input) := by
  have hsome := isSome_start S input
  cases hstart : start S input with
  | none =>
    rw [hstart] at hsome
    have hredirect : S.redirect.isSome = true := by simpa using hsome
    exact iff_of_true (fun s hs => by rw [hstart] at hs; cases hs) (.inl hredirect)
  | some s =>
    rw [hstart] at hsome
    have hredirect : S.redirect.isSome = false := by simpa using hsome
    rw [returns_of_start (s := s) hstart, fine_start_iff (s := s) hstart, hredirect]
    simp only [Bool.false_eq_true, false_or]

/-- A list of the groups of a server. -/
def listSession : Session :=
  .ofUrl ⟨some (bytes "nntp"), bytes "//h/", none, some (bytes "h"), bytes "/", none, 0, 119⟩ (bytes "h") 3 65536

/-- The connection is closed before the list of the groups has an end: the client never returns. -/
theorem not_returns : ¬ Returns listSession (bytes "200\n200\n215\na 1 1 y\n") := by
  obtain ⟨s, hs⟩ : ∃ s, s ∈ start listSession (bytes "200\n200\n215\na 1 1 y\n") :=
    Option.isSome_iff_exists.1 (by rw [isSome_start]; decide)
  rw [returns_of_start hs, fine_start_iff hs]
  decide

end MnoGoSearch.Nntp
