import MnoGoSearch.Message.Parser
import Mathlib

/-!
# Memory that the message parser reads

A message is a text with a byte behind it: a NUL, or for a part the first `-` of the boundary. `parseMessage_iff`
says for which messages `UdmMessageParserExec` reads only these, and keeps `p->tok` in front of them, in the message and in
all of its parts: where no name of a header runs to the end of its text, and no boundary is found that needs the
byte behind it.
-/

namespace MnoGoSearch.Message

open Url (bytes strcaseeq)

/-! ## Texts in memory -/

/-- Between `tok` and `ends` is the text `r`, and behind it `z`. -/
structure Placed (m : List UInt8) (tok ends : ℕ) (r : List UInt8) (z : UInt8) : Prop where
  drop : ∃ rest, m.drop tok = r ++ z :: rest
  ends : tok + r.length = ends

@[simp] theorem ok_bind {α β : Type} (a : α) (f : α → Scan β) : ((Except.ok a : Scan α) >>= f) = f a := rfl

@[simp] theorem error_bind {α β : Type} (e : Fault) (f : α → Scan β) :
    ((Except.error e : Scan α) >>= f) = .error e := rfl

section Placed

variable {m r : List UInt8} {tok ends : ℕ} {z : UInt8}

theorem Placed.skip (h : Placed m tok ends r z) {n : ℕ} (hn : n ≤ r.length) : Placed m (tok + n) ends (r.drop n) z := by
  obtain ⟨⟨rest, hdrop⟩, hends⟩ := h
  refine ⟨⟨rest, ?_⟩, ?_⟩
  · rw [← List.drop_drop, hdrop, List.drop_append_of_le_length hn]
  · rw [List.length_drop]
    omega

theorem Placed.next {c : UInt8} (h : Placed m tok ends (c :: r) z) : Placed m (tok + 1) ends r z :=
  h.skip (Nat.succ_le_of_lt (Nat.succ_pos _))

theorem Placed.lt {c : UInt8} (h : Placed m tok ends (c :: r) z) : tok < ends := by
  have hends := h.ends
  rw [List.length_cons] at hends
  omega

theorem Placed.eq_ends (h : Placed m tok ends [] z) : tok = ends := h.ends

theorem Placed.bytesLeft (h : Placed m tok ends r z) : bytesLeft ends tok = r.length := by
  have hends := h.ends
  rw [Message.bytesLeft, if_pos (by omega)]
  omega

theorem Placed.bytesAt (h : Placed m tok ends r z) {i n : ℕ} (hn : i + n ≤ r.length + 1) :
    bytesAt m (tok + i) n = .ok (((r ++ [z]).drop i).take n) := by
  obtain ⟨⟨rest, hdrop⟩, -⟩ := h
  have hlength := congrArg List.length hdrop
  rw [List.length_drop, List.length_append, List.length_cons] at hlength
  have hz : (r ++ [z]).length = r.length + 1 := by rw [List.length_append, List.length_singleton]
  rw [Message.bytesAt, if_pos (by omega), ← List.drop_drop, hdrop, List.append_cons,
    List.drop_append_of_le_length (by omega), List.take_append_of_le_length (by rw [List.length_drop]; omega)]

theorem Placed.byteAt (h : Placed m tok ends r z) : byteAt m tok = .ok (r.headD z) := by
  obtain ⟨⟨rest, hdrop⟩, -⟩ := h
  have hget : m[tok]? = (m.drop tok)[0]? := by rw [List.getElem?_drop, Nat.add_zero]
  rw [Message.byteAt, hget, hdrop]
  cases r with
  | nil => rfl
  | cons c r => rfl

theorem Placed.take (h : Placed m tok ends r z) {n : ℕ} (hn : n ≤ r.length) : (m.drop tok).take n = r.take n := by
  obtain ⟨⟨rest, hdrop⟩, -⟩ := h
  rw [hdrop, List.take_append_of_le_length hn]

/-! ### Line breaks -/

theorem newLineAt_eq (h : Placed m tok ends r z) : newLineAt m tok ends = .ok (udmIsNewLine r) := by
  rw [newLineAt, h.bytesLeft]
  match r, h with
  | [], _ => rfl
  | [c], h =>
    rw [if_neg (by simp), h.byteAt]
    show (if c = 0x0A then _ else _) = _
    by_cases hc : c = 0x0A
    · rw [if_pos hc, hc]
      rfl
    · rw [if_neg hc, if_pos (by simp)]
      simp [udmIsNewLine, hc]
  | c :: d :: r, h =>
    rw [if_neg (by simp), h.byteAt, h.next.byteAt]
    show (if c = 0x0A then _ else if _ then _ else if c = 0x0D then (if d = 0x0A then _ else _) else _) = _
    by_cases hc : c = 0x0A
    · rw [if_pos hc, hc]
      rfl
    · rw [if_neg hc, if_neg (by simp)]
      by_cases hcr : c = 0x0D
      · rw [if_pos hcr, hcr]
        by_cases hd : d = 0x0A
        · rw [if_pos hd, hd]
          rfl
        · rw [if_neg hd]
          simp [udmIsNewLine, hd]
      · rw [if_neg hcr]
        simp [udmIsNewLine, hc, hcr]

end Placed

/-- `UdmIsHeaderEnd`, of a text. -/
def headerEnd (r : List UInt8) : ℕ :=
  let length := udmIsNewLine r
  if length = 0 ∨ r.length ≤ length then 0 else if udmIsSpaceOrTab (r.getD length 0) then 0 else length

theorem headerEnd_le (r : List UInt8) : headerEnd r ≤ r.length := by
  have hle := udmIsNewLine_le r
  rw [headerEnd]
  split_ifs
  · exact Nat.zero_le _
  · exact Nat.zero_le _
  · exact hle

section Scans

variable {m r : List UInt8} {tok ends : ℕ} {z : UInt8}

theorem headerEndAt_eq (h : Placed m tok ends r z) : headerEndAt m tok ends = .ok (headerEnd r) := by
  have hends := h.ends
  rw [headerEndAt, newLineAt_eq h, ok_bind, headerEnd]
  by_cases hshort : udmIsNewLine r = 0 ∨ r.length ≤ udmIsNewLine r
  · rw [if_pos (by omega), if_pos hshort]
  · have hlt : udmIsNewLine r < r.length := by omega
    have hget : (r.drop (udmIsNewLine r)).headD z = r.getD (udmIsNewLine r) 0 := by
      rw [List.drop_eq_getElem_cons hlt, List.headD_cons, List.getD_eq_getElem _ _ hlt]
    rw [if_neg (by omega), if_neg hshort, (h.skip hlt.le).byteAt, ok_bind, hget]
    split <;> rfl

end Scans

/-- The first place where something of a length begins. -/
def firstWith (f : List UInt8 → ℕ) : List UInt8 → Option ℕ
  | [] => none
  | c :: r => if f (c :: r) ≠ 0 then some 0 else (firstWith f r).map (· + 1)

theorem firstWith_lt {f : List UInt8 → ℕ} {r : List UInt8} {k : ℕ} (h : firstWith f r = some k) : k < r.length := by
  induction r generalizing k with
  | nil => exact nomatch h
  | cons c r ih =>
    rw [firstWith] at h
    split_ifs at h with hf
    · rw [← Option.some.inj h]
      exact Nat.succ_pos _
    · obtain ⟨j, hj, rfl⟩ := Option.map_eq_some_iff.1 h
      exact Nat.succ_lt_succ (ih hj)

/-- A character of a name. -/
def inName (c : UInt8) : Bool := c != 0x3A && isNameByte c

/-- Where a boundary begins, in a text with `z` behind it. -/
def findBoundaryIn (z : UInt8) (boundary : List UInt8) : List UInt8 → Option ℕ
  | [] => none
  | c :: r =>
    if boundary.length < (c :: r).length then
      if (c :: r ++ [z]).take (2 + boundary.length) = 0x2D :: 0x2D :: boundary then some 0
      else (findBoundaryIn z boundary r).map (· + 1)
    else none

section Scans

variable {m r : List UInt8} {tok ends : ℕ} {z : UInt8}

theorem findNewLine_eq (h : Placed m tok ends r z) :
    findNewLine m ends tok =
      .ok ((firstWith udmIsNewLine r).map fun k => (tok + k + udmIsNewLine (r.drop k), udmIsNewLine (r.drop k))) := by
  induction r generalizing tok with
  | nil =>
    rw [findNewLine, if_neg (by rw [h.eq_ends]; exact Nat.lt_irrefl _)]
    rfl
  | cons c r ih =>
    rw [findNewLine, if_pos h.lt, newLineAt_eq h, ok_bind, firstWith]
    split_ifs with hline
    · rfl
    · rw [ih h.next, Option.map_map]
      congr 2
      funext k
      simp only [Function.comp, List.drop_succ_cons]
      rw [show tok + 1 + k = tok + (k + 1) by omega]

theorem scanName_eq (h : Placed m tok ends r z) :
    ∃ tok', scanName m ends tok = .ok (tok', (r.dropWhile inName).head?.any (· != 0x3A)) ∧ tok ≤ tok' ∧
      Placed m tok' ends (r.dropWhile inName) z := by
  induction r generalizing tok with
  | nil =>
    refine ⟨tok, ?_, le_rfl, h⟩
    rw [scanName, if_neg (by rw [h.eq_ends]; exact Nat.lt_irrefl _)]
    rfl
  | cons c r ih =>
    rw [scanName, if_pos h.lt, h.byteAt, ok_bind, List.headD_cons]
    by_cases hcolon : c = 0x3A
    · refine ⟨tok, ?_, le_rfl, ?_⟩
      · rw [if_pos hcolon, List.dropWhile_cons_of_neg (by simp [inName, hcolon])]
        simp [hcolon]
      · rw [List.dropWhile_cons_of_neg (by simp [inName, hcolon])]
        exact h
    · rw [if_neg hcolon]
      cases hname : isNameByte c with
      | false =>
        have hnot : ¬inName c = true := by simp [inName, hname]
        refine ⟨tok, ?_, le_rfl, ?_⟩
        · rw [if_pos rfl, List.dropWhile_cons_of_neg hnot]
          simp [hcolon]
        · rw [List.dropWhile_cons_of_neg hnot]
          exact h
      | true =>
        have hin : inName c = true := by simp [inName, hname, hcolon]
        obtain ⟨tok', hscan, hle, hplaced⟩ := ih h.next
        rw [if_neg (by simp), List.dropWhile_cons_of_pos hin]
        exact ⟨tok', hscan, by omega, hplaced⟩

theorem scanValue_eq (h : Placed m tok ends r z) :
    scanValue m ends tok = .ok ((firstWith headerEnd r).map fun k => (tok + k, headerEnd (r.drop k))) := by
  induction r generalizing tok with
  | nil =>
    rw [scanValue, if_neg (by rw [h.eq_ends]; exact Nat.lt_irrefl _)]
    rfl
  | cons c r ih =>
    rw [scanValue, if_pos h.lt, headerEndAt_eq h, ok_bind, firstWith]
    split_ifs with hend
    · rfl
    · rw [ih h.next, Option.map_map]
      congr 2
      funext k
      simp only [Function.comp, List.drop_succ_cons]
      rw [show tok + 1 + k = tok + (k + 1) by omega]

theorem take_boundary_iff (c z : UInt8) (r boundary : List UInt8) :
    (c :: r ++ [z]).take (2 + boundary.length) = 0x2D :: 0x2D :: boundary ↔
      c = 0x2D ∧ r.headD z = 0x2D ∧ ((c :: r ++ [z]).drop 2).take boundary.length = boundary := by
  rw [Nat.add_comm 2]
  cases r with
  | nil => simp
  | cons d r => simp

theorem findBoundary_eq (boundary : List UInt8) (h : Placed m tok ends r z) :
    findBoundary m boundary ends tok = .ok ((findBoundaryIn z boundary r).map (tok + ·)) := by
  induction r generalizing tok with
  | nil =>
    have hends := h.eq_ends
    rw [findBoundary, if_neg (by omega)]
    rfl
  | cons c r ih =>
    have hends := h.ends
    have hiff : tok + boundary.length < ends ↔ boundary.length < (c :: r).length := by omega
    have hnext : findBoundary m boundary ends (tok + 1) =
        .ok (((findBoundaryIn z boundary r).map (· + 1)).map (tok + ·)) := by
      rw [ih h.next, Option.map_map]
      congr 2
      funext k
      simp only [Function.comp]
      omega
    rw [findBoundary, findBoundaryIn]
    by_cases hlong : boundary.length < (c :: r).length
    · have hbytes := h.bytesAt (show 2 + boundary.length ≤ (c :: r).length + 1 by omega)
      rw [if_pos (hiff.2 hlong), if_pos hlong, h.byteAt, ok_bind, List.headD_cons, h.next.byteAt, ok_bind, hbytes, ok_bind,
        hnext]
      have hiff := take_boundary_iff c z r boundary
      by_cases hc : c = 0x2D
      · by_cases hd : r.headD z = 0x2D
        · rw [if_neg (not_not.2 hc), if_neg (not_not.2 hd)]
          by_cases hb : ((c :: r ++ [z]).drop 2).take boundary.length = boundary
          · rw [if_pos hb, if_pos (hiff.2 ⟨hc, hd, hb⟩)]
            rfl
          · rw [if_neg hb, if_neg fun hall => hb (hiff.1 hall).2.2]
        · rw [if_neg (not_not.2 hc), if_pos hd, if_neg fun hall => hd (hiff.1 hall).2.1]
      · rw [if_pos hc, if_neg fun hall => hc (hiff.1 hall).1]
    · rw [if_neg (mt hiff.1 hlong), if_neg hlong]
      rfl

end Scans

/-! ## Headers -/

/-- What is known of the parts: whether there are any, and the boundary. -/
abbrev Parts : Type := Bool × List UInt8

/-- `is_multipart` and `boundary`. -/
def MessageParser.parts (p : MessageParser) : Parts := (p.isMultipart, p.boundary)

/-- What a header says of the parts. -/
def contentType (h : Parts) (name value : List UInt8) : Parts :=
  if strcaseeq name (bytes "Content-Type") then
    let isMultipart := decide (11 ≤ value.length) && strcaseeq (value.take 10) (bytes "multipart/")
    (isMultipart, if isMultipart then udmMessageGetBoundary h.2 value else h.2)
  else h

theorem parts_header (p : MessageParser) (name value : List UInt8) :
    (p.header name value).parts = contentType p.parts name value := by
  rw [MessageParser.header, contentType]
  split <;> rfl

theorem ends_header (p : MessageParser) (name value : List UInt8) : (p.header name value).ends = p.ends := by
  rw [MessageParser.header]
  split <;> rfl

/-- What a text begins with where a header should be. -/
inductive HeaderView where
  | body (rest : List UInt8)
  /-- A character that is in no name, or a value without end. -/
  | stop
  | cut
  | next (h : Parts) (rest : List UInt8)

/-- A value. -/
def valueView (h : Parts) (name r : List UInt8) : HeaderView :=
  match firstWith headerEnd r with
  | none => .stop
  | some k => .next (contentType h name (trimRight (r.take k))) ((r.drop k).drop (headerEnd (r.drop k)))

/-- `UdmMessageScanHeader`, of a text. -/
def headerView (h : Parts) (r : List UInt8) : HeaderView :=
  if udmIsNewLine r ≠ 0 then .body (r.drop (udmIsNewLine r))
  else
    match r.dropWhile inName with
    | [] => .cut
    | c :: s =>
      if c ≠ 0x3A then .stop
      else if (s.drop (udmIsNewLine s)).head?.any udmIsSpaceOrTab then
        valueView h (r.takeWhile inName) (s.drop (udmIsNewLine s)).tail
      else if 0 < udmIsNewLine s then .next h (s.drop (udmIsNewLine s))
      else valueView h (r.takeWhile inName) (s.drop (udmIsNewLine s))

/-- The run has read what is there. -/
def HeaderView.Read (m : List UInt8) (z : UInt8) (h : Parts) (x : Scan (Ret × MessageParser)) : HeaderView → Prop
  | .body rest => ∃ p, x = .ok (.crlf, p) ∧ p.parts = h ∧ Placed m p.tok p.ends rest z
  | .stop => ∃ p, x = .ok (.error, p)
  | .cut => x = .error .past
  | .next h' rest => ∃ p, x = .ok (.ok, p) ∧ p.parts = h' ∧ Placed m p.tok p.ends rest z

section Headers

variable {m r : List UInt8} {z : UInt8} {p : MessageParser}

theorem advance_eq (h : Placed m p.tok p.ends r z) {n : ℕ} (hn : n ≤ r.length) :
    p.advance n = .ok { p with tok := p.tok + n } := by
  have hends := h.ends
  rw [MessageParser.advance, if_pos (by omega)]

theorem advance_past (h : Placed m p.tok p.ends r z) {n : ℕ} (hn : r.length < n) : p.advance n = .error .past := by
  have hends := h.ends
  rw [MessageParser.advance, if_neg (by omega)]

theorem scanHeaderValue_read (name : List UInt8) (h : Placed m p.tok p.ends r z) (h' : Parts) :
    (valueView p.parts name r).Read m z h' (scanHeaderValue m p name) := by
  rw [scanHeaderValue, scanValue_eq h, ok_bind, valueView]
  cases hfirst : firstWith headerEnd r with
  | none => exact ⟨_, rfl⟩
  | some k =>
    have hk := (firstWith_lt hfirst).le
    have hvalue := h.take hk
    have hends := ends_header p name (trimRight (r.take k))
    have hplaced : Placed m (p.tok + k) (p.header name (trimRight (r.take k))).ends (r.drop k) z := hends ▸ h.skip hk
    have hadvance := advance_eq (p := { p.header name (trimRight (r.take k)) with tok := p.tok + k }) hplaced
      (headerEnd_le (r.drop k))
    simp only [Option.map_some, Nat.add_sub_cancel_left]
    rw [hvalue, hadvance]
    exact ⟨_, rfl, parts_header _ _ _, hplaced.skip (headerEnd_le _)⟩

/-- **A header is read**: from where it begins, up to what follows it. -/
theorem udmMessageScanHeader_read (h : Placed m p.tok p.ends r z) (hz : udmIsSpaceOrTab z = false) :
    (headerView p.parts r).Read m z p.parts (udmMessageScanHeader m p) := by
  rw [udmMessageScanHeader, newLineAt_eq h, ok_bind, headerView]
  split_ifs with hline
  · rw [advance_eq h (udmIsNewLine_le r)]
    exact ⟨_, rfl, rfl, h.skip (udmIsNewLine_le r)⟩
  · obtain ⟨tok, hscan, hle, hname⟩ := scanName_eq h
    have htake : (m.drop p.tok).take (tok - p.tok) = r.takeWhile inName := by
      have hstart := h.ends
      have hstop := hname.ends
      have hsplit := congrArg List.length (@List.takeWhile_append_dropWhile _ inName r)
      rw [List.length_append] at hsplit
      rw [h.take (by omega), show tok - p.tok = (r.takeWhile inName).length by omega]
      exact (List.prefix_iff_eq_take.1 (List.takeWhile_prefix _)).symm
    generalize hbad : (r.dropWhile inName).head?.any (· != 0x3A) = bad at hscan
    rw [hscan, ok_bind]
    dsimp only
    rw [htake]
    cases hrest : r.dropWhile inName with
    | nil =>
      rw [hrest] at hname hbad
      rw [← hbad]
      have hpast := advance_past (p := { p with tok := tok }) hname (show 0 < 1 by decide)
      rw [List.head?_nil, Option.any_none, if_neg Bool.false_ne_true, hpast]
      rfl
    | cons c s =>
      rw [hrest] at hname hbad
      rw [List.head?_cons, Option.any_some] at hbad
      by_cases hc : c = 0x3A
      · have hcolon := advance_eq (p := { p with tok := tok }) hname (Nat.succ_le_of_lt (Nat.succ_pos s.length))
        have hbreak := advance_eq (p := { p with tok := tok + 1 }) hname.next (udmIsNewLine_le s)
        have hafter := hname.next.skip (udmIsNewLine_le s)
        have hfalse : bad = false := by rw [← hbad, hc]; rfl
        rw [hfalse, if_neg Bool.false_ne_true, hcolon, ok_bind]
        dsimp only
        rw [if_neg (not_not.2 hc), newLineAt_eq hname.next, ok_bind, hbreak, ok_bind]
        dsimp only
        rw [hafter.byteAt, ok_bind]
        cases hs : s.drop (udmIsNewLine s) with
        | nil =>
          rw [hs] at hafter
          have hnone : ¬udmIsSpaceOrTab (([] : List UInt8).headD z) = true := by
            rw [List.headD_nil, hz]
            exact Bool.false_ne_true
          rw [if_neg hnone, List.head?_nil, Option.any_none, if_neg Bool.false_ne_true]
          by_cases hempty : 0 < udmIsNewLine s
          · rw [if_pos hempty, if_pos hempty]
            exact ⟨_, rfl, rfl, hafter⟩
          · rw [if_neg hempty, if_neg hempty]
            exact scanHeaderValue_read _ hafter _
        | cons d t =>
          rw [hs] at hafter
          rw [List.headD_cons, List.head?_cons, Option.any_some, List.tail_cons]
          by_cases hd : udmIsSpaceOrTab d = true
          · rw [if_pos hd, if_pos hd, advance_eq (p := { p with tok := tok + 1 + udmIsNewLine s }) hafter
              (Nat.succ_le_of_lt (Nat.succ_pos t.length)), ok_bind]
            exact scanHeaderValue_read _ hafter.next _
          · rw [if_neg hd, if_neg hd]
            by_cases hempty : 0 < udmIsNewLine s
            · rw [if_pos hempty, if_pos hempty]
              exact ⟨_, rfl, rfl, hafter⟩
            · rw [if_neg hempty, if_neg hempty]
              exact scanHeaderValue_read _ hafter _
      · have htrue : bad = true := hbad.symm.trans (bne_iff_ne.2 hc)
        rw [htrue, if_pos rfl]
        dsimp only
        rw [if_pos hc]
        exact ⟨_, rfl⟩

end Headers

/-! ## Messages that are read safely -/

/-- What is behind a boundary at the beginning of a text, and behind the end of its line. -/
def behind (boundary s : List UInt8) : List UInt8 :=
  (s.drop (2 + boundary.length)).drop (headerEnd (s.drop (2 + boundary.length)))

/-- A boundary is the final one. -/
def isFinalIn (r : List UInt8) : Bool := r.take 2 == [0x2D, 0x2D]

mutual

/-- A message, with a byte behind it. -/
inductive Sound : UInt8 → List UInt8 → Prop where
  | short {z : UInt8} {text : List UInt8} (hshort : text.length < 5) : Sound z text
  /-- A `From ` line without end. -/
  | noLine {z : UInt8} {text : List UInt8} (hlong : 5 ≤ text.length) (hfrom : text.take 5 = bytes "From ")
      (hline : firstWith udmIsNewLine text = none) : Sound z text
  /-- Headers behind a `From ` line. -/
  | mailbox {z : UInt8} {text : List UInt8} {k : ℕ} (hlong : 5 ≤ text.length) (hfrom : text.take 5 = bytes "From ")
      (hline : firstWith udmIsNewLine text = some k)
      (hheaders : HeadersSound z (false, []) ((text.drop k).drop (udmIsNewLine (text.drop k)))) : Sound z text
  | message {z : UInt8} {text : List UInt8} (hlong : 5 ≤ text.length) (hfrom : text.take 5 ≠ bytes "From ")
      (hheaders : HeadersSound z (false, []) text) : Sound z text

/-- The headers from some place on, with what is known of the parts, and the parts. -/
inductive HeadersSound : UInt8 → Parts → List UInt8 → Prop where
  /-- The headers end with an error. -/
  | stop {z : UInt8} {parts : Parts} {r : List UInt8} (hview : headerView parts r = .stop) : HeadersSound z parts r
  /-- A header, and those that follow. -/
  | next {z : UInt8} {parts parts' : Parts} {r rest : List UInt8} (hview : headerView parts r = .next parts' rest)
      (hnext : HeadersSound z parts' rest) : HeadersSound z parts r
  | single {z : UInt8} {parts : Parts} {r rest : List UInt8} (hview : headerView parts r = .body rest)
      (hsingle : parts.1 = false) : HeadersSound z parts r
  | noBoundary {z : UInt8} {parts : Parts} {r rest : List UInt8} (hview : headerView parts r = .body rest)
      (hparts : parts.1 = true) (hnone : findBoundaryIn z parts.2 rest = none) : HeadersSound z parts r
  /-- The first boundary is in the text. -/
  | parts {z : UInt8} {parts : Parts} {r rest : List UInt8} {k : ℕ} (hview : headerView parts r = .body rest)
      (hparts : parts.1 = true) (hfound : findBoundaryIn z parts.2 rest = some k)
      (hfits : 2 + parts.2.length ≤ (rest.drop k).length)
      (hrest : parts.2 ≠ [] → PartsSound z parts.2 (behind parts.2 (rest.drop k))) : HeadersSound z parts r

/-- The parts from some place on. -/
inductive PartsSound : UInt8 → List UInt8 → List UInt8 → Prop where
  /-- There is no further boundary. -/
  | none {z : UInt8} {boundary r : List UInt8} (hnone : findBoundaryIn z boundary r = none) : PartsSound z boundary r
  /-- A part, with a boundary in the text, and those that follow. -/
  | part {z : UInt8} {boundary r : List UInt8} {k : ℕ} (hfound : findBoundaryIn z boundary r = some k)
      (hpart : Sound 0x2D (r.take k)) (hfits : 2 + boundary.length ≤ (r.drop k).length)
      (hrest : isFinalIn (behind boundary (r.drop k)) = false → PartsSound z boundary (behind boundary (r.drop k))) :
      PartsSound z boundary r

end

/-! ### What the constructors say -/

section Views

variable {z : UInt8} {parts parts' : Parts} {boundary r rest : List UInt8} {k : ℕ}

theorem headersSound_next_iff (hview : headerView parts r = .next parts' rest) :
    HeadersSound z parts r ↔ HeadersSound z parts' rest := by
  constructor
  · intro h
    cases h with
    | stop h => exact nomatch hview.symm.trans h
    | next h hnext =>
      have heq := hview.symm.trans h
      injection heq with hparts hrest
      rw [hparts, hrest]
      exact hnext
    | single h => exact nomatch hview.symm.trans h
    | noBoundary h => exact nomatch hview.symm.trans h
    | parts h => exact nomatch hview.symm.trans h
  · exact .next hview

theorem not_headersSound_cut (hview : headerView parts r = .cut) : ¬HeadersSound z parts r := by
  intro h
  cases h with
  | stop h => exact nomatch hview.symm.trans h
  | next h => exact nomatch hview.symm.trans h
  | single h => exact nomatch hview.symm.trans h
  | noBoundary h => exact nomatch hview.symm.trans h
  | parts h => exact nomatch hview.symm.trans h

theorem headersSound_parts_iff (hview : headerView parts r = .body rest) (hparts : parts.1 = true)
    (hfound : findBoundaryIn z parts.2 rest = some k) :
    HeadersSound z parts r ↔
      2 + parts.2.length ≤ (rest.drop k).length ∧
        (parts.2 ≠ [] → PartsSound z parts.2 (behind parts.2 (rest.drop k))) := by
  constructor
  · intro h
    cases h with
    | stop h => exact nomatch hview.symm.trans h
    | next h => exact nomatch hview.symm.trans h
    | single h hsingle => exact absurd (hparts.symm.trans hsingle) (by decide)
    | noBoundary h _ hnone =>
      have heq := hview.symm.trans h
      injection heq with hrest
      rw [← hrest, hfound] at hnone
      exact nomatch hnone
    | parts h _ hfound' hfits hrest =>
      have heq := hview.symm.trans h
      injection heq with heq
      subst heq
      rw [hfound] at hfound'
      rw [Option.some.inj hfound']
      exact ⟨hfits, hrest⟩
  · intro h
    exact .parts hview hparts hfound h.1 h.2

theorem partsSound_part_iff (hfound : findBoundaryIn z boundary r = some k) :
    PartsSound z boundary r ↔
      Sound 0x2D (r.take k) ∧ 2 + boundary.length ≤ (r.drop k).length ∧
        (isFinalIn (behind boundary (r.drop k)) = false → PartsSound z boundary (behind boundary (r.drop k))) := by
  constructor
  · intro h
    cases h with
    | none hnone => exact nomatch hfound.symm.trans hnone
    | part hfound' hpart hfits hrest =>
      rw [hfound] at hfound'
      rw [Option.some.inj hfound']
      exact ⟨hpart, hfits, hrest⟩
  · intro h
    exact .part hfound h.1 h.2.1 h.2.2

end Views

theorem sound_message_iff {z : UInt8} {text : List UInt8} (hlong : 5 ≤ text.length)
    (hfrom : text.take 5 ≠ bytes "From ") : Sound z text ↔ HeadersSound z (false, []) text := by
  constructor
  · intro h
    cases h with
    | short hshort => exact absurd hshort (Nat.not_lt.2 hlong)
    | noLine _ h => exact absurd h hfrom
    | mailbox _ h => exact absurd h hfrom
    | message _ _ hheaders => exact hheaders
  · exact .message hlong hfrom

theorem sound_mailbox_iff {z : UInt8} {text : List UInt8} {k : ℕ} (hlong : 5 ≤ text.length)
    (hfrom : text.take 5 = bytes "From ") (hline : firstWith udmIsNewLine text = some k) :
    Sound z text ↔ HeadersSound z (false, []) ((text.drop k).drop (udmIsNewLine (text.drop k))) := by
  constructor
  · intro h
    cases h with
    | short hshort => exact absurd hshort (Nat.not_lt.2 hlong)
    | noLine _ _ h => exact nomatch hline.symm.trans h
    | mailbox _ _ h hheaders =>
      rw [hline] at h
      rw [Option.some.inj h]
      exact hheaders
    | message _ h => exact absurd hfrom h
  · exact .mailbox hlong hfrom hline

/-! ## The runs -/

/-- The run returns where `S` holds; elsewhere `p->tok` passes the end. -/
def Decides {α : Type} (x : Scan α) (S : Prop) : Prop := (S ∧ ∃ a, x = .ok a) ∨ (¬S ∧ x = .error .past)

section Decides

variable {α β : Type} {S T : Prop}

theorem decides_ok (a : α) (h : S) : Decides (.ok a : Scan α) S := .inl ⟨h, a, rfl⟩

theorem decides_past (h : ¬S) : Decides (.error .past : Scan α) S := .inr ⟨h, rfl⟩

theorem Decides.bind {x : Scan α} (h : Decides x S) {f : α → Scan β} (hf : ∀ a, Decides (f a) T) :
    Decides (x >>= f) (S ∧ T) := by
  rcases h with ⟨hS, a, rfl⟩ | ⟨hS, rfl⟩
  · rcases hf a with ⟨hT, hb⟩ | ⟨hT, hb⟩
    · exact .inl ⟨⟨hS, hT⟩, hb⟩
    · exact .inr ⟨fun hall => hT hall.2, hb⟩
  · exact .inr ⟨fun hall => hS hall.1, rfl⟩

theorem Decides.bind_ok {x : Scan α} (h : Decides x S) {f : α → Scan β} (hf : ∀ a, ∃ b, f a = .ok b) :
    Decides (x >>= f) S := by
  rcases h with ⟨hS, a, rfl⟩ | ⟨hS, rfl⟩
  · exact .inl ⟨hS, hf a⟩
  · exact .inr ⟨hS, rfl⟩

theorem Decides.congr {x : Scan α} (h : Decides x S) (hiff : S ↔ T) : Decides x T := by
  rw [Decides, ← hiff]
  exact h

end Decides

theorem findBoundaryIn_some {z : UInt8} {boundary r : List UInt8} {k : ℕ} (h : findBoundaryIn z boundary r = some k) :
    k < r.length ∧ ∃ t, r.drop k = 0x2D :: t := by
  induction r generalizing k with
  | nil => exact nomatch h
  | cons c r ih =>
    rw [findBoundaryIn] at h
    split_ifs at h with hlong hhere
    · rw [← Option.some.inj h]
      exact ⟨Nat.succ_pos _, r, by rw [((take_boundary_iff c z r boundary).1 hhere).1]; rfl⟩
    · obtain ⟨j, hj, rfl⟩ := Option.map_eq_some_iff.1 h
      obtain ⟨hlt, t, ht⟩ := ih hj
      exact ⟨Nat.succ_lt_succ hlt, t, ht⟩

section Runs

variable {m r : List UInt8} {z : UInt8} {p : MessageParser}

theorem Placed.part {tok ends k : ℕ} (h : Placed m tok ends r z) {boundary : List UInt8}
    (hfound : findBoundaryIn z boundary r = some k) : Placed m tok (tok + k) (r.take k) 0x2D := by
  obtain ⟨⟨rest, hdrop⟩, -⟩ := h
  obtain ⟨hlt, t, ht⟩ := findBoundaryIn_some hfound
  refine ⟨⟨t ++ z :: rest, ?_⟩, ?_⟩
  · rw [hdrop, ← List.cons_append, ← ht, ← List.append_assoc, List.take_append_drop]
  · rw [List.length_take, min_eq_left hlt.le]

theorem skipBoundary_eq {k : ℕ} {s : List UInt8} (h : Placed m k p.ends s z) (hfits : 2 + p.boundary.length ≤ s.length) :
    p.skipBoundary m k =
      .ok { p with tok := k + (2 + p.boundary.length) + headerEnd (s.drop (2 + p.boundary.length)) } := by
  have hskip := h.skip hfits
  have hadvance := advance_eq (p := { p with tok := k }) h hfits
  have hend := advance_eq (p := { p with tok := k + (2 + p.boundary.length) }) hskip (headerEnd_le _)
  rw [MessageParser.skipBoundary, hadvance, ok_bind]
  dsimp only
  rw [headerEndAt_eq hskip, ok_bind]
  exact hend

theorem Placed.behind {boundary s : List UInt8} {k : ℕ} (h : Placed m k p.ends s z)
    (hfits : 2 + boundary.length ≤ s.length) :
    Placed m (k + (2 + boundary.length) + headerEnd (s.drop (2 + boundary.length))) p.ends (behind boundary s) z :=
  (h.skip hfits).skip (headerEnd_le _)

theorem skipBoundary_read {k : ℕ} {s : List UInt8} (h : Placed m k p.ends s z) :
    (2 + p.boundary.length ≤ s.length ∧ ∃ p', p.skipBoundary m k = .ok p' ∧ p'.boundary = p.boundary ∧
        Placed m p'.tok p'.ends (behind p.boundary s) z) ∨
      (¬2 + p.boundary.length ≤ s.length ∧ p.skipBoundary m k = .error .past) := by
  by_cases hfits : 2 + p.boundary.length ≤ s.length
  · exact .inl ⟨hfits, _, skipBoundary_eq h hfits, rfl, h.behind hfits⟩
  · have hpast := advance_past (p := { p with tok := k }) h (Nat.lt_of_not_le hfits)
    refine .inr ⟨hfits, ?_⟩
    rw [MessageParser.skipBoundary, hpast, error_bind]

theorem isFinal_eq (h : Placed m p.tok p.ends r z) : isFinal m p = .ok (isFinalIn r) := by
  have hends := h.ends
  match r, h with
  | [], h =>
    rw [isFinal, if_neg (by rw [List.length_nil] at hends; omega)]
    rfl
  | [c], h =>
    rw [isFinal, if_neg (by rw [List.length_singleton] at hends; omega)]
    simp [isFinalIn]
  | c :: d :: r, h =>
    rw [isFinal, if_pos (by rw [List.length_cons, List.length_cons] at hends; omega), h.byteAt, ok_bind, h.next.byteAt]
    rw [List.headD_cons, List.headD_cons, ok_bind, isFinalIn]
    by_cases hc : c = 0x2D
    · rw [if_pos hc, hc]
      simp
    · rw [if_neg hc]
      simp [hc]

end Runs

theorem length_valueView {h h' : Parts} {name r rest : List UInt8} (hview : valueView h name r = .next h' rest) :
    rest.length ≤ r.length := by
  rw [valueView] at hview
  split at hview
  · exact nomatch hview
  · injection hview with hparts hrest
    rw [← hrest, List.length_drop, List.length_drop]
    omega

theorem valueView_ne_body (h : Parts) (name r rest : List UInt8) : valueView h name r ≠ .body rest := by
  rw [valueView]
  split
  · exact nofun
  · exact nofun

theorem length_headerView_body {h : Parts} {r rest : List UInt8} (hview : headerView h r = .body rest) :
    rest.length ≤ r.length := by
  rw [headerView] at hview
  split_ifs at hview with hline
  · injection hview with hrest
    rw [← hrest, List.length_drop]
    omega
  · split at hview
    · cases hview
    · split_ifs at hview
      · exact absurd hview (valueView_ne_body _ _ _ _)
      · exact absurd hview (valueView_ne_body _ _ _ _)

theorem length_headerView_next {h h' : Parts} {r rest : List UInt8} (hview : headerView h r = .next h' rest) :
    rest.length < r.length := by
  rw [headerView] at hview
  split_ifs at hview with hline
  split at hview
  · cases hview
  · rename_i c s hname
    have hle := (List.dropWhile_suffix inName (l := r)).length_le
    rw [hname, List.length_cons] at hle
    have hdrop : (s.drop (udmIsNewLine s)).length ≤ s.length := by
      rw [List.length_drop]
      omega
    split_ifs at hview with hcolon hspace hbreak
    · have hvalue := length_valueView hview
      rw [List.length_tail] at hvalue
      omega
    · injection hview with hparts hrest
      rw [← hrest]
      omega
    · have hvalue := length_valueView hview
      omega

section Parts

variable {m : List UInt8} {exec : ℕ → ℕ → ℕ → Scan (List (ℕ × Call))} {n : ℕ}
  (hexec : ∀ level str text, text.length < n → Placed m str (str + text.length) text 0x2D →
    Decides (exec level str text.length) (Sound 0x2D text))
include hexec

/-- The loop over the parts, by induction on the parts that are left. -/
theorem scanParts_decides {fuel : ℕ} {r : List UInt8} {z : UInt8} {p : MessageParser}
    (h : Placed m p.tok p.ends r z) (hn : r.length ≤ n) (hfuel : r.length < fuel) :
    Decides (scanParts m exec fuel p) (PartsSound z p.boundary r) := by
  induction fuel generalizing r p with
  | zero => exact absurd hfuel (Nat.not_lt_zero _)
  | succ fuel ih =>
    rw [scanParts, udmMessageScanOnePart, findBoundary_eq _ h, ok_bind]
    cases hfound : findBoundaryIn z p.boundary r with
    | none => exact decides_ok _ (.none hfound)
    | some k =>
      obtain ⟨hlt, -⟩ := findBoundaryIn_some hfound
      have hpart := h.part hfound
      have hk : (r.take k).length = k := by rw [List.length_take, min_eq_left hlt.le]
      have hdecides := hexec (p.level + 1) p.tok (r.take k) (by omega) (hk.symm ▸ hpart)
      rw [hk] at hdecides
      refine Decides.congr ?_ (partsSound_part_iff hfound).symm
      simp only [Option.map_some, Nat.add_sub_cancel_left, bind_assoc]
      refine hdecides.bind fun calls => ?_
      have hplaced : Placed m (p.tok + k) p.ends (r.drop k) z := h.skip hlt.le
      rcases skipBoundary_read
          (p := { p.call (.part ((m.drop p.tok).take k)) with
            calls := (p.call (.part ((m.drop p.tok).take k))).calls ++ calls }) hplaced with
        ⟨hfits, p', hskip, hboundary, hbehind⟩ | ⟨hfits, hpast⟩
      · have hnext : Placed m p'.tok p'.ends (behind p.boundary (r.drop k)) z := hbehind
        have hsame : p'.boundary = p.boundary := hboundary
        have hlong : 2 + p.boundary.length ≤ (r.drop k).length := hfits
        have hlength : (behind p.boundary (r.drop k)).length < r.length := by
          simp only [behind, List.length_drop] at hlong ⊢
          omega
        rw [hskip, ok_bind, ok_bind]
        dsimp only
        rw [if_pos rfl, isFinal_eq hnext, ok_bind]
        cases hfinal : isFinalIn (behind p.boundary (r.drop k)) with
        | true => exact decides_ok _ ⟨hlong, fun h => nomatch h⟩
        | false =>
          rw [if_neg Bool.false_ne_true]
          refine (ih hnext (by omega) (by omega)).congr ?_
          rw [hsame]
          exact ⟨fun h => ⟨hlong, fun _ => h⟩, fun h => h.2 rfl⟩
      · rw [hpast]
        exact decides_past fun hall => hfits hall.1

theorem scanContent_decides {r rest : List UInt8} {z : UInt8} {p : MessageParser} (h : Placed m p.tok p.ends rest z)
    (hn : rest.length ≤ n) (hview : headerView p.parts r = .body rest) :
    Decides (scanContent m exec p) (HeadersSound z p.parts r) := by
  rw [scanContent]
  dsimp only
  cases hmulti : p.isMultipart with
  | false =>
    have hsingle : (p.call (.event (bytes "message_content"))).isMultipart = false := hmulti
    rw [hsingle, if_neg Bool.false_ne_true]
    exact decides_ok _ (.single hview hmulti)
  | true =>
    have hparts : (p.call (.event (bytes "message_content"))).isMultipart = true := hmulti
    have hfind := findBoundary_eq p.boundary h
    rw [hparts, if_pos rfl]
    show Decides (findBoundary m p.boundary p.ends p.tok >>= _) _
    rw [hfind, ok_bind]
    cases hfound : findBoundaryIn z p.boundary rest with
    | none => exact decides_ok _ (.noBoundary hview hmulti hfound)
    | some k =>
      obtain ⟨hlt, -⟩ := findBoundaryIn_some hfound
      refine Decides.congr ?_ (headersSound_parts_iff hview hmulti hfound).symm
      have hplaced : Placed m (p.tok + k) p.ends (rest.drop k) z := h.skip hlt.le
      rw [Option.map_some]
      dsimp only
      rcases skipBoundary_read
          (p := ((p.call (.event (bytes "message_content"))).call (.content [])).call (.event (bytes "message_parts")))
          hplaced with
        ⟨hfits, p', hskip, hboundary, hbehind⟩ | ⟨hfits, hpast⟩
      · have hnext : Placed m p'.tok p'.ends (behind p.boundary (rest.drop k)) z := hbehind
        have hsame : p'.boundary = p.boundary := hboundary
        have hlong : 2 + p.boundary.length ≤ (rest.drop k).length := hfits
        have hlength : (behind p.boundary (rest.drop k)).length ≤ n := by
          simp only [behind, List.length_drop] at hlong ⊢
          omega
        rw [hskip, ok_bind]
        refine Decides.bind_ok ?_ fun a => ⟨_, rfl⟩
        rw [udmMessageScanParts, hsame]
        by_cases hempty : p.boundary = []
        · rw [if_pos hempty]
          exact decides_ok _ ⟨hlong, fun hne => absurd hempty hne⟩
        · rw [if_neg hempty]
          have hends := hnext.ends
          refine (scanParts_decides hexec hnext hlength (by omega)).congr ?_
          rw [hsame]
          exact ⟨fun h => ⟨hlong, fun _ => h⟩, fun h => h.2 hempty⟩
      · rw [hpast]
        exact decides_past fun hall => hfits hall.1

/-- The loop over the headers, by induction on the headers that are left. -/
theorem scanHeaders_decides {fuel : ℕ} {r : List UInt8} {z : UInt8} {p : MessageParser}
    (hz : udmIsSpaceOrTab z = false) (h : Placed m p.tok p.ends r z) (hn : r.length ≤ n) (hfuel : r.length < fuel) :
    Decides
      (scanHeaders m fuel p >>= fun x =>
        match x with
        | (rc, p) => if rc = .crlf then scanContent m exec p else .ok (false, p.leave))
      (HeadersSound z p.parts r) := by
  induction fuel generalizing r p with
  | zero => exact absurd hfuel (Nat.not_lt_zero _)
  | succ fuel ih =>
    have hread := udmMessageScanHeader_read h hz
    rw [scanHeaders, bind_assoc]
    cases hview : headerView p.parts r with
    | body rest =>
      rw [hview] at hread
      obtain ⟨p', hscan, hparts, hplaced⟩ := hread
      have hle := length_headerView_body hview
      rw [hscan, ok_bind]
      refine (scanContent_decides hexec hplaced (by omega) (hparts.symm ▸ hview)).congr ?_
      rw [hparts]
    | stop =>
      rw [hview] at hread
      obtain ⟨p', hscan⟩ := hread
      rw [hscan, ok_bind]
      exact decides_ok _ (.stop hview)
    | cut =>
      rw [hview] at hread
      rw [show udmMessageScanHeader m p = .error .past from hread, error_bind]
      exact decides_past (not_headersSound_cut hview)
    | next parts' rest =>
      rw [hview] at hread
      obtain ⟨p', hscan, hparts, hplaced⟩ := hread
      have hlt := length_headerView_next hview
      rw [hscan, ok_bind]
      refine (ih hplaced (by omega) (by omega)).congr ?_
      rw [hparts]
      exact (headersSound_next_iff hview).symm

end Parts

theorem scanFrom_eq {m text : List UInt8} {z : UInt8} {p : MessageParser} (h : Placed m p.tok p.ends text z)
    (hlong : 5 ≤ text.length) :
    (text.take 5 ≠ bytes "From " ∧ scanFrom m p = .ok (some p)) ∨
      (text.take 5 = bytes "From " ∧
        ((firstWith udmIsNewLine text = none ∧ scanFrom m p = .ok none) ∨
          ∃ k p', firstWith udmIsNewLine text = some k ∧ scanFrom m p = .ok (some p') ∧ p'.parts = p.parts ∧
            Placed m p'.tok p'.ends ((text.drop k).drop (udmIsNewLine (text.drop k))) z)) := by
  have hbytes := h.bytesAt (show 0 + 5 ≤ text.length + 1 by omega)
  rw [List.drop_zero, List.take_append_of_le_length hlong, Nat.add_zero] at hbytes
  rw [scanFrom, hbytes, ok_bind]
  by_cases hfrom : text.take 5 = bytes "From "
  · refine .inr ⟨hfrom, ?_⟩
    rw [if_pos hfrom, findNewLine_eq h, ok_bind]
    cases hline : firstWith udmIsNewLine text with
    | none => exact .inl ⟨rfl, rfl⟩
    | some k =>
      have hskip := h.skip (firstWith_lt hline).le
      exact .inr ⟨k, _, rfl, rfl, rfl, hskip.skip (udmIsNewLine_le _)⟩
  · exact .inl ⟨hfrom, if_neg hfrom⟩

/-- The whole, by induction on the levels of parts. -/
theorem udmMessageParserExec_decides {m : List UInt8} {fuel level str : ℕ} {text : List UInt8} {z : UInt8}
    (hz : udmIsSpaceOrTab z = false) (h : Placed m str (str + text.length) text z) (hfuel : text.length < fuel) :
    Decides (udmMessageParserExec m fuel level str text.length) (Sound z text) := by
  induction fuel generalizing level str text z with
  | zero => exact absurd hfuel (Nat.not_lt_zero _)
  | succ fuel ih =>
    have hexec : ∀ level str (part : List UInt8), part.length < text.length →
        Placed m str (str + part.length) part 0x2D →
        Decides ((fun r : Bool × MessageParser => r.2.calls) <$> udmMessageParserExec m fuel level str part.length)
          (Sound 0x2D part) := by
      intro level str part hlt hplaced
      rcases @ih level str part 0x2D rfl hplaced (by omega) with ⟨hsound, r, hr⟩ | ⟨hsound, hr⟩
      · rw [hr]
        exact decides_ok _ hsound
      · rw [hr]
        exact decides_past hsound
    rw [udmMessageParserExec]
    dsimp only
    by_cases hshort : text.length < 5
    · rw [if_pos hshort]
      exact decides_ok _ (.short hshort)
    · have hlong : 5 ≤ text.length := Nat.not_lt.1 hshort
      rw [if_neg hshort]
      rcases scanFrom_eq (p := (MessageParser.mk str (str + text.length) [] false [] level []).call
          (.event (bytes "message_enter"))) h hlong with
        ⟨hfrom, hscan⟩ | ⟨hfrom, ⟨hline, hscan⟩ | ⟨k, p', hline, hscan, hparts, hplaced⟩⟩
      · rw [hscan, ok_bind]
        exact (scanHeaders_decides hexec hz h le_rfl (Nat.lt_succ_self _)).congr (sound_message_iff hlong hfrom).symm
      · rw [hscan, ok_bind]
        exact decides_ok _ (.noLine hlong hfrom hline)
      · have hle : ((text.drop k).drop (udmIsNewLine (text.drop k))).length ≤ text.length := by
          rw [List.length_drop, List.length_drop]
          omega
        rw [hscan, ok_bind]
        refine (scanHeaders_decides hexec hz hplaced hle (by omega)).congr ?_
        rw [hparts]
        exact (sound_mailbox_iff hlong hfrom hline).symm

theorem parseMessage_decides (s : List UInt8) : Decides (parseMessage s) (Sound 0 s) := by
  refine udmMessageParserExec_decides rfl ?_ (Nat.lt_succ_self _)
  exact ⟨⟨[], rfl⟩, rfl⟩

/-- **A message is read safely**, and to its end, if and only if it is sound with its NUL. -/
theorem parseMessage_iff (s : List UInt8) : (∃ r, parseMessage s = .ok r) ↔ Sound 0 s := by
  rcases parseMessage_decides s with ⟨hsound, hok⟩ | ⟨hsound, hpast⟩
  · exact ⟨fun _ => hsound, fun _ => hok⟩
  · refine ⟨fun ⟨r, hr⟩ => ?_, fun h => absurd h hsound⟩
    rw [hpast] at hr
    exact nomatch hr

/-- Six letters, without a colon. -/
theorem not_parseMessage : ¬∀ s : List UInt8, 5 ≤ s.length → ∃ r, parseMessage s = .ok r := by
  intro h
  have hcut : headerView (false, []) [0x61, 0x62, 0x63, 0x64, 0x65, 0x66] = .cut := rfl
  have hfrom : [0x61, 0x62, 0x63, 0x64, 0x65, 0x66].take 5 ≠ bytes "From " := by decide
  obtain ⟨r, hr⟩ := h [0x61, 0x62, 0x63, 0x64, 0x65, 0x66] (by decide)
  rcases parseMessage_decides [0x61, 0x62, 0x63, 0x64, 0x65, 0x66] with ⟨hsound, -⟩ | ⟨-, hpast⟩
  · exact not_headersSound_cut hcut ((sound_message_iff (by decide) hfrom).1 hsound)
  · rw [hpast] at hr
    exact nomatch hr

end MnoGoSearch.Message
