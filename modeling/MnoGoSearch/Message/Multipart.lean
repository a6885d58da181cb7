import MnoGoSearch.Message.ParserSafe
import Mathlib.Data.List.Infix

/-!
# Multipart messages

`FindBoundary` (`message.c`) looks for the boundary anywhere in the text, in the middle of a line too, and
`UdmIsHeaderEnd` leaves the line break behind a boundary where a space or a tab follows. The loop over the parts
looks for `--` only when it is on the next line. `splitsUp_iff` says for which messages `part_handler` gets the parts.
-/

namespace MnoGoSearch.Message

open Url (bytes strcaseeq)

/-! ## Messages with parts -/

/-- The characters of a boundary in quotation marks. -/
def isBoundaryByte (c : UInt8) : Bool := 0x20 ≤ c && c != 0x22

/-- What a multipart message is made of. -/
structure Multipart where
  boundary : List UInt8
  /-- The lines end with CRLF, not with LF. -/
  crlf : Bool
  /-- The lines in front of the first boundary. -/
  preamble : Option (List UInt8)
  /-- The parts, each without the line break in front of the boundary. -/
  parts : List (List UInt8)
  /-- The lines behind the last boundary. -/
  epilogue : Option (List UInt8)
  length_le : boundary.length ≤ boundaryMaxLength
  /-- It can stand in quotation marks. -/
  boundary_bytes : ∀ c ∈ boundary, isBoundaryByte c = true

/-- A line break. -/
def newLine (crlf : Bool) : List UInt8 := if crlf then [0x0D, 0x0A] else [0x0A]

namespace Multipart

variable (M : Multipart)

/-- `--` and the boundary. -/
def delimiter : List UInt8 := 0x2D :: 0x2D :: M.boundary

/-- The preamble and its line break. -/
def lead : List UInt8 :=
  match M.preamble with
  | none => []
  | some text => text ++ newLine M.crlf

/-- What follows the last boundary. -/
def trail : List UInt8 :=
  match M.epilogue with
  | none => [0x2D, 0x2D]
  | some text => 0x2D :: 0x2D :: (newLine M.crlf ++ text)

/-- A part with its line break, as the handler should get it. -/
def partText (part : List UInt8) : List UInt8 := part ++ newLine M.crlf

/-- What follows a boundary, with the parts that are left. -/
def behindDelimiter : List (List UInt8) → List UInt8
  | [] => M.trail
  | part :: parts => newLine M.crlf ++ (M.partText part ++ (M.delimiter ++ behindDelimiter parts))

/-- The body. -/
def body : List UInt8 := M.lead ++ (M.delimiter ++ M.behindDelimiter M.parts)

/-- The value of `Content-Type`. -/
def contentType : List UInt8 := bytes "multipart/mixed; boundary=" ++ 0x22 :: (M.boundary ++ [0x22])

/-- The header, with the empty line. -/
def head : List UInt8 :=
  bytes "Content-Type" ++ 0x3A :: 0x20 :: (M.contentType ++ (newLine M.crlf ++ newLine M.crlf))

/-- The message. -/
def text : List UInt8 := M.head ++ M.body

/-- Where the parts begin, from a place behind a boundary on, and their texts. -/
def partsFrom : ℕ → List (List UInt8) → List (ℕ × List UInt8)
  | _, [] => []
  | tok, part :: parts =>
    (tok + (newLine M.crlf).length, M.partText part) ::
      partsFrom (tok + (newLine M.crlf).length + ((M.partText part).length + M.delimiter.length)) parts

/-- The parts of the message. -/
def places : List (ℕ × List UInt8) := M.partsFrom (M.head.length + (M.lead.length + M.delimiter.length)) M.parts

end Multipart

/-! ## The parser and its handler -/

/-- `UdmMessageParserExec`, where `partHandler` is what `part_handler` does with a part. -/
def udmMessageParserExecWith (m : List UInt8) (partHandler : ℕ → ℕ → ℕ → Scan (List (ℕ × Call)))
    (level str length : ℕ) : Scan (Bool × MessageParser) := do
  let p := (MessageParser.mk str (str + length) [] false [] level []).call (.event (bytes "message_enter"))
  if length < 5 then .ok (false, (p.fail (bytes "Message is too short")).leave)
  else
    match ← scanFrom m p with
    | none => .ok (false, (p.fail (bytes "End of From line not found")).leave)
    | some p =>
      let (rc, p) ← scanHeaders m (length + 1) p
      if rc = .crlf then scanContent m partHandler p else .ok (false, p.leave)

/-- The calls in front of the parts: no text of the message but its header. -/
def Multipart.opening (M : Multipart) : List (ℕ × Call) :=
  [(0, .event (bytes "message_enter")), (0, .header (bytes "Content-Type") M.contentType),
    (0, .event (bytes "message_content")), (0, .content []), (0, .event (bytes "message_parts"))]

/-- **The message is split into its parts**: whatever the handler does, it is called once for each of them, with its
place and its text, and nothing else of the body is handed over. -/
def Multipart.SplitsUp (M : Multipart) : Prop :=
  ∀ handler : ℕ → ℕ → ℕ → List (ℕ × Call), ∃ ok p,
    udmMessageParserExecWith (M.text ++ [0]) (fun level str length => .ok (handler level str length)) 0 0
      M.text.length = .ok (ok, p) ∧
    p.calls = M.opening ++ (M.places.flatMap fun part => (0, .part part.2) :: handler 1 part.1 part.2.length) ++
      [(0, .event (bytes "message_leave"))]

/-! ## Where boundaries are found -/

section FindBoundary

variable {boundary : List UInt8}

theorem length_delimiter (boundary : List UInt8) : (0x2D :: 0x2D :: boundary : List UInt8).length = 2 + boundary.length := by
  rw [List.length_cons, List.length_cons]
  omega

variable {r : List UInt8}

theorem findBoundaryIn_short (h : r.length ≤ boundary.length) : findBoundaryIn 0 boundary r = none := by
  cases r with
  | nil => rfl
  | cons c r => rw [findBoundaryIn, if_neg (Nat.not_lt.2 h)]

variable (hnul : 0 ∉ boundary)
include hnul

theorem findBoundaryIn_cons (c : UInt8) (r : List UInt8) :
    findBoundaryIn 0 boundary (c :: r) =
      if 0x2D :: 0x2D :: boundary <+: c :: r then some 0 else (findBoundaryIn 0 boundary r).map (· + 1) := by
  have hhere : (c :: r ++ [0]).take (2 + boundary.length) = 0x2D :: 0x2D :: boundary ↔
      0x2D :: 0x2D :: boundary <+: c :: r := by
    have hmem : 0 ∉ 0x2D :: 0x2D :: boundary := by simp [hnul]
    rw [← length_delimiter, eq_comm, ← List.prefix_iff_eq_take, List.prefix_concat_iff]
    exact ⟨fun h => h.resolve_left fun heq => hmem (heq ▸ List.mem_append_right _ (List.mem_singleton_self _)), .inr⟩
  rw [findBoundaryIn]
  by_cases hlong : boundary.length < (c :: r).length
  · simp only [if_pos hlong, hhere]
  · have hshort : ¬0x2D :: 0x2D :: boundary <+: c :: r := by
      intro h
      have hle := h.length_le
      simp only [List.length_cons] at hle hlong
      omega
    rw [if_neg hlong, if_neg hshort, findBoundaryIn_short (by rw [List.length_cons] at hlong; omega)]
    rfl

theorem findBoundaryIn_none (h : ¬0x2D :: 0x2D :: boundary <:+: r) : findBoundaryIn 0 boundary r = none := by
  induction r with
  | nil => rfl
  | cons c r ih =>
    rw [findBoundaryIn_cons hnul, if_neg fun hbegins => h hbegins.isInfix, ih fun hinside => h (hinside.trans
      (List.suffix_cons c r).isInfix)]
    rfl

theorem findBoundaryIn_infix (h : 0x2D :: 0x2D :: boundary <:+: r) (rest : List UInt8) :
    ∃ k, findBoundaryIn 0 boundary (r ++ rest) = some k ∧ k + (2 + boundary.length) ≤ r.length ∧
      (r ++ rest).drop k = 0x2D :: 0x2D :: boundary ++ (r.drop (k + (2 + boundary.length)) ++ rest) := by
  induction r with
  | nil => exact nomatch List.infix_nil.1 h
  | cons c r ih =>
    rw [List.cons_append, findBoundaryIn_cons hnul]
    by_cases hhere : 0x2D :: 0x2D :: boundary <+: c :: (r ++ rest)
    · have hle := h.length_le
      have hbegins := List.prefix_of_prefix_length_le hhere (List.prefix_append (c :: r) rest) hle
      rw [length_delimiter] at hle
      refine ⟨0, if_pos hhere, by omega, ?_⟩
      obtain ⟨t, ht⟩ := hbegins
      have hdrop : (c :: r).drop (2 + boundary.length) = t := by
        rw [← ht, ← length_delimiter, List.drop_left]
      rw [Nat.zero_add, hdrop, ← List.append_assoc, ht]
      rfl
    · rw [if_neg hhere]
      have hnext : 0x2D :: 0x2D :: boundary <:+: r :=
        (List.infix_cons_iff.1 h).resolve_left fun hbegins => hhere (hbegins.trans (List.prefix_append _ _))
      obtain ⟨k, hk, hle, hdrop⟩ := ih hnext
      refine ⟨k + 1, ?_, ?_, ?_⟩
      · rw [hk]
        rfl
      · rw [List.length_cons]
        omega
      · rw [List.drop_succ_cons, hdrop, show k + 1 + (2 + boundary.length) = k + (2 + boundary.length) + 1 by omega,
          List.drop_succ_cons]

theorem findBoundaryIn_append (hline : 0x0A ∉ boundary)
    (hlast : ∀ t, t <:+ r → t ≠ [] → 0x0A ∈ t) (h : ¬0x2D :: 0x2D :: boundary <:+: r) (rest : List UInt8) :
    findBoundaryIn 0 boundary (r ++ (0x2D :: 0x2D :: boundary ++ rest)) = some r.length := by
  induction r with
  | nil =>
    rw [List.nil_append, List.cons_append, findBoundaryIn_cons hnul]
    exact if_pos (List.prefix_append (0x2D :: 0x2D :: boundary) rest)
  | cons c r ih =>
    have hhere : ¬0x2D :: 0x2D :: boundary <+: c :: r ++ (0x2D :: 0x2D :: boundary ++ rest) := by
      intro hbegins
      rcases Nat.le_total (0x2D :: 0x2D :: boundary).length (c :: r).length with hle | hle
      · exact h (List.prefix_of_prefix_length_le hbegins (List.prefix_append _ _) hle).isInfix
      · -- it would begin with all of the text, and so contain the line break
        have hmem := (List.prefix_of_prefix_length_le (List.prefix_append _ _) hbegins hle).subset
          (hlast _ (List.suffix_refl _) (List.cons_ne_nil _ _))
        simp [hline] at hmem
    have hnext : ¬0x2D :: 0x2D :: boundary <:+: r := fun hinside => h (hinside.trans (List.suffix_cons c r).isInfix)
    rw [List.cons_append, findBoundaryIn_cons hnul, ← List.cons_append, if_neg hhere,
      ih (fun t ht => hlast t (ht.trans (List.suffix_cons c r))) hnext]
    rfl

end FindBoundary

/-! ## The parts that are handed over -/

/-- How far it is from a boundary at the beginning of a text to what follows. -/
def skipLength (boundary s : List UInt8) : ℕ := 2 + boundary.length + headerEnd (s.drop (2 + boundary.length))

/-- What the loop over the parts hands over, with the places: at most `fuel` parts. -/
def handedFrom (boundary : List UInt8) : ℕ → ℕ → List UInt8 → List (ℕ × List UInt8)
  | 0, _, _ => []
  | fuel + 1, tok, r =>
    match findBoundaryIn 0 boundary r with
    | none => []
    | some k =>
      (tok, r.take k) ::
        if isFinalIn (behind boundary (r.drop k)) then []
        else handedFrom boundary fuel (tok + k + skipLength boundary (r.drop k)) (behind boundary (r.drop k))

/-- What is handed over of a body that begins at `tok`. -/
def handed (boundary : List UInt8) (tok : ℕ) (body : List UInt8) : List (ℕ × List UInt8) :=
  match findBoundaryIn 0 boundary body with
  | none => []
  | some k =>
    if boundary = [] then []
    else
      let rest := behind boundary (body.drop k)
      handedFrom boundary (rest.length + 1) (tok + k + skipLength boundary (body.drop k)) rest

section Lines

theorem headerEnd_newLine (crlf : Bool) (c : UInt8) (r : List UInt8) :
    headerEnd (newLine crlf ++ c :: r) = if udmIsSpaceOrTab c then 0 else (newLine crlf).length := by
  cases crlf <;> simp [headerEnd, newLine, udmIsNewLine]

theorem newLine_pos (crlf : Bool) : 0 < (newLine crlf).length := by
  cases crlf
  · exact Nat.one_pos
  · exact Nat.two_pos

theorem headerEnd_newLine_newLine (crlf : Bool) (r : List UInt8) :
    headerEnd (newLine crlf ++ (newLine crlf ++ r)) = (newLine crlf).length := by
  cases crlf
  · exact headerEnd_newLine false 0x0A r
  · exact headerEnd_newLine true 0x0D (0x0A :: r)

theorem isFinalIn_iff (r : List UInt8) : isFinalIn r = true ↔ [0x2D, 0x2D] <+: r := by
  rw [isFinalIn, beq_iff_eq, List.prefix_iff_eq_take, eq_comm]
  rfl

theorem not_prefix_newLine (crlf : Bool) (s r : List UInt8) : ¬0x2D :: s <+: newLine crlf ++ r := by
  cases crlf <;> simp [newLine]

theorem mem_of_suffix_newLine {crlf : Bool} {r t : List UInt8} (h : t <:+ r ++ newLine crlf) (hne : t ≠ []) :
    0x0A ∈ t := by
  have hlast : (r ++ newLine crlf).getLast? = some 0x0A := by cases crlf <;> simp [newLine]
  obtain ⟨s, hs⟩ := h
  rw [← hs, List.getLast?_append_of_ne_nil _ hne] at hlast
  exact List.mem_of_getLast? hlast

theorem headerEnd_append_le {r rest : List UInt8} (hlast : ∀ t, t <:+ r → t ≠ [] → 0x0A ∈ t)
    (hrest : udmIsNewLine rest = 0) : headerEnd (r ++ rest) ≤ r.length := by
  have hle : headerEnd (r ++ rest) ≤ udmIsNewLine (r ++ rest) := by
    rw [headerEnd]
    split_ifs
    · exact Nat.zero_le _
    · exact Nat.zero_le _
    · exact le_rfl
  refine hle.trans ?_
  rcases r with _ | ⟨c, _ | ⟨d, r⟩⟩
  · exact hrest.le
  · have hc := List.mem_singleton.1 (hlast [c] (List.suffix_refl _) (List.cons_ne_nil _ _))
    rw [← hc]
    exact le_rfl
  · have htwo : udmIsNewLine (c :: d :: r ++ rest) ≤ 2 := by
      unfold udmIsNewLine
      split <;> omega
    rw [List.length_cons, List.length_cons]
    omega

end Lines

namespace Multipart

variable (M : Multipart)

theorem nul_not_mem : 0 ∉ M.boundary := fun h => absurd (M.boundary_bytes _ h) (by decide)

theorem lf_not_mem : 0x0A ∉ M.boundary := fun h => absurd (M.boundary_bytes _ h) (by decide)

/-- A part that gets to the handler, as long as the loop comes to it. -/
structure PartClear (part : List UInt8) : Prop where
  /-- No space and no tab at the beginning. -/
  start : part.head?.any udmIsSpaceOrTab = false
  /-- No boundary, not even within a line. -/
  free : ¬M.delimiter <:+: M.partText part

/-- Parts that all get to the handler: the loop does not take one for the end. -/
def PartsClear (parts : List (List UInt8)) : Prop :=
  (∀ part ∈ parts, M.PartClear part) ∧ ∀ part ∈ parts.tail, ¬[0x2D, 0x2D] <+: part

theorem partsClear_cons_cons (part next : List UInt8) (parts : List (List UInt8)) :
    M.PartsClear (part :: next :: parts) ↔
      M.PartClear part ∧ ¬[0x2D, 0x2D] <+: next ∧ M.PartsClear (next :: parts) := by
  simp only [PartsClear, List.forall_mem_cons, List.tail_cons]
  tauto

/-- How long the line break is that the parser goes over behind a boundary. -/
def lineSkip (parts : List (List UInt8)) : ℕ := headerEnd (M.behindDelimiter parts)

/-- What the parser looks at behind a boundary. -/
def nextText (parts : List (List UInt8)) : List UInt8 := (M.behindDelimiter parts).drop (M.lineSkip parts)

theorem lineSkip_cons (part : List UInt8) (parts : List (List UInt8)) :
    M.lineSkip (part :: parts) =
      if part.head?.any udmIsSpaceOrTab then 0 else (newLine M.crlf).length := by
  rw [lineSkip, behindDelimiter, partText]
  cases part with
  | nil =>
    rw [List.nil_append, List.head?_nil, Option.any_none, if_neg Bool.false_ne_true]
    exact headerEnd_newLine_newLine _ _
  | cons c part =>
    rw [List.cons_append, List.cons_append, headerEnd_newLine]
    rfl

variable {part : List UInt8} {fuel tok : ℕ}

theorem nextText_cons (hstart : part.head?.any udmIsSpaceOrTab = false) (parts : List (List UInt8)) :
    M.nextText (part :: parts) = M.partText part ++ (M.delimiter ++ M.behindDelimiter parts) := by
  rw [nextText, lineSkip_cons, hstart, if_neg Bool.false_ne_true, behindDelimiter, List.drop_left]

theorem nextText_nil : M.nextText [] = M.trail := by
  rw [nextText, lineSkip, behindDelimiter, trail]
  cases M.epilogue <;> rfl

theorem isFinalIn_nextText (part : List UInt8) (parts : List (List UInt8)) :
    isFinalIn (M.nextText (part :: parts)) = true ↔
      [0x2D, 0x2D] <+: part := by
  rw [isFinalIn_iff, nextText, lineSkip_cons, behindDelimiter, partText]
  cases part with
  | nil =>
    rw [List.head?_nil, Option.any_none, if_neg Bool.false_ne_true, List.drop_left, List.nil_append, List.prefix_nil]
    exact iff_of_false (not_prefix_newLine _ _ _) (List.cons_ne_nil _ _)
  | cons c part =>
    rw [List.head?_cons, Option.any_some]
    by_cases hspace : udmIsSpaceOrTab c = true
    · have hc : 0x2D ≠ c := fun h => absurd hspace (h ▸ by decide)
      rw [if_pos hspace, List.drop_zero, List.cons_prefix_cons]
      exact iff_of_false (not_prefix_newLine _ _ _) fun h => hc h.1
    · rw [if_neg hspace, List.drop_left, List.cons_append, List.cons_append, List.cons_prefix_cons, List.cons_prefix_cons]
      refine and_congr_right fun _ => ?_
      cases part with
      | nil =>
        rw [List.nil_append, List.prefix_nil]
        exact iff_of_false (not_prefix_newLine _ _ _) (List.cons_ne_nil _ _)
      | cons d part => simp only [List.cons_append, List.cons_prefix_cons, List.nil_prefix, and_true]

variable {r : List UInt8}

theorem handedFrom_eq_none (h : findBoundaryIn 0 M.boundary r = none) : handedFrom M.boundary fuel tok r = [] := by
  cases fuel with
  | zero => rfl
  | succ fuel => rw [handedFrom, h]

theorem handedFrom_eq_cons {tok' : ℕ} {text : List UInt8} {parts : List (ℕ × List UInt8)}
    (h : handedFrom M.boundary fuel tok r = (tok', text) :: parts) :
    tok = tok' ∧ ∃ k, findBoundaryIn 0 M.boundary r = some k ∧ r.take k = text := by
  cases fuel with
  | zero => exact nomatch h
  | succ fuel =>
    rw [handedFrom] at h
    cases hfound : findBoundaryIn 0 M.boundary r with
    | none =>
      rw [hfound] at h
      exact nomatch h
    | some k =>
      rw [hfound] at h
      injection h with hhead _
      injection hhead with htok htext
      exact ⟨htok, k, rfl, htext⟩

theorem behind_delimiter (s : List UInt8) : behind M.boundary (M.delimiter ++ s) = s.drop (headerEnd s) := by
  rw [behind, delimiter, ← length_delimiter, List.drop_left]

theorem skipLength_delimiter (s : List UInt8) :
    skipLength M.boundary (M.delimiter ++ s) = M.delimiter.length + headerEnd s := by
  rw [skipLength, delimiter, ← length_delimiter, List.drop_left]

theorem handedFrom_part (hpart : M.PartClear part) (parts : List (List UInt8)) (fuel tok : ℕ) :
    handedFrom M.boundary (fuel + 1) (tok + M.lineSkip (part :: parts)) (M.nextText (part :: parts)) =
      (tok + (newLine M.crlf).length, M.partText part) ::
        if isFinalIn (M.nextText parts) then []
        else
          handedFrom M.boundary fuel
            (tok + (newLine M.crlf).length + ((M.partText part).length + M.delimiter.length) + M.lineSkip parts)
            (M.nextText parts) := by
  have hfound := findBoundaryIn_append M.nul_not_mem M.lf_not_mem
    (fun t ht hne => mem_of_suffix_newLine (r := part) ht hne) hpart.free (M.behindDelimiter parts)
  rw [lineSkip_cons, M.nextText_cons hpart.start, hpart.start, if_neg Bool.false_ne_true, handedFrom]
  rw [partText, delimiter] at *
  rw [hfound]
  dsimp only
  rw [List.take_left, List.drop_left]
  have hbehind : behind M.boundary (M.delimiter ++ M.behindDelimiter parts) = M.nextText parts := M.behind_delimiter _
  have hskip : skipLength M.boundary (M.delimiter ++ M.behindDelimiter parts) = M.delimiter.length + M.lineSkip parts :=
    M.skipLength_delimiter _
  rw [delimiter] at hbehind hskip
  rw [hbehind, hskip]
  congr 3
  omega

/-- A part that is handed over is clear: with a space at its beginning the loop is in front of a line break. -/
theorem partClear_of_handedFrom {parts : List (List UInt8)}
    {rest : List (ℕ × List UInt8)}
    (h : handedFrom M.boundary fuel (tok + M.lineSkip (part :: parts)) (M.nextText (part :: parts)) =
      (tok + (newLine M.crlf).length, M.partText part) :: rest) : M.PartClear part := by
  obtain ⟨htok, k, hfound, htake⟩ := M.handedFrom_eq_cons h
  have hstart : part.head?.any udmIsSpaceOrTab = false := by
    rw [lineSkip_cons] at htok
    cases hspace : part.head?.any udmIsSpaceOrTab with
    | false => rfl
    | true =>
      have hpos := newLine_pos M.crlf
      rw [hspace, if_pos rfl] at htok
      omega
  refine ⟨hstart, fun hinside => ?_⟩
  rw [M.nextText_cons hstart] at hfound htake
  obtain ⟨k', hk', hle, -⟩ := findBoundaryIn_infix M.nul_not_mem hinside (M.delimiter ++ M.behindDelimiter parts)
  rw [hk'] at hfound
  have hlength := congrArg List.length htake
  rw [List.length_take, ← Option.some.inj hfound] at hlength
  omega

theorem handedFrom_of_not (hpart : ¬M.PartClear part) (parts : List (List UInt8)) (fuel tok : ℕ) :
    handedFrom M.boundary fuel (tok + M.lineSkip (part :: parts)) (M.nextText (part :: parts)) =
      M.partsFrom tok (part :: parts) ↔ M.PartsClear (part :: parts) := by
  refine iff_of_false (fun h => hpart ?_) fun h => hpart (h.1 part List.mem_cons_self)
  rw [partsFrom] at h
  exact M.partClear_of_handedFrom h

theorem isFinalIn_trail : isFinalIn M.trail = true := by
  rw [trail]
  cases M.epilogue <;> rfl

/-- **The loop over the parts hands over the parts** that follow a boundary, if and only if these are clear. By
induction on the parts. -/
theorem handedFrom_behindDelimiter (part : List UInt8) (parts : List (List UInt8)) {fuel tok : ℕ}
    (hfuel : parts.length < fuel) :
    handedFrom M.boundary fuel (tok + M.lineSkip (part :: parts)) (M.nextText (part :: parts)) =
      M.partsFrom tok (part :: parts) ↔ M.PartsClear (part :: parts) := by
  induction parts generalizing part fuel tok with
  | nil =>
    by_cases hpart : M.PartClear part
    · obtain ⟨fuel, rfl⟩ := Nat.exists_eq_succ_of_ne_zero (Nat.ne_of_gt hfuel)
      rw [M.handedFrom_part hpart, partsFrom, nextText_nil, M.isFinalIn_trail, if_pos rfl]
      exact iff_of_true rfl ⟨fun other hmem => List.mem_singleton.1 hmem ▸ hpart, fun _ h => nomatch h⟩
    · exact M.handedFrom_of_not hpart [] fuel tok
  | cons next parts ih =>
    by_cases hpart : M.PartClear part
    · obtain ⟨fuel, rfl⟩ := Nat.exists_eq_succ_of_ne_zero (Nat.ne_of_gt (Nat.zero_lt_of_lt hfuel))
      have hiff := M.isFinalIn_nextText next parts
      rw [M.handedFrom_part hpart, partsFrom, List.cons.injEq, and_iff_right rfl, partsClear_cons_cons,
        and_iff_right hpart]
      by_cases hfinal : [0x2D, 0x2D] <+: next
      · rw [if_pos (hiff.2 hfinal)]
        exact iff_of_false (fun h => nomatch h) fun h => h.1 hfinal
      · rw [if_neg (mt hiff.1 hfinal), and_iff_right hfinal]
        exact ih next (Nat.lt_of_succ_lt_succ hfuel)
    · exact M.handedFrom_of_not hpart _ fuel tok

/-- The message is split into its parts. -/
structure Clear : Prop where
  /-- No boundary in the preamble, not even within a line. -/
  lead : ¬M.delimiter <:+: M.lead
  parts : M.PartsClear M.parts
  /-- Without parts, no boundary in the epilogue. -/
  trail : M.parts = [] → ¬M.delimiter <:+: M.trail

theorem mem_of_suffix_lead {t : List UInt8} (h : t <:+ M.lead) (hne : t ≠ []) : 0x0A ∈ t := by
  rw [lead] at h
  cases hpreamble : M.preamble with
  | none =>
    rw [hpreamble] at h
    exact absurd (List.suffix_nil.1 h) hne
  | some text =>
    rw [hpreamble] at h
    exact mem_of_suffix_newLine h hne

theorem length_le_behindDelimiter (part : List UInt8) (parts : List (List UInt8)) :
    parts.length < (M.nextText (part :: parts)).length + 1 := by
  have hall : ∀ parts, parts.length ≤ (M.behindDelimiter parts).length := by
    intro parts
    induction parts with
    | nil => exact Nat.zero_le _
    | cons part parts ih =>
      have hpos := newLine_pos M.crlf
      simp only [behindDelimiter, List.length_append, List.length_cons]
      omega
  have hle := hall parts
  rw [nextText, lineSkip_cons, behindDelimiter]
  simp only [List.length_drop, List.length_append]
  split_ifs <;> omega

theorem handedFrom_ne_nil (h : M.delimiter <:+: r) : handedFrom M.boundary (fuel + 1) tok r ≠ [] := by
  obtain ⟨k, hk, -⟩ := findBoundaryIn_infix M.nul_not_mem h []
  rw [List.append_nil] at hk
  rw [handedFrom, hk]
  exact List.cons_ne_nil _ _

theorem handed_of_not (hne : M.boundary ≠ []) (hlead : M.delimiter <:+: M.lead) :
    handed M.boundary tok M.body ≠ M.partsFrom (tok + (M.lead.length + M.delimiter.length)) M.parts := by
  obtain ⟨k, hk, hle, hdrop⟩ := findBoundaryIn_infix M.nul_not_mem hlead (M.delimiter ++ M.behindDelimiter M.parts)
  rw [← delimiter] at hdrop
  generalize hleft : M.lead.drop (k + (2 + M.boundary.length)) = left at hdrop
  have hsuffix : left <:+ M.lead := hleft ▸ List.drop_suffix _ _
  have hhead : headerEnd (left ++ (M.delimiter ++ M.behindDelimiter M.parts)) ≤ left.length :=
    headerEnd_append_le (fun t ht => M.mem_of_suffix_lead (ht.trans hsuffix)) rfl
  have hlength : left.length = M.lead.length - (k + M.delimiter.length) := by
    rw [← hleft, List.length_drop, delimiter, length_delimiter]
  have hdelimiter : M.delimiter.length = 2 + M.boundary.length := length_delimiter _
  intro h
  rw [handed, body, hk] at h
  dsimp only at h
  rw [if_neg hne, hdrop, skipLength_delimiter, behind_delimiter] at h
  cases hparts : M.parts with
  | nil =>
    -- the last boundary is taken for the end of a part
    rw [hparts, partsFrom] at h
    rw [hparts] at hhead
    refine M.handedFrom_ne_nil ?_ h
    rw [List.drop_append_of_le_length hhead]
    exact ((List.prefix_append _ _).isInfix).trans (List.suffix_append _ _).isInfix
  | cons part parts =>
    rw [hparts, partsFrom] at h
    rw [hparts] at hhead
    obtain ⟨htok, -⟩ := M.handedFrom_eq_cons h
    omega

/-- **A body is split into its parts** if and only if it is clear. -/
theorem handed_iff (tok : ℕ) (hne : M.boundary ≠ []) :
    handed M.boundary tok M.body = M.partsFrom (tok + (M.lead.length + M.delimiter.length)) M.parts ↔ M.Clear := by
  by_cases hlead : M.delimiter <:+: M.lead
  · exact iff_of_false (M.handed_of_not hne hlead) fun h => h.lead hlead
  · have hfound := findBoundaryIn_append M.nul_not_mem M.lf_not_mem
      (fun t ht => M.mem_of_suffix_lead ht) hlead (M.behindDelimiter M.parts)
    have hbehind : behind M.boundary (M.delimiter ++ M.behindDelimiter M.parts) = M.nextText M.parts := M.behind_delimiter _
    have hskip : skipLength M.boundary (M.delimiter ++ M.behindDelimiter M.parts) =
        M.delimiter.length + M.lineSkip M.parts := M.skipLength_delimiter _
    have hclear : M.Clear ↔ M.PartsClear M.parts ∧ (M.parts = [] → ¬M.delimiter <:+: M.trail) :=
      ⟨fun h => ⟨h.parts, h.trail⟩, fun h => ⟨hlead, h.1, h.2⟩⟩
    rw [← delimiter] at hfound
    rw [handed, body, hfound, hclear]
    dsimp only
    rw [if_neg hne, List.drop_left, hskip, hbehind]
    cases hparts : M.parts with
    | nil =>
      have hnone : M.PartsClear [] := ⟨fun _ h => (nomatch h), fun _ h => nomatch h⟩
      rw [nextText_nil, partsFrom, and_iff_right hnone]
      refine ⟨fun h _ hinside => M.handedFrom_ne_nil hinside h, fun h => ?_⟩
      exact M.handedFrom_eq_none (findBoundaryIn_none M.nul_not_mem (h rfl))
    | cons part parts =>
      have hiff := @handedFrom_behindDelimiter M part parts _ (tok + (M.lead.length + M.delimiter.length))
        (M.length_le_behindDelimiter part parts)
      rw [← Nat.add_assoc, ← Nat.add_assoc, Nat.add_assoc tok, Nat.add_assoc tok] at *
      rw [hiff]
      exact ⟨fun h => ⟨h, fun h => nomatch h⟩, And.left⟩

end Multipart

/-! ## The runs -/

/-- What a handler is called for, and what it does. -/
def handlerCalls (handler : ℕ → ℕ → ℕ → List (ℕ × Call)) (level : ℕ) (parts : List (ℕ × List UInt8)) :
    List (ℕ × Call) :=
  parts.flatMap fun part => (level, .part part.2) :: handler (level + 1) part.1 part.2.length

section Runs

variable {m : List UInt8} (handler : ℕ → ℕ → ℕ → List (ℕ × Call))

variable {r : List UInt8} {k : ℕ}

theorem fits_of_findBoundaryIn {boundary : List UInt8} (hnul : 0 ∉ boundary)
    (h : findBoundaryIn 0 boundary r = some k) : 2 + boundary.length ≤ (r.drop k).length := by
  induction r generalizing k with
  | nil => exact nomatch h
  | cons c r ih =>
    rw [findBoundaryIn_cons hnul] at h
    split_ifs at h with hhere
    · rw [← Option.some.inj h, List.drop_zero, ← length_delimiter]
      exact hhere.length_le
    · obtain ⟨j, hj, rfl⟩ := Option.map_eq_some_iff.1 h
      exact ih hj

theorem udmMessageScanOnePart_run {p : MessageParser} (hnul : 0 ∉ p.boundary)
    (h : Placed m p.tok p.ends r 0) (hfound : findBoundaryIn 0 p.boundary r = some k) :
    udmMessageScanOnePart m (fun level str length => .ok (handler level str length)) p =
      .ok (.ok, { p with
        tok := p.tok + k + skipLength p.boundary (r.drop k)
        calls := p.calls ++ (p.level, .part (r.take k)) :: handler (p.level + 1) p.tok k }) := by
  have hle := (findBoundaryIn_some hfound).1.le
  have hplaced : Placed m (p.tok + k) p.ends (r.drop k) 0 := h.skip hle
  have hskip := skipBoundary_eq
    (p := { p with calls := p.calls ++ [(p.level, .part ((m.drop p.tok).take k))] ++ handler (p.level + 1) p.tok k })
    hplaced (fits_of_findBoundaryIn hnul hfound)
  rw [udmMessageScanOnePart, findBoundary_eq _ h, ok_bind, hfound, Option.map_some]
  dsimp only
  rw [Nat.add_sub_cancel_left, ok_bind, MessageParser.call]
  dsimp only
  rw [hskip, ok_bind, h.take hle, skipLength, Nat.add_assoc (p.tok + k), List.append_assoc, List.singleton_append]

/-- The loop over the parts, by induction on its steps. -/
theorem scanParts_run {fuel : ℕ} {p : MessageParser} (hnul : 0 ∉ p.boundary)
    (h : Placed m p.tok p.ends r 0) (hfuel : r.length < fuel) :
    ∃ rc p', scanParts m (fun level str length => .ok (handler level str length)) fuel p = .ok (rc, p') ∧
      p'.level = p.level ∧ p'.calls = p.calls ++ handlerCalls handler p.level (handedFrom p.boundary fuel p.tok r) := by
  induction fuel generalizing r p with
  | zero => exact absurd hfuel (Nat.not_lt_zero _)
  | succ fuel ih =>
    rw [scanParts, handedFrom]
    cases hfound : findBoundaryIn 0 p.boundary r with
    | none =>
      rw [udmMessageScanOnePart, findBoundary_eq _ h, hfound]
      exact ⟨_, _, rfl, rfl, (List.append_nil _).symm⟩
    | some k =>
      obtain ⟨hlt, -⟩ := findBoundaryIn_some hfound
      have hplaced : Placed m (p.tok + k) p.ends (r.drop k) 0 := h.skip hlt.le
      have hnext := hplaced.behind (fits_of_findBoundaryIn hnul hfound)
      have hlength : (behind p.boundary (r.drop k)).length < fuel := by
        rw [behind, List.length_drop, List.length_drop, List.length_drop]
        omega
      have hk : (r.take k).length = k := by rw [List.length_take, min_eq_left hlt.le]
      rw [Nat.add_assoc, ← skipLength] at hnext
      rw [udmMessageScanOnePart_run handler hnul h hfound, ok_bind]
      dsimp only
      rw [if_pos rfl]
      have hfinal := isFinal_eq (p := { p with
        tok := p.tok + k + skipLength p.boundary (r.drop k)
        calls := p.calls ++ (p.level, .part (r.take k)) :: handler (p.level + 1) p.tok k }) hnext
      rw [hfinal, ok_bind]
      cases isFinalIn (behind p.boundary (r.drop k)) with
      | true =>
        refine ⟨_, _, rfl, rfl, ?_⟩
        simp only [handlerCalls, if_pos, List.flatMap_cons, List.flatMap_nil, List.append_nil, hk]
      | false =>
        obtain ⟨rc, p', hrun, hlevel, hcalls⟩ := ih (p := { p with
          tok := p.tok + k + skipLength p.boundary (r.drop k)
          calls := p.calls ++ (p.level, .part (r.take k)) :: handler (p.level + 1) p.tok k }) hnul hnext hlength
        refine ⟨rc, p', hrun, hlevel, hcalls.trans ?_⟩
        simp only [handlerCalls, if_neg Bool.false_ne_true, List.flatMap_cons, List.append_assoc, hk]

theorem scanContent_run {body : List UInt8} {p : MessageParser} (hnul : 0 ∉ p.boundary)
    (h : Placed m p.tok p.ends body 0) (hmulti : p.isMultipart = true)
    (hfound : findBoundaryIn 0 p.boundary body = some k) :
    ∃ ok p', scanContent m (fun level str length => .ok (handler level str length)) p = .ok (ok, p') ∧
      p'.calls = p.calls ++ [(p.level, .event (bytes "message_content")), (p.level, .content []),
        (p.level, .event (bytes "message_parts"))] ++ handlerCalls handler p.level (handed p.boundary p.tok body) ++
          [(p.level, .event (bytes "message_leave"))] := by
  have hfits := fits_of_findBoundaryIn hnul hfound
  have hplaced : Placed m (p.tok + k) p.ends (body.drop k) 0 := h.skip (findBoundaryIn_some hfound).1.le
  have hnext := hplaced.behind hfits
  rw [Nat.add_assoc, ← skipLength] at hnext
  obtain ⟨q, hq⟩ : ∃ q, q =
    ((p.call (.event (bytes "message_content"))).call (.content [])).call (.event (bytes "message_parts")) := ⟨_, rfl⟩
  have hboundary : q.boundary = p.boundary := by rw [hq]; rfl
  have hlevel : q.level = p.level := by rw [hq]; rfl
  have hends : q.ends = p.ends := by rw [hq]; rfl
  have hcalls : q.calls = p.calls ++ [(p.level, .event (bytes "message_content")), (p.level, .content []),
      (p.level, .event (bytes "message_parts"))] := by
    rw [hq, MessageParser.call, MessageParser.call, MessageParser.call]
    simp
  have hskip : q.skipBoundary m (p.tok + k) =
      .ok { q with tok := p.tok + k + skipLength p.boundary (body.drop k) } := by
    rw [skipBoundary_eq (hends.symm ▸ hplaced) (hboundary.symm ▸ hfits), hboundary, Nat.add_assoc, ← skipLength]
  have hfind : findBoundary m (p.call (.event (bytes "message_content"))).boundary p.ends p.tok = .ok (some (p.tok + k)) := by
    rw [findBoundary_eq _ h]
    exact congrArg Except.ok (congrArg (Option.map _) hfound)
  rw [scanContent, handed, hfound]
  dsimp only
  rw [if_pos (show (p.call (.event (bytes "message_content"))).isMultipart = true from hmulti)]
  show ∃ ok p', (findBoundary m (p.call (.event (bytes "message_content"))).boundary p.ends p.tok >>= _) = _ ∧ _
  rw [hfind, ok_bind]
  dsimp only
  rw [← hq, hskip, ok_bind, udmMessageScanParts]
  dsimp only
  by_cases hempty : p.boundary = []
  · rw [if_pos hempty, if_pos (hboundary.trans hempty), ok_bind]
    refine ⟨_, _, rfl, ?_⟩
    rw [MessageParser.leave, MessageParser.call, handlerCalls, List.flatMap_nil, List.append_nil]
    dsimp only
    rw [hcalls, hlevel]
  · obtain ⟨rc, p', hrun, hlevel', hcalls'⟩ := scanParts_run handler
      (p := { q with tok := p.tok + k + skipLength p.boundary (body.drop k) }) (hboundary.symm ▸ hnul)
      (hends.symm ▸ hnext) (Nat.lt_succ_self _)
    have hleft := hnext.ends
    rw [if_neg hempty, if_neg (fun h => hempty (hboundary.symm.trans h)), show
      q.ends - (p.tok + k + skipLength p.boundary (body.drop k)) = (behind p.boundary (body.drop k)).length by omega,
      hrun, ok_bind]
    refine ⟨_, _, rfl, ?_⟩
    rw [MessageParser.leave, MessageParser.call, hcalls', hlevel']
    dsimp only
    rw [hcalls, hlevel, hboundary]

end Runs

/-! ## The headers -/

variable {c : UInt8} {p : MessageParser} {crlf : Bool}

theorem udmIsNewLine_cons (hc : c ≠ 0x0A ∧ c ≠ 0x0D) (r : List UInt8) : udmIsNewLine (c :: r) = 0 := by
  simp [udmIsNewLine, hc]

theorem firstWith_headerEnd {value rest : List UInt8}
    (hvalue : ∀ x ∈ value, x ≠ 0x0A ∧ x ≠ 0x0D) (hc : udmIsSpaceOrTab c = false) :
    firstWith headerEnd (value ++ (newLine crlf ++ c :: rest)) = some value.length := by
  induction value with
  | nil =>
    have hend := headerEnd_newLine crlf c rest
    have hpos := newLine_pos crlf
    rw [hc, if_neg Bool.false_ne_true] at hend
    rw [List.nil_append]
    cases hline : newLine crlf ++ c :: rest with
    | nil => exact absurd hline (List.append_ne_nil_of_right_ne_nil _ (List.cons_ne_nil _ _))
    | cons d r =>
      rw [hline] at hend
      rw [firstWith, hend, if_pos hpos.ne']
      rfl
  | cons d value ih =>
    have hd : headerEnd (d :: (value ++ (newLine crlf ++ c :: rest))) = 0 := by
      rw [headerEnd, udmIsNewLine_cons (hvalue d List.mem_cons_self)]
      rfl
    rw [List.cons_append, firstWith, hd, if_neg (fun h => h rfl), ih fun x hx => hvalue x (List.mem_cons_of_mem d hx)]
    rfl

theorem header_tok (p : MessageParser) (tok : ℕ) (name value : List UInt8) :
    { p with tok := tok }.header name value = { p.header name value with tok := tok } := by
  rw [MessageParser.header, MessageParser.header]
  split <;> rfl

theorem scanHeaderValue_line {m value rest : List UInt8} {z : UInt8}
    (name : List UInt8) (h : Placed m p.tok p.ends (value ++ (newLine crlf ++ c :: rest)) z)
    (hvalue : ∀ x ∈ value, x ≠ 0x0A ∧ x ≠ 0x0D) (htrim : trimRight value = value) (hc : udmIsSpaceOrTab c = false) :
    scanHeaderValue m p name =
      .ok (.ok, { p.header name value with tok := p.tok + value.length + (newLine crlf).length }) := by
  have hle : value.length ≤ (value ++ (newLine crlf ++ c :: rest)).length := by
    rw [List.length_append]
    omega
  have hend := h.skip hle
  have hline := headerEnd_newLine crlf c rest
  rw [hc, if_neg Bool.false_ne_true] at hline
  rw [List.drop_left, ← ends_header p name value] at hend
  have hadvance := advance_eq (p := { p.header name value with tok := p.tok + value.length }) hend (headerEnd_le _)
  rw [scanHeaderValue, scanValue_eq h, ok_bind, firstWith_headerEnd hvalue hc, Option.map_some]
  dsimp only
  rw [Nat.add_sub_cancel_left, h.take hle, List.take_left, List.drop_left, htrim, hadvance, ok_bind, hline]

theorem udmMessageScanHeader_line {m name value rest : List UInt8} {z : UInt8}
    (h : Placed m p.tok p.ends (name ++ 0x3A :: 0x20 :: (value ++ (newLine crlf ++ c :: rest))) z)
    (hname : ∀ x ∈ name, inName x = true) (hvalue : ∀ x ∈ value, x ≠ 0x0A ∧ x ≠ 0x0D) (htrim : trimRight value = value)
    (hc : udmIsSpaceOrTab c = false) :
    udmMessageScanHeader m p =
      .ok (.ok, { p.header name value with
        tok := p.tok + name.length + 1 + 1 + value.length + (newLine crlf).length }) := by
  have hbreak : udmIsNewLine (name ++ 0x3A :: 0x20 :: (value ++ (newLine crlf ++ c :: rest))) = 0 := by
    cases name with
    | nil => rfl
    | cons d name =>
      have hd := hname d List.mem_cons_self
      refine udmIsNewLine_cons ⟨fun heq => ?_, fun heq => ?_⟩ _
      · exact absurd hd (heq ▸ by decide)
      · exact absurd hd (heq ▸ by decide)
  have hdrop : (name ++ 0x3A :: 0x20 :: (value ++ (newLine crlf ++ c :: rest))).dropWhile inName =
      0x3A :: 0x20 :: (value ++ (newLine crlf ++ c :: rest)) := by
    rw [List.dropWhile_append_of_pos hname]
    rfl
  obtain ⟨tok, hscan, hle, hcolon⟩ := scanName_eq h
  rw [hdrop] at hscan hcolon
  have htok : tok = p.tok + name.length := by
    have hstart := h.ends
    have hstop := hcolon.ends
    rw [List.length_append] at hstart
    omega
  subst htok
  have hread := scanHeaderValue_line (p := { p with tok := p.tok + name.length + 1 + 1 }) name hcolon.next.next hvalue htrim
    hc
  rw [udmMessageScanHeader, newLineAt_eq h, ok_bind, hbreak, if_neg (fun hne => hne rfl), hscan, ok_bind]
  dsimp only
  rw [List.head?_cons, Option.any_some, bne_self_eq_false, if_neg Bool.false_ne_true,
    advance_eq (p := { p with tok := p.tok + name.length }) hcolon (Nat.succ_le_of_lt (Nat.succ_pos _)), ok_bind]
  dsimp only
  rw [newLineAt_eq hcolon.next, ok_bind, udmIsNewLine_cons (by decide),
    advance_eq (p := { p with tok := p.tok + name.length + 1 }) hcolon.next (Nat.zero_le _), ok_bind]
  dsimp only
  rw [Nat.add_zero, hcolon.next.byteAt, ok_bind, List.headD_cons, if_pos (by decide),
    advance_eq (p := { p with tok := p.tok + name.length + 1 }) hcolon.next (Nat.succ_le_of_lt (Nat.succ_pos _)), ok_bind,
    Nat.add_sub_cancel_left, h.take (by rw [List.length_append]; omega), List.take_left]
  exact hread.trans (by rw [header_tok])

theorem udmMessageGetBoundary_append (old : List UInt8) {s rest : List UInt8} {n : ℕ} (hn : n + 9 ≤ s.length)
    (hrest : 2 ≤ rest.length) (h : ∀ i < n, strcaseeq ((s.drop i).take 9) (bytes "boundary=") = false) :
    udmMessageGetBoundary old (s ++ rest) = udmMessageGetBoundary old (s.drop n ++ rest) := by
  induction n generalizing s with
  | zero => rfl
  | succ n ih =>
    cases s with
    | nil => simp at hn
    | cons c s =>
      have hhere := h 0 (Nat.succ_pos n)
      rw [List.length_cons] at hn
      rw [List.drop_zero] at hhere
      have htake : (c :: s ++ rest).take 9 = (c :: s).take 9 :=
        List.take_append_of_le_length (by rw [List.length_cons]; omega)
      rw [List.cons_append] at htake
      rw [List.cons_append, udmMessageGetBoundary, if_pos (by rw [List.length_cons, List.length_append]; omega), htake,
        hhere, if_neg Bool.false_ne_true, List.drop_succ_cons]
      exact ih (by omega) fun i hi => h (i + 1) (Nat.succ_lt_succ hi)

theorem udmMessageGetBoundary_here (old : List UInt8) {token : List UInt8} (h : 2 ≤ token.length) :
    udmMessageGetBoundary old (bytes "boundary=" ++ token) =
      if (boundaryToken token).length ≤ boundaryMaxLength then boundaryToken token else old := by
  have hlength : (bytes "boundary=").length = 9 := by decide
  have htake : (bytes "boundary=" ++ token).take 9 = bytes "boundary=" := List.take_left' hlength
  have hdrop : (bytes "boundary=" ++ token).drop 9 = token := List.drop_left' hlength
  have hlong : 10 < (bytes "boundary=" ++ token).length := by
    rw [List.length_append]
    omega
  generalize bytes "boundary=" ++ token = s at htake hdrop hlong
  cases s with
  | nil => exact nomatch hlong
  | cons c s =>
    rw [udmMessageGetBoundary, if_pos hlong, htake, if_pos (show strcaseeq _ _ = true from beq_self_eq_true _), hdrop]

theorem Multipart.getBoundary_contentType (M : Multipart) (old : List UInt8) :
    udmMessageGetBoundary old M.contentType = M.boundary := by
  have hskip := udmMessageGetBoundary_append old (s := bytes "multipart/mixed; boundary=") (n := 17)
    (show 17 + 9 ≤ _ by decide) (show 2 ≤ (0x22 :: (M.boundary ++ [0x22])).length by simp) (by decide)
  have hrest : (bytes "multipart/mixed; boundary=").drop 17 = bytes "boundary=" := by decide
  have htoken : boundaryToken (0x22 :: (M.boundary ++ [0x22])) = M.boundary := by
    rw [boundaryToken, List.head?_cons, if_pos rfl, List.tail_cons, List.takeWhile_append_of_pos]
    · exact List.append_nil _
    · intro c hc
      have hbyte := M.boundary_bytes c hc
      simp only [isBoundaryByte, Bool.and_eq_true, bne_iff_ne] at hbyte
      exact decide_eq_true hbyte.2
  rw [contentType, hskip, hrest, udmMessageGetBoundary_here old (by simp), htoken, if_pos M.length_le]

namespace Multipart

variable (M : Multipart)

theorem header_contentType (p : MessageParser) :
    p.header (bytes "Content-Type") M.contentType = { p with
      boundary := M.boundary
      isMultipart := true
      calls := p.calls ++ [(p.level, .header (bytes "Content-Type") M.contentType)] } := by
  have hlong : 11 ≤ M.contentType.length := by
    rw [contentType, List.length_append]
    exact Nat.le_add_right_of_le (show 11 ≤ (bytes "multipart/mixed; boundary=").length by decide)
  have htype : strcaseeq (M.contentType.take 10) (bytes "multipart/") = true := by
    rw [contentType, List.take_append_of_le_length (by decide)]
    decide
  have hname : strcaseeq (bytes "Content-Type") (bytes "Content-Type") = true := beq_self_eq_true _
  have hboundary := M.getBoundary_contentType p.boundary
  rw [MessageParser.header, MessageParser.call, if_pos hname, htype, decide_eq_true hlong, hboundary]
  rfl

theorem scanHeaders_head {m : List UInt8} (h : Placed m p.tok p.ends M.text 0) {fuel : ℕ}
    (hfuel : 2 ≤ fuel) :
    scanHeaders m fuel p =
      .ok (.crlf, { p with
        tok := p.tok + M.head.length
        boundary := M.boundary
        isMultipart := true
        calls := p.calls ++ [(p.level, .header (bytes "Content-Type") M.contentType)] }) := by
  have hbreak : udmIsNewLine (newLine M.crlf ++ M.body) = (newLine M.crlf).length := by cases M.crlf <;> rfl
  obtain ⟨c, r, hc, hline⟩ : ∃ c r, udmIsSpaceOrTab c = false ∧ newLine M.crlf ++ M.body = c :: r := by
    cases M.crlf
    · exact ⟨0x0A, M.body, rfl, rfl⟩
    · exact ⟨0x0D, 0x0A :: M.body, rfl, rfl⟩
  have htext : M.text = bytes "Content-Type" ++ 0x3A :: 0x20 :: (M.contentType ++ (newLine M.crlf ++ c :: r)) := by
    simp only [text, head, List.append_assoc, List.cons_append, hline]
  have hvalue : ∀ x ∈ M.contentType, x ≠ 0x0A ∧ x ≠ 0x0D := by
    intro x hx
    rcases List.mem_append.1 hx with hx | hx
    · exact (show ∀ x ∈ bytes "multipart/mixed; boundary=", x ≠ 0x0A ∧ x ≠ 0x0D by decide +kernel) x hx
    · rcases List.mem_append.1 (show x ∈ 0x22 :: M.boundary ++ [0x22] from hx) with hx | hx
      · rcases List.mem_cons.1 hx with hx | hx
        · exact hx ▸ by decide
        · have hbyte := M.boundary_bytes x hx
          exact ⟨fun heq => absurd hbyte (heq ▸ by decide), fun heq => absurd hbyte (heq ▸ by decide)⟩
      · exact List.mem_singleton.1 hx ▸ by decide
  have htrim : trimRight M.contentType = M.contentType := by
    rw [contentType, ← List.cons_append, ← List.append_assoc, trimRight, List.rdropWhile_concat_neg _ _ _ (by decide)]
  have hread := udmMessageScanHeader_line (htext ▸ h) (by decide +kernel) hvalue htrim hc
  have hhead : M.head.length = (bytes "Content-Type").length + 1 + 1 + M.contentType.length + (newLine M.crlf).length +
      (newLine M.crlf).length := by
    simp only [head, List.length_append, List.length_cons]
    omega
  have hnext : Placed m (p.tok + (bytes "Content-Type").length + 1 + 1 + M.contentType.length + (newLine M.crlf).length)
      p.ends (newLine M.crlf ++ M.body) 0 := by
    have hfront : M.text = bytes "Content-Type" ++ 0x3A :: 0x20 :: (M.contentType ++ newLine M.crlf) ++
        (newLine M.crlf ++ M.body) := by
      simp only [text, head, List.append_assoc, List.cons_append]
    rw [hfront] at h
    have hskip := h.skip (n := (bytes "Content-Type" ++ 0x3A :: 0x20 :: (M.contentType ++ newLine M.crlf)).length)
      (List.prefix_append _ _).length_le
    rw [List.drop_left] at hskip
    simpa only [List.length_append, List.length_cons, Nat.add_assoc, Nat.add_comm, Nat.add_left_comm] using hskip
  obtain ⟨fuel, rfl⟩ := Nat.exists_eq_add_of_le' hfuel
  rw [scanHeaders, hread, ok_bind]
  dsimp only
  rw [if_pos rfl, M.header_contentType, scanHeaders, udmMessageScanHeader]
  dsimp only
  rw [newLineAt_eq hnext, ok_bind, hbreak, if_pos (newLine_pos M.crlf).ne', MessageParser.advance]
  dsimp only
  have hfits := hnext.ends
  rw [List.length_append] at hfits
  rw [if_pos (by omega), ok_bind, ok_bind]
  dsimp only
  rw [if_neg (by decide), hhead]
  simp only [Nat.add_assoc]

theorem udmMessageParserExecWith_text (handler : ℕ → ℕ → ℕ → List (ℕ × Call)) :
    ∃ ok p, udmMessageParserExecWith (M.text ++ [0]) (fun level str length => .ok (handler level str length)) 0 0
      M.text.length = .ok (ok, p) ∧
      p.calls = M.opening ++ handlerCalls handler 0 (handed M.boundary M.head.length M.body) ++
        [(0, .event (bytes "message_leave"))] := by
  have hplaced : Placed (M.text ++ [0]) 0 (0 + M.text.length) M.text 0 := ⟨⟨[], rfl⟩, rfl⟩
  have hlong : 5 ≤ M.text.length := by
    rw [text, head, List.length_append, List.length_append]
    exact Nat.le_add_right_of_le (Nat.le_add_right_of_le (by decide))
  have hfrom : M.text.take 5 ≠ bytes "From " := by
    rw [text, head, List.append_assoc, List.take_append_of_le_length (by decide)]
    decide
  rw [udmMessageParserExecWith]
  dsimp only
  rw [if_neg (Nat.not_lt.2 hlong)]
  rcases scanFrom_eq (p := (MessageParser.mk 0 (0 + M.text.length) [] false [] 0 []).call
      (.event (bytes "message_enter"))) hplaced hlong with ⟨-, hscan⟩ | ⟨h, -⟩
  · have hbody : Placed (M.text ++ [0]) (0 + M.head.length) (0 + M.text.length) M.body 0 := by
      have hskip := hplaced.skip (n := M.head.length) (List.prefix_append _ _).length_le
      have hdrop : M.text.drop M.head.length = M.body := List.drop_left
      rwa [hdrop] at hskip
    obtain ⟨k, hk, -⟩ := findBoundaryIn_infix M.nul_not_mem
      (⟨M.lead, M.behindDelimiter M.parts, List.append_assoc _ _ _⟩ : M.delimiter <:+: M.body) []
    rw [List.append_nil] at hk
    rw [hscan, ok_bind]
    dsimp only
    rw [M.scanHeaders_head hplaced (by omega), ok_bind]
    dsimp only
    rw [if_pos rfl]
    obtain ⟨ok, p', hrun, hcalls⟩ := scanContent_run handler
      (p := ⟨0 + M.head.length, 0 + M.text.length, M.boundary, true, [], 0, [(0, .event (bytes "message_enter")),
        (0, .header (bytes "Content-Type") M.contentType)]⟩) M.nul_not_mem hbody rfl hk
    refine ⟨ok, p', hrun, hcalls.trans ?_⟩
    rw [Nat.zero_add]
    rfl
  · exact absurd h hfrom

theorem handlerCalls_inj {parts parts' : List (ℕ × List UInt8)}
    (h : handlerCalls (fun _ str _ => [(str, .content [])]) 0 parts =
      handlerCalls (fun _ str _ => [(str, .content [])]) 0 parts') : parts = parts' := by
  induction parts generalizing parts' with
  | nil =>
    cases parts' with
    | nil => rfl
    | cons part' parts' => exact nomatch h
  | cons part parts ih =>
    cases parts' with
    | nil => exact nomatch h
    | cons part' parts' =>
      simp only [handlerCalls, List.flatMap_cons, List.cons_append, List.nil_append, List.cons.injEq, Prod.mk.injEq,
        Call.part.injEq, true_and, and_true] at h
      rw [Prod.ext h.2.1 h.1, ih h.2.2]

theorem splitsUp_iff_handed : M.SplitsUp ↔ handed M.boundary M.head.length M.body = M.places := by
  constructor
  · intro h
    obtain ⟨ok, p, hrun, hcalls⟩ := h fun _ str _ => [(str, .content [])]
    obtain ⟨ok', p', hrun', hcalls'⟩ := M.udmMessageParserExecWith_text fun _ str _ => [(str, .content [])]
    have hsame : p = p' := congrArg Prod.snd (Except.ok.inj (hrun.symm.trans hrun'))
    rw [← hsame, hcalls] at hcalls'
    exact (handlerCalls_inj (List.append_cancel_left (List.append_cancel_right hcalls'))).symm
  · intro h handler
    obtain ⟨ok, p, hrun, hcalls⟩ := M.udmMessageParserExecWith_text handler
    rw [h] at hcalls
    exact ⟨ok, p, hrun, hcalls⟩

/-- A message is split into its parts if and only if it is clear, or without a boundary and without parts. -/
theorem splitsUp_iff : M.SplitsUp ↔ if M.boundary = [] then M.parts = [] else M.Clear := by
  rw [splitsUp_iff_handed]
  split_ifs with hempty
  · have hnone : handed M.boundary M.head.length M.body = [] := by
      rw [handed]
      cases findBoundaryIn 0 M.boundary M.body with
      | none => rfl
      | some k => exact if_pos hempty
    rw [hnone, places]
    cases M.parts with
    | nil => exact iff_of_true rfl rfl
    | cons part parts => exact iff_of_false (fun h => nomatch h) fun h => nomatch h
  · exact M.handed_iff M.head.length hempty

end Multipart

/-- A part of one line, with the boundary within it. -/
def withinLine : Multipart where
  boundary := [0x62]
  crlf := false
  preamble := none
  parts := [[0x78, 0x2D, 0x2D, 0x62, 0x79]]
  epilogue := none
  length_le := by decide
  boundary_bytes := by decide +kernel

/-- No line of a part begins with the boundary, but the part is split within a line. -/
theorem not_forall_splitsUp :
    ¬∀ M : Multipart, (∀ part ∈ M.parts, ∀ line ∈ part.splitOn 0x0A, ¬M.delimiter <+: line) → M.SplitsUp := by
  intro h
  have hsplits := withinLine.splitsUp_iff_handed.1 (h withinLine (by decide))
  have hclear := (withinLine.handed_iff _ (by decide)).1 hsplits
  exact (hclear.parts.1 _ (List.mem_singleton_self _)).free ⟨[0x78], [0x79, 0x0A], rfl⟩

end MnoGoSearch.Message
