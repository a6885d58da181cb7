import MnoGoSearch.Http.TransferDecode
import Mathlib

/-!
# Encoded words in headers

`UdmConvRFC1522` (`message.c`) cuts the value of a header into chunks, texts, line breaks and encoded words,
and converts one after the other. It stops at a word without an encoding or a known character set; at a word
without an end the chunk stays what it was the last time. `convRight_iff` says when the chunks are the value,
cut, and nothing is written behind the memory for the result.
-/

namespace MnoGoSearch.Message

open Http

/-! ## The chunks -/

/-- `UdmIsNewLine`, with the bytes up to the end. -/
def udmIsNewLine : List UInt8 → ℕ
  | 0x0A :: _ => 1
  | 0x0D :: 0x0A :: _ => 2
  | _ => 0

/-- `UdmIsSpaceOrTab`. -/
def udmIsSpaceOrTab (ch : UInt8) : Bool := ch == 0x20 || ch == 0x09

/-- Where two bytes stand one after the other. -/
def findPair (a b : UInt8) : List UInt8 → Option ℕ
  | [] => none
  | c :: s => if c = a ∧ s.head? = some b then some 0 else (findPair a b s).map (· + 1)

/-- `find_rfc1522_start`. -/
def findRfc1522Start (src : List UInt8) : Option ℕ := findPair 0x3D 0x3F src

/-- `find_rfc1522_end`. -/
def findRfc1522End (src : List UInt8) : Option ℕ := (findPair 0x3F 0x3D src).map (· + 2)

/-- The encodings. -/
inductive Encoding where
  /-- `Q`. -/
  | quotedPrintable
  /-- `B`. -/
  | base64
  deriving DecidableEq

/-- The letter between the two question marks. -/
def encodingOf (c : UInt8) : Option Encoding :=
  if c = 0x51 ∨ c = 0x71 then some .quotedPrintable else if c = 0x42 ∨ c = 0x62 then some .base64 else none

/-- What a conversion writes. -/
structure Converted where
  /-- What it returns the length of. -/
  out : List UInt8
  /-- How many bytes it writes behind that. -/
  behind : ℕ

/-- The bytes that are written fit into the room. -/
def Converted.Fits (r : Converted) (room : ℕ) : Prop := r.out.length + r.behind ≤ room

instance (r : Converted) (room : ℕ) : Decidable (r.Fits room) := inferInstanceAs (Decidable (_ ≤ _))

/-- Nothing is written. -/
def Converted.nothing : Converted := ⟨[], 0⟩

/-- The character sets, and the conversions from them to the one of the result. -/
structure Charsets (Cs : Type) where
  udmGetCharSet : List UInt8 → Option Cs
  /-- `UdmConv` with the conversion that is given, for a number of bytes in the memory for the result. -/
  udmConv : ℕ → List UInt8 → Converted
  /-- `UdmConv` from another character set, with `UDM_RECODE_HTML_NONASCII`. -/
  udmConvFrom : Cs → ℕ → List UInt8 → Converted

variable {Cs : Type} (conv : Charsets Cs)

/-- `rfc1522_charset`: the name as a string in 64 bytes. -/
def rfc1522Charset (name : List UInt8) : Option Cs := conv.udmGetCharSet ((name.takeWhile (· ≠ 0)).take 63)

/-- `find_rfc1522_content`, behind the first `n` bytes of `src`. -/
def findContentFrom (src : List UInt8) : ℕ → List UInt8 → Option (Encoding × Cs × ℕ)
  | n, a :: b :: c :: s =>
    if a = 0x3F ∧ c = 0x3F then
      match encodingOf b with
      | some encoding => (rfc1522Charset conv (src.take n)).map fun cs => (encoding, cs, n + 3)
      | none => findContentFrom src (n + 1) (b :: c :: s)
    else findContentFrom src (n + 1) (b :: c :: s)
  | _, _ => none

/-- `find_rfc1522_content`: the encoding, the character set, and where the text begins. -/
def findRfc1522Content (src : List UInt8) : Option (Encoding × Cs × ℕ) := findContentFrom conv src 0 src

/-- A line break and a blank, in front of a word that begins at `start`. -/
def foldLength (src : List UInt8) (start : ℕ) : Option ℕ :=
  let length := udmIsNewLine (src.take start)
  if length ≠ 0 ∧ udmIsSpaceOrTab (src.getD length 0) = true then some (length + 1) else none

/-- What is in a chunk. -/
inductive Part (Cs : Type) where
  /-- `UDM_RFC1522_TEXT`. -/
  | text
  /-- `UDM_RFC1522_LINEAR_WHITESPACE`. -/
  | space
  /-- `UDM_RFC1522_BASE64` and `UDM_RFC1522_QUOTED_PRINTABLE`. -/
  | word (encoding : Encoding) (cs : Cs) (content : List UInt8)

/-- What `rfc1522_chunk` finds. -/
inductive Chunk (Cs : Type) where
  /-- `UDM_RFC1522_EOL`; it returns true. -/
  | eol
  /-- `UDM_RFC1522_ERROR`; it returns true. -/
  | error
  /-- `UDM_RFC1522_ERROR`; it returns false, and has not set the chunk. -/
  | stale
  /-- It returns false, and the chunk has this length. -/
  | set (length : ℕ) (part : Part Cs)

/-- `rfc1522_chunk`. -/
def rfc1522Chunk (src : List UInt8) : Chunk Cs :=
  match findRfc1522Start src with
  | none => if src.length = 0 then .eol else .set src.length .text
  | some 0 =>
    match findRfc1522Content conv (src.drop 2) with
    | none => .error
    | some (encoding, cs, k) =>
      match findRfc1522End (src.drop (2 + k)) with
      | none => .stale
      | some e => .set (2 + k + e) (.word encoding cs ((src.drop (2 + k)).take (e - 2)))
  | some (k + 1) =>
    match foldLength src (k + 1) with
    | some n => .set n .space
    | none => .set (k + 1) .text

/-! ## The loop -/

/-- `UdmConvBase64` and `UdmConvQuotedPrintable`. -/
def convWord (room : ℕ) (encoding : Encoding) (cs : Cs) (content : List UInt8) : Converted :=
  match encoding with
  | .base64 =>
    let tmp := udmBase64Decode content
    match tmp.2 with
    | some n => conv.udmConvFrom cs room (tmp.1.take n)
    | none => .nothing
  | .quotedPrintable =>
    let tmp := udmQuotedPrintableDecode content content.length
    if 0 < tmp.length then conv.udmConvFrom cs room tmp else .nothing

/-- The `switch` of `UdmConvRFC1522`, for a chunk with these bytes. -/
def convPart (room : ℕ) (bytes : List UInt8) : Part Cs → Converted
  | .text => conv.udmConv room bytes
  | .space => .nothing
  | .word encoding cs content => convWord conv room encoding cs content

/-- A turn of the loop. -/
structure Turn where
  src : ℕ
  /-- `chunk.str`. -/
  str : ℕ
  /-- `chunk.length`. -/
  length : ℕ
  deriving DecidableEq

/-- How the loop ends. -/
inductive ConvEnd where
  /-- It returns: the turns, `src`, and what is written. -/
  | done (turns : List Turn) (src : ℕ) (dst : List UInt8)
  /-- It takes a chunk that has never been set. -/
  | unset
  /-- It writes behind the memory for the result. -/
  | overrun
  | more
  deriving DecidableEq

/-- The loop of `UdmConvRFC1522`, at most `fuel` turns, with `chunk` and the turns before. -/
def convLoop (s : List UInt8) (dstlen : ℕ) : ℕ → ℕ → Option (ℕ × ℕ) → List Turn → List UInt8 → ConvEnd
  | 0, _, _, _, _ => .more
  | fuel + 1, src, chunk, turns, dst =>
    if s.length < src then
      -- a text of srcend - src bytes as a size_t: `UdmConv` finds its end in front of it
      let length := s.length + 2 ^ 64 - src
      convLoop s dstlen fuel s.length (some (src, length)) (turns ++ [⟨src, src, length⟩]) dst
    else
      match rfc1522Chunk conv (s.drop src) with
      | .eol => .done turns src dst
      | .error => .done turns src dst
      | .stale =>
        match chunk with
        | none => .unset
        | some (str, length) => convLoop s dstlen fuel (src + length) chunk (turns ++ [⟨src, str, length⟩]) dst
      | .set length part =>
        let r := convPart conv (dstlen - dst.length) ((s.drop src).take length) part
        if r.Fits (dstlen - dst.length) then
          convLoop s dstlen fuel (src + length) (some (src, length)) (turns ++ [⟨src, src, length⟩]) (dst ++ r.out)
        else .overrun

/-- `UdmConvRFC1522`. -/
def udmConvRFC1522 (s : List UInt8) (dstlen : ℕ) : ConvEnd := convLoop conv s dstlen (s.length + 2) 0 none [] []

/-- The chunk of a turn has this byte. -/
def Turn.has (i : ℕ) (t : Turn) : Bool := decide (t.str ≤ i ∧ i < t.str + t.length)

/-- It returns, `src` has never been behind the end, each byte is in one chunk, and what is written fits. -/
def ConvRight (s : List UInt8) (dstlen : ℕ) (e : ConvEnd) : Prop :=
  ∃ turns src dst, e = .done turns src dst ∧ (∀ t ∈ turns, t.src ≤ s.length) ∧ src ≤ s.length ∧
    (∀ i < s.length, turns.countP (Turn.has i) = 1) ∧ dst.length ≤ dstlen

/-! ## Complete values -/

/-- Each word in the value has an encoding, a known character set and an end, and each conversion fits into the room
that those before it have left. -/
inductive Complete : ℕ → List UInt8 → Prop where
  | nil (room : ℕ) : Complete room []
  | last {room : ℕ} {s : List UInt8} (hs : s ≠ []) (hstart : findRfc1522Start s = none)
      (hfits : (conv.udmConv room s).Fits room) : Complete room s
  /-- A line break and a blank, in front of a word. -/
  | space {room k n : ℕ} {s : List UInt8} (hstart : findRfc1522Start s = some (k + 1))
      (hfold : foldLength s (k + 1) = some n) (hrest : Complete room (s.drop n)) : Complete room s
  /-- A text, in front of a word. -/
  | text {room k : ℕ} {s : List UInt8} (hstart : findRfc1522Start s = some (k + 1))
      (hfold : foldLength s (k + 1) = none) (hfits : (conv.udmConv room (s.take (k + 1))).Fits room)
      (hrest : Complete (room - (conv.udmConv room (s.take (k + 1))).out.length) (s.drop (k + 1))) : Complete room s
  | word {room k e : ℕ} {s : List UInt8} {encoding : Encoding} {cs : Cs} (hstart : findRfc1522Start s = some 0)
      (hcontent : findRfc1522Content conv (s.drop 2) = some (encoding, cs, k))
      (hend : findRfc1522End (s.drop (2 + k)) = some e)
      (hfits : (convWord conv room encoding cs ((s.drop (2 + k)).take (e - 2))).Fits room)
      (hrest : Complete (room - (convWord conv room encoding cs ((s.drop (2 + k)).take (e - 2))).out.length)
        (s.drop (2 + k + e))) : Complete room s

/-! ## What the chunks are -/

variable {s dst : List UInt8} {fuel dstlen src room n k : ℕ} {chunk : Option (ℕ × ℕ)} {turns : List Turn}
variable {part : Part Cs}

theorem findPair_some {a b : UInt8} (h : findPair a b s = some k) : k + 2 ≤ s.length ∧ s.getD k 0 = a := by
  induction s generalizing k with
  | nil => exact nomatch h
  | cons c s ih =>
    rw [findPair] at h
    split_ifs at h with hpair
    · rw [← Option.some.inj h]
      cases s with
      | nil => exact absurd hpair.2 (by simp)
      | cons d s => exact ⟨Nat.le_add_left _ _, hpair.1⟩
    · obtain ⟨j, hj, rfl⟩ := Option.map_eq_some_iff.1 h
      obtain ⟨hlength, hget⟩ := ih hj
      exact ⟨Nat.succ_le_succ hlength, hget⟩

theorem udmIsNewLine_le (s : List UInt8) : udmIsNewLine s ≤ s.length := by
  unfold udmIsNewLine
  split
  · exact Nat.le_add_left _ _
  · exact Nat.le_add_left _ _
  · exact Nat.zero_le _

theorem foldLength_some (hstart : findRfc1522Start s = some k) (h : foldLength s k = some n) :
    0 < n ∧ n ≤ k := by
  obtain ⟨-, hget⟩ := findPair_some hstart
  rw [foldLength] at h
  split_ifs at h with hfold
  have hle := udmIsNewLine_le (s.take k)
  rw [List.length_take] at hle
  have hne : udmIsNewLine (s.take k) ≠ k := by
    intro heq
    have hspace := hfold.2
    rw [heq, hget] at hspace
    exact absurd hspace (by decide)
  have hn := Option.some.inj h
  omega

variable {conv}

theorem length_of_rfc1522Chunk (h : rfc1522Chunk conv s = .set n part) : 0 < n ∧ n ≤ s.length := by
  unfold rfc1522Chunk at h
  split at h
  · split_ifs at h with hlength
    injection h with hn
    omega
  · rename_i hstart
    split at h
    · exact nomatch h
    · split at h
      · exact nomatch h
      · rename_i e hend
        injection h with hn
        obtain ⟨j, hj, rfl⟩ := Option.map_eq_some_iff.1 hend
        have hlength := (findPair_some hj).1
        rw [List.length_drop] at hlength
        omega
  · rename_i k hstart
    have hlength := (findPair_some hstart).1
    split at h
    · rename_i m hfold
      have hle := foldLength_some hstart hfold
      injection h with hn
      omega
    · injection h with hn
      omega

theorem eq_nil_of_eol (h : rfc1522Chunk conv s = .eol) : s = [] := by
  unfold rfc1522Chunk at h
  split at h
  · split_ifs at h with hlength
    exact List.length_eq_zero_iff.1 hlength
  · split at h
    · exact nomatch h
    · split at h
      · exact nomatch h
      · exact nomatch h
  · split at h
    · exact nomatch h
    · exact nomatch h

theorem rfc1522Chunk_nil : rfc1522Chunk conv [] = .eol := rfl

theorem complete_of_set (h : rfc1522Chunk conv s = .set n part) (hfits : (convPart conv room (s.take n) part).Fits room)
    (hrest : Complete conv (room - (convPart conv room (s.take n) part).out.length) (s.drop n)) :
    Complete conv room s := by
  unfold rfc1522Chunk at h
  split at h
  · rename_i hstart
    split_ifs at h with hlength
    injection h with hn hpart
    subst hn hpart
    rw [List.take_length] at hfits
    exact .last (fun hs => hlength (hs ▸ rfl)) hstart hfits
  · rename_i hstart
    split at h
    · exact nomatch h
    · rename_i encoding cs k hcontent
      split at h
      · exact nomatch h
      · rename_i e hend
        injection h with hn hpart
        subst hn hpart
        exact .word hstart hcontent hend hfits hrest
  · rename_i k hstart
    split at h
    · rename_i m hfold
      injection h with hn hpart
      subst hn hpart
      exact .space hstart hfold hrest
    · rename_i hfold
      injection h with hn hpart
      subst hn hpart
      exact .text hstart hfold hfits hrest

theorem Complete.cases_set (h : Complete conv room s) :
    s = [] ∨ ∃ n part, rfc1522Chunk conv s = .set n part ∧ (convPart conv room (s.take n) part).Fits room ∧
      Complete conv (room - (convPart conv room (s.take n) part).out.length) (s.drop n) := by
  cases h with
  | nil => exact .inl rfl
  | last hs hstart hfits =>
    have hlength : s.length ≠ 0 := fun h => hs (List.length_eq_zero_iff.1 h)
    refine .inr ⟨s.length, .text, ?_, ?_, ?_⟩
    · rw [rfc1522Chunk, hstart]
      exact if_neg hlength
    · rw [List.take_length]
      exact hfits
    · rw [List.drop_length]
      exact .nil _
  | space hstart hfold hrest =>
    refine .inr ⟨_, .space, ?_, Nat.zero_le _, hrest⟩
    rw [rfc1522Chunk, hstart]
    dsimp only
    rw [hfold]
  | text hstart hfold hfits hrest =>
    refine .inr ⟨_, .text, ?_, hfits, hrest⟩
    rw [rfc1522Chunk, hstart]
    dsimp only
    rw [hfold]
  | word hstart hcontent hend hfits hrest =>
    refine .inr ⟨_, .word _ _ _, ?_, hfits, hrest⟩
    rw [rfc1522Chunk, hstart]
    dsimp only
    rw [hcontent]
    dsimp only
    rw [hend]

/-! ## The turns -/

/-- The chunks of the turns are the first `src` bytes, cut. -/
def Tiled (turns : List Turn) (src : ℕ) : Prop := ∀ i, turns.countP (Turn.has i) = if i < src then 1 else 0

theorem tiled_nil : Tiled [] 0 := fun _ => rfl

theorem Tiled.append (h : Tiled turns src) (n : ℕ) : Tiled (turns ++ [⟨src, src, n⟩]) (src + n) := by
  intro i
  rw [List.countP_append, h i, List.countP_singleton]
  simp only [Turn.has, decide_eq_true_eq]
  split_ifs <;> omega

/-- What holds before each turn. -/
structure LoopInv (s : List UInt8) (src : ℕ) (chunk : Option (ℕ × ℕ)) (turns : List Turn) : Prop where
  src_le : src ≤ s.length
  turns_le : ∀ t ∈ turns, t.src ≤ s.length
  tiled : Tiled turns src
  chunk : ∀ str length, chunk = some (str, length) → str < src ∧ 0 < length

theorem loopInv_start (s : List UInt8) : LoopInv s 0 none [] :=
  ⟨Nat.zero_le _, fun _ ht => absurd ht List.not_mem_nil, tiled_nil, fun _ _ h => nomatch h⟩

theorem LoopInv.set (h : LoopInv s src chunk turns) (hset : rfc1522Chunk conv (s.drop src) = .set n part) :
    LoopInv s (src + n) (some (src, n)) (turns ++ [⟨src, src, n⟩]) := by
  obtain ⟨hpos, hle⟩ := length_of_rfc1522Chunk hset
  rw [List.length_drop] at hle
  have hsrc := h.src_le
  refine ⟨by omega, fun t ht => ?_, h.tiled.append n, fun str length heq => ?_⟩
  · rcases List.mem_append.1 ht with ht | ht
    · exact h.turns_le t ht
    · rw [List.mem_singleton.1 ht]
      exact hsrc
  · obtain ⟨rfl, rfl⟩ := Prod.mk.inj (Option.some.inj heq)
    exact ⟨Nat.lt_add_of_pos_right hpos, hpos⟩

theorem convLoop_past
    (h : s.length < src) :
    convLoop conv s dstlen (fuel + 1) src chunk turns dst =
      convLoop conv s dstlen fuel s.length (some (src, s.length + 2 ^ 64 - src))
        (turns ++ [⟨src, src, s.length + 2 ^ 64 - src⟩]) dst := if_pos h

theorem convLoop_within
    (h : ¬s.length < src) :
    convLoop conv s dstlen (fuel + 1) src chunk turns dst =
      match rfc1522Chunk conv (s.drop src) with
      | .eol => .done turns src dst
      | .error => .done turns src dst
      | .stale =>
        match chunk with
        | none => .unset
        | some (str, length) => convLoop conv s dstlen fuel (src + length) chunk (turns ++ [⟨src, str, length⟩]) dst
      | .set length part =>
        let r := convPart conv (dstlen - dst.length) ((s.drop src).take length) part
        if r.Fits (dstlen - dst.length) then
          convLoop conv s dstlen fuel (src + length) (some (src, length)) (turns ++ [⟨src, src, length⟩]) (dst ++ r.out)
        else .overrun := if_neg h

theorem isPrefix_turns {turns' : List Turn}
    {dst' : List UInt8} {src' : ℕ} (h : convLoop conv s dstlen fuel src chunk turns dst = .done turns' src' dst') :
    turns <+: turns' := by
  induction fuel generalizing src chunk turns dst with
  | zero => exact nomatch h
  | succ fuel ih =>
    have happend : ∀ t : Turn, turns ++ [t] <+: turns' → turns <+: turns' := fun t ht =>
      (List.prefix_append turns [t]).trans ht
    by_cases hpast : s.length < src
    · rw [convLoop_past hpast] at h
      exact happend _ (ih h)
    · rw [convLoop_within hpast] at h
      split at h
      · injection h with hturns
        exact hturns ▸ List.prefix_rfl
      · injection h with hturns
        exact hturns ▸ List.prefix_rfl
      · split at h
        · exact nomatch h
        · exact happend _ (ih h)
      · dsimp only at h
        split_ifs at h
        exact happend _ (ih h)

section Loop

variable {s : List UInt8} {dstlen fuel src : ℕ} {chunk : Option (ℕ × ℕ)} {turns : List Turn} {dst : List UInt8}

/-- By induction on the turns: the loop makes one for each chunk of a complete value. -/
theorem convRight_of_complete (hcomplete : Complete conv (dstlen - dst.length) (s.drop src))
    (hinv : LoopInv s src chunk turns) (hdst : dst.length ≤ dstlen) (hfuel : s.length - src < fuel) :
    ConvRight s dstlen (convLoop conv s dstlen fuel src chunk turns dst) := by
  have hsrc := hinv.src_le
  induction fuel generalizing src chunk turns dst with
  | zero => exact absurd hfuel (Nat.not_lt_zero _)
  | succ fuel ih =>
    rw [convLoop_within (Nat.not_lt.2 hsrc)]
    rcases hcomplete.cases_set with hnil | ⟨n, part, hset, hfits, hrest⟩
    · rw [hnil]
      have hend : src = s.length := by
        have hlength := congrArg List.length hnil
        rw [List.length_drop, List.length_nil] at hlength
        omega
      refine ⟨turns, src, dst, rfl, hinv.turns_le, hsrc, fun i hi => ?_, hdst⟩
      rw [hinv.tiled i, hend, if_pos hi]
    · have hle := (hinv.set hset).src_le
      have hpos := (length_of_rfc1522Chunk hset).1
      rw [hset]
      dsimp only
      rw [if_pos hfits]
      refine ih ?_ (hinv.set hset) ?_ (by omega) hle
      · rw [List.length_append, ← Nat.sub_sub, ← List.drop_drop]
        exact hrest
      · rw [Converted.Fits] at hfits
        rw [List.length_append]
        omega

/-- By induction on the turns: a chunk that is not set is the one of an earlier turn once more, and what is behind
an error is in no chunk. -/
theorem complete_of_convRight (hinv : LoopInv s src chunk turns)
    (hright : ConvRight s dstlen (convLoop conv s dstlen fuel src chunk turns dst)) :
    Complete conv (dstlen - dst.length) (s.drop src) := by
  have hsrc := hinv.src_le
  induction fuel generalizing src chunk turns dst with
  | zero =>
    obtain ⟨_, _, _, h, -⟩ := hright
    exact nomatch h
  | succ fuel ih =>
    rw [convLoop_within (Nat.not_lt.2 hsrc)] at hright
    split at hright
    · rename_i heol
      rw [eq_nil_of_eol heol]
      exact .nil _
    · rename_i herror
      obtain ⟨turns', src', dst', h, -, -, hcover, -⟩ := hright
      injection h with hturns
      have hlt : src < s.length := by
        by_contra hge
        rw [List.drop_eq_nil_of_le (by omega), rfc1522Chunk_nil] at herror
        exact nomatch herror
      have hzero := hinv.tiled src
      rw [if_neg (Nat.lt_irrefl src), hturns, hcover src hlt] at hzero
      exact absurd hzero (by decide)
    · split at hright
      · obtain ⟨_, _, _, h, -⟩ := hright
        exact nomatch h
      · rename_i str length
        obtain ⟨turns', src', dst', h, -, -, hcover, -⟩ := hright
        obtain ⟨hstr, hlength⟩ := hinv.chunk str length rfl
        have hle := (isPrefix_turns h).sublist.countP_le (p := Turn.has str)
        have hhas : Turn.has str ⟨src, str, length⟩ = true := by
          simp only [Turn.has, decide_eq_true_eq]
          omega
        rw [hcover str (by omega), List.countP_append, hinv.tiled str, if_pos hstr, List.countP_singleton,
          if_pos hhas] at hle
        exact absurd hle (by decide)
    · rename_i n part hset
      have hle := (hinv.set hset).src_le
      dsimp only at hright
      split_ifs at hright with hfits
      · have hrest := ih (hinv.set hset) hright hle
        rw [List.length_append, ← Nat.sub_sub, ← List.drop_drop] at hrest
        exact complete_of_set hset hfits hrest
      · obtain ⟨_, _, _, h, -⟩ := hright
        exact nomatch h

/-- How many turns are left; behind the end there is one more. -/
def turnsLeft (s : List UInt8) (src : ℕ) : ℕ :=
  if src < s.length then s.length - src + 2 else if src = s.length then 1 else 2

theorem turnsLeft_pos (s : List UInt8) (src : ℕ) : 0 < turnsLeft s src := by
  rw [turnsLeft]
  split_ifs
  · exact Nat.succ_pos _
  · exact Nat.one_pos
  · exact Nat.two_pos

theorem convLoop_end : convLoop conv s dstlen (fuel + 1) s.length chunk turns dst = .done turns s.length dst := by
  rw [convLoop_within (Nat.lt_irrefl _), List.drop_length, rfc1522Chunk_nil]

theorem turnsLeft_lt (h : src < s.length) (hn : 0 < n) : turnsLeft s (src + n) < turnsLeft s src := by
  rw [turnsLeft, turnsLeft, if_pos h]
  split_ifs <;> omega

/-- **The loop ends** for every value. -/
theorem convLoop_ends (hchunk : ∀ str length, chunk = some (str, length) → 0 < length)
    (hfuel : turnsLeft s src ≤ fuel) : convLoop conv s dstlen fuel src chunk turns dst ≠ .more := by
  induction fuel generalizing src chunk turns dst with
  | zero => exact absurd (turnsLeft_pos s src) (by omega)
  | succ fuel ih =>
    rcases Nat.lt_trichotomy s.length src with hpast | rfl | hlt
    · rw [convLoop_past hpast]
      have htwo : turnsLeft s src = 2 := by rw [turnsLeft, if_neg (by omega), if_neg (by omega)]
      obtain ⟨m, rfl⟩ : ∃ m, fuel = m + 1 := ⟨fuel - 1, by omega⟩
      rw [convLoop_end]
      exact nofun
    · rw [convLoop_end]
      exact nofun
    · rw [convLoop_within (Nat.not_lt.2 hlt.le)]
      split
      · exact nofun
      · exact nofun
      · split
        · exact nofun
        · rename_i str length
          have hdown := turnsLeft_lt hlt (hchunk str length rfl)
          exact ih hchunk (by omega)
      · rename_i n part hset
        dsimp only
        split
        · have hpos := (length_of_rfc1522Chunk hset).1
          have hdown := turnsLeft_lt hlt hpos
          refine ih (fun str length h => ?_) (by omega)
          obtain ⟨rfl, rfl⟩ := Prod.mk.inj (Option.some.inj h)
          exact hpos
        · exact nofun

end Loop

/-- **The chunks are the value, cut**, and what is written fits, if and only if the value is complete. -/
theorem convRight_iff (conv : Charsets Cs) (s : List UInt8) (dstlen : ℕ) :
    ConvRight s dstlen (udmConvRFC1522 conv s dstlen) ↔ Complete conv dstlen s := by
  have hinv := loopInv_start s
  constructor
  · intro h
    exact complete_of_convRight hinv h
  · intro h
    show ConvRight s dstlen (convLoop conv s dstlen (s.length + 2) 0 none [] [])
    exact convRight_of_complete h hinv (Nat.zero_le _) (by omega)

/-- Character sets that are all the same: each byte is copied as long as there is room. -/
def copying : Charsets Unit := ⟨fun _ => some (), fun room s => ⟨s.take room, 0⟩, fun _ room s => ⟨s.take room, 0⟩⟩

/-- `aaaaaaaaaaaaaaaaaaaa=?x?Q?a`, a word without an end behind a text that is longer. -/
def openWord : List UInt8 := List.replicate 20 0x61 ++ [0x3D, 0x3F, 0x78, 0x3F, 0x51, 0x3F, 0x61]

/-- The source position passes the end of the word. -/
theorem not_convRight :
    ¬∀ (conv : Charsets Unit) (s : List UInt8) (dstlen : ℕ),
      (∀ room s, (conv.udmConv room s).Fits room) → (∀ cs room s, (conv.udmConvFrom cs room s).Fits room) →
        ConvRight s dstlen (udmConvRFC1522 conv s dstlen) := by
  intro h
  have hfits : ∀ (room : ℕ) (s : List UInt8), Converted.Fits ⟨s.take room, 0⟩ room := fun room s =>
    List.length_take_le room s
  obtain ⟨turns, src, dst, hdone, hturns, -⟩ := h copying openWord 100 hfits fun _ => hfits
  have hrun : udmConvRFC1522 copying openWord 100 =
      .done [⟨0, 0, 20⟩, ⟨20, 0, 20⟩, ⟨40, 40, 2 ^ 64 - 13⟩] 27 (List.replicate 20 0x61) := by decide
  rw [hrun] at hdone
  injection hdone with hlist
  have hpast := hturns ⟨40, 40, 2 ^ 64 - 13⟩ (hlist ▸ by simp)
  exact absurd hpast (by decide)

end MnoGoSearch.Message
