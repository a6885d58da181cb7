import MnoGoSearch.Http.DocBuffer
import MnoGoSearch.Url.Idempotent
import Mathlib

/-!
# The header of a content in gzip format

`UdmDocUnGzip` (`contentencoding.c`) skips the fields of the header with a pointer and a size, and does not
compare what it skips with what is left. Here are these two, as the code has them; a read outside the
content ends the run. `gzipHeaderSafe_iff` says for which contents there is none and the size stays above
zero, and that the data of a member get to `inflate`. `udmDocUnGzip`, which works with the bytes that are
left, does what this run does (`udmDocUnGzip_eq_gzRun`).
-/

namespace MnoGoSearch.Http

open Url Words

/-! ## The run over the header -/

/-- `cpData` and `csize`. -/
structure GzPos where
  /-- `cpData - Doc->Buf.content`. -/
  cpData : ℕ
  csize : ℕ
  /-- A subtraction from the size has gone below zero. -/
  wrapped : Bool
  deriving DecidableEq

/-- A difference of two `size_t`. -/
def sizeSub (a b : ℕ) : ℕ := if b ≤ a then a - b else a + 2 ^ 64 - b

theorem sizeSub_of_le {a b : ℕ} (h : b ≤ a) : sizeSub a b = a - b := if_pos h

/-- `cpData += n; csize -= n`. -/
def GzPos.advance (p : GzPos) (n : ℕ) : GzPos :=
  ⟨p.cpData + n, sizeSub p.csize n, p.wrapped || decide (p.csize < n)⟩

/-- `FLG.FEXTRA`; nothing if a byte outside the content is read. -/
def extraStep (s : List UInt8) (flags : UInt8) (p : GzPos) : Option GzPos :=
  if flags &&& 4 ≠ 0 then
    (s[p.cpData + 1]?).bind fun hi => (s[p.cpData]?).map fun lo => p.advance (hi.toNat * 256 + lo.toNat + 2)
  else some p

/-- `while (*cpData != '\0') cpData++,csize--; cpData++; csize--;`. -/
def stringLoop (s : List UInt8) (p : GzPos) : Option GzPos :=
  if h : p.cpData < s.length then
    if s[p.cpData] = 0 then some (p.advance 1) else stringLoop s (p.advance 1)
  else none
  termination_by s.length - p.cpData
  decreasing_by
    simp only [GzPos.advance]
    omega

/-- `FLG.FNAME` or `FLG.FCOMMENT`. -/
def stringStep (s : List UInt8) (flags mask : UInt8) (p : GzPos) : Option GzPos :=
  if flags &&& mask ≠ 0 then stringLoop s p else some p

/-- `FLG.FHCRC`. -/
def crcStep (flags : UInt8) (p : GzPos) : Option GzPos := some (if flags &&& 2 ≠ 0 then p.advance 2 else p)

/-- All fields, from the end of the ten bytes. -/
def headerSteps (s : List UInt8) (flags : UInt8) (p : GzPos) : Option GzPos :=
  (((extraStep s flags p).bind (stringStep s flags 8)).bind (stringStep s flags 16)).bind (crcStep flags)

/-- How `UdmDocUnGzip` gets on until `inflate`. -/
inductive GzRun
  | failed
  /-- It reads outside the content. -/
  | outside
  /-- It has these bytes for `inflate`. -/
  | data (wrapped : Bool) (next_in : List UInt8)
  deriving DecidableEq

/-- `memcpy` and `avail_in`, which has 32 bits. -/
def handOver (s : List UInt8) (p : GzPos) : GzRun :=
  if p.csize = 0 ∨ p.cpData + p.csize ≤ s.length then
    .data (p.wrapped || decide (p.csize < 8))
      (((s.drop p.cpData).take p.csize).take (sizeSub p.csize 8 % 2 ^ 32))
  else .outside

/-- `UdmDocUnGzip` until `inflate`, for a content. -/
def gzRun (s : List UInt8) : GzRun :=
  if s.length ≤ 10 then .failed
  else if s.take 2 ≠ [0x1F, 0x8B] then .failed
  else
    match headerSteps s (s.getD 3 0) ⟨10, s.length - 10, false⟩ with
    | none => .outside
    | some p => handOver s p

/-! ## Members -/

/-- The length of the extra field, and the field. -/
def IsExtra (flags : UInt8) (f : List UInt8) : Prop :=
  if flags &&& 4 ≠ 0 then
    ∃ (lo hi : UInt8) (field : List UInt8), field.length = hi.toNat * 256 + lo.toNat ∧ f = lo :: hi :: field
  else f = []

/-- A name or a comment, with its NUL. -/
def IsText (flags mask : UInt8) (f : List UInt8) : Prop :=
  if flags &&& mask ≠ 0 then ∃ text : CString, f = text.val ++ [0] else f = []

/-- The sum of the header. -/
def IsCrc (flags : UInt8) (f : List UInt8) : Prop := if flags &&& 2 ≠ 0 then f.length = 2 else f = []

/-- The parts of a content in gzip format, as its flags announce them. -/
structure GzParts where
  /-- The magic bytes, the method, the flags, the time, and two more. -/
  head : List UInt8
  extra : List UInt8
  name : List UInt8
  comment : List UInt8
  hcrc : List UInt8
  deflated : List UInt8
  /-- The sum and the length of the data. -/
  trailer : List UInt8
  length_head : head.length = 10
  magic : head.take 2 = [0x1F, 0x8B]
  isExtra : IsExtra (head.getD 3 0) extra
  isName : IsText (head.getD 3 0) 8 name
  isComment : IsText (head.getD 3 0) 16 comment
  isCrc : IsCrc (head.getD 3 0) hcrc
  length_trailer : trailer.length = 8

/-- The content. -/
def GzParts.bytes (m : GzParts) : List UInt8 :=
  m.head ++ (m.extra ++ (m.name ++ (m.comment ++ (m.hcrc ++ (m.deflated ++ m.trailer)))))

/-- A member as it should be: the method is `deflate`, and the reserved flags are 0. -/
def GzParts.WellFormed (m : GzParts) : Prop := m.head.getD 2 0 = 8 ∧ m.head.getD 3 0 &&& 0xE0 = 0

/-- Nothing outside the content is read, the size does not go below zero, and of a member the data are handed over. -/
def GzipHeaderSafe (s : List UInt8) : Prop :=
  (gzRun s = .failed ∨ ∃ next_in, gzRun s = .data false next_in) ∧
    ∀ m : GzParts, m.WellFormed → m.bytes = s → gzRun s = .data false m.deflated

/-! ## The pointer and the bytes that are left -/

/-- The pointer and the size stand for the bytes `rest`. -/
structure GzPos.At (s : List UInt8) (p : GzPos) (rest : List UInt8) : Prop where
  le : p.cpData ≤ s.length
  drop : s.drop p.cpData = rest
  csize : p.csize = rest.length
  wrapped : p.wrapped = false

/-- The code is where `r` is; if there is no `r`, it has read outside, or the size has wrapped. -/
def Tracks (s : List UInt8) (o : Option GzPos) : Option (List UInt8) → Prop
  | some rest => ∃ p, o = some p ∧ p.At s rest
  | none => ∀ p, o = some p → p.wrapped = true

/-- A step does not take back that the size has wrapped. -/
def KeepsWrapped (f : GzPos → Option GzPos) : Prop := ∀ p q, p.wrapped = true → f p = some q → q.wrapped = true

variable {s : List UInt8} {p : GzPos}

theorem Tracks.bind {o : Option GzPos} {r : Option (List UInt8)} {f : GzPos → Option GzPos}
    {g : List UInt8 → Option (List UInt8)} (h : Tracks s o r) (hf : ∀ p rest, p.At s rest → Tracks s (f p) (g rest))
    (hwrapped : KeepsWrapped f) : Tracks s (o.bind f) (r.bind g) := by
  cases r with
  | some rest =>
    obtain ⟨p, rfl, hp⟩ := h
    exact hf p rest hp
  | none =>
    intro q hq
    obtain ⟨p, hp, hfp⟩ := Option.bind_eq_some_iff.1 hq
    exact hwrapped p q (h p hp) hfp

theorem GzPos.advance_wrapped (h : p.wrapped = true) (n : ℕ) : (p.advance n).wrapped = true := by
  simp [GzPos.advance, h]

section At

variable {s rest : List UInt8} {p : GzPos} {n : ℕ}

theorem GzPos.At.length_eq (h : p.At s rest) : p.cpData + rest.length = s.length := by
  have hlength := congrArg List.length h.drop
  rw [List.length_drop] at hlength
  have hle := h.le
  omega

theorem GzPos.At.getElem? (h : p.At s rest) (i : ℕ) : s[p.cpData + i]? = rest[i]? := by
  rw [← h.drop, List.getElem?_drop]

theorem GzPos.At.advance (h : p.At s rest) (hn : n ≤ rest.length) : (p.advance n).At s (rest.drop n) := by
  have hlength := h.length_eq
  have hsize := h.csize
  refine ⟨?_, ?_, ?_, ?_⟩
  · simp only [GzPos.advance]
    omega
  · rw [GzPos.advance, ← List.drop_drop, h.drop]
  · show sizeSub p.csize n = _
    rw [sizeSub_of_le (hsize ▸ hn), hsize, List.length_drop]
  · rw [GzPos.advance, h.wrapped, Bool.false_or, decide_eq_false (by omega)]

theorem GzPos.At.advance_wrapped (h : p.At s rest) (hn : rest.length < n) : (p.advance n).wrapped = true := by
  have hsize := h.csize
  rw [GzPos.advance, decide_eq_true (by omega), Bool.or_true]

/-! ### The fields -/

theorem skipExtra_short {flags : UInt8} (hflag : flags &&& 4 ≠ 0) (h : rest.length < 2) :
    skipExtra flags rest = none := by
  rw [skipExtra, if_pos hflag]
  dsimp only
  rw [if_neg (by omega)]

theorem skipExtra_cons {flags : UInt8} (hflag : flags &&& 4 ≠ 0) (lo hi : UInt8) (field : List UInt8) :
    skipExtra flags (lo :: hi :: field) =
      if hi.toNat * 256 + lo.toNat + 2 ≤ (lo :: hi :: field).length then
        some ((lo :: hi :: field).drop (hi.toNat * 256 + lo.toNat + 2))
      else none := by
  rw [skipExtra, if_pos hflag]
  rfl

theorem tracks_extraStep (flags : UInt8) (h : p.At s rest) : Tracks s (extraStep s flags p) (skipExtra flags rest) := by
  have h0 := h.getElem? 0
  rw [Nat.add_zero] at h0
  by_cases hflag : flags &&& 4 ≠ 0
  · rw [extraStep, if_pos hflag, h.getElem? 1, h0]
    rcases rest with _ | ⟨lo, _ | ⟨hi, field⟩⟩
    · rw [skipExtra_short hflag (by simp)]
      exact fun q hq => nomatch hq
    · rw [skipExtra_short hflag (by simp)]
      exact fun q hq => nomatch hq
    · rw [skipExtra_cons hflag]
      split
      · rename_i hle
        exact ⟨_, rfl, h.advance hle⟩
      · rename_i hlt
        intro q hq
        rw [← Option.some.inj hq]
        exact h.advance_wrapped (by omega)
  · rw [extraStep, if_neg hflag, skipExtra, if_neg hflag]
    exact ⟨p, rfl, h⟩

theorem stringLoop_cons {c : UInt8} {rest : List UInt8} (h : p.At s (c :: rest)) :
    stringLoop s p = if c = 0 then some (p.advance 1) else stringLoop s (p.advance 1) := by
  have hlength := h.length_eq
  rw [List.length_cons] at hlength
  have hlt : p.cpData < s.length := by omega
  have hc := h.getElem? 0
  rw [Nat.add_zero, List.getElem?_eq_getElem hlt, List.getElem?_cons_zero, Option.some_inj] at hc
  rw [stringLoop, dif_pos hlt, hc]

theorem stringLoop_nil (h : p.At s []) : stringLoop s p = none := by
  have hlength := h.length_eq
  rw [List.length_nil, Nat.add_zero] at hlength
  rw [stringLoop, dif_neg (by omega)]

theorem tracks_stringLoop (h : p.At s rest) :
    Tracks s (stringLoop s p) (if 0 ∈ rest then some (rest.dropWhile (· ≠ 0)).tail else none) := by
  induction rest generalizing p with
  | nil =>
    rw [stringLoop_nil h, if_neg List.not_mem_nil]
    exact fun q hq => nomatch hq
  | cons c rest ih =>
    have hnext : (p.advance 1).At s rest := h.advance (Nat.succ_le_of_lt (Nat.succ_pos _))
    rw [stringLoop_cons h]
    by_cases hc : c = 0
    · rw [if_pos hc, if_pos (by rw [hc]; exact List.mem_cons_self), List.dropWhile_cons_of_neg (by simp [hc])]
      exact ⟨_, rfl, hnext⟩
    · rw [if_neg hc, List.dropWhile_cons_of_pos (by simp [hc])]
      have hmem : 0 ∈ c :: rest ↔ 0 ∈ rest := by
        rw [List.mem_cons, or_iff_right (Ne.symm hc)]
      simp only [hmem]
      exact ih hnext

theorem tracks_stringStep (flags mask : UInt8) (h : p.At s rest) :
    Tracks s (stringStep s flags mask p) (skipString flags mask rest) := by
  rw [stringStep, skipString]
  split
  · exact tracks_stringLoop h
  · exact ⟨p, rfl, h⟩

theorem tracks_crcStep (flags : UInt8) (h : p.At s rest) : Tracks s (crcStep flags p) (skipCrc flags rest) := by
  rw [crcStep, skipCrc]
  split
  · split
    · rename_i hle
      exact ⟨_, rfl, h.advance hle⟩
    · rename_i hlt
      intro q hq
      rw [← Option.some.inj hq]
      exact h.advance_wrapped (by omega)
  · exact ⟨p, rfl, h⟩

end At

theorem stringLoop_wrapped {q : GzPos} (hp : p.wrapped = true) (h : stringLoop s p = some q) : q.wrapped = true := by
  induction p using stringLoop.induct s with
  | case1 p hlt hc =>
    rw [stringLoop, dif_pos hlt, if_pos hc] at h
    rw [← Option.some.inj h]
    exact GzPos.advance_wrapped hp 1
  | case2 p hlt hc ih =>
    rw [stringLoop, dif_pos hlt, if_neg hc] at h
    exact ih (GzPos.advance_wrapped hp 1) h
  | case3 p hlt =>
    rw [stringLoop, dif_neg hlt] at h
    exact nomatch h

theorem keepsWrapped_stringStep (s : List UInt8) (flags mask : UInt8) : KeepsWrapped (stringStep s flags mask) := by
  intro p q hp h
  rw [stringStep] at h
  split at h
  · exact stringLoop_wrapped hp h
  · exact Option.some.inj h ▸ hp

theorem keepsWrapped_crcStep (flags : UInt8) : KeepsWrapped (crcStep flags) := by
  intro p q hp h
  rw [crcStep] at h
  rw [← Option.some.inj h]
  split
  · exact GzPos.advance_wrapped hp 2
  · exact hp

/-- What `udmDocUnGzip` skips of a content. -/
def skipHeader (flags : UInt8) (rest : List UInt8) : Option (List UInt8) :=
  (((skipExtra flags rest).bind (skipString flags 8)).bind (skipString flags 16)).bind (skipCrc flags)

variable {rest : List UInt8}

theorem tracks_headerSteps (flags : UInt8) (h : p.At s rest) :
    Tracks s (headerSteps s flags p) (skipHeader flags rest) := by
  refine Tracks.bind (Tracks.bind (Tracks.bind (tracks_extraStep flags h) ?_ ?_) ?_ ?_) ?_ ?_
  · exact fun p rest hp => tracks_stringStep flags 8 hp
  · exact keepsWrapped_stringStep s flags 8
  · exact fun p rest hp => tracks_stringStep flags 16 hp
  · exact keepsWrapped_stringStep s flags 16
  · exact fun p rest hp => tracks_crcStep flags hp
  · exact keepsWrapped_crcStep flags

/-! ## What is handed over -/

/-- The content is long enough and has the magic bytes. -/
def HasMagic (s : List UInt8) : Prop := 10 < s.length ∧ s.take 2 = [0x1F, 0x8B]

section Run

variable {s : List UInt8}

theorem gzRun_of_not_hasMagic (h : ¬HasMagic s) : gzRun s = .failed := by
  rw [gzRun]
  split_ifs with hshort hmagic
  · rfl
  · rfl
  · exact absurd ⟨by omega, not_not.1 hmagic⟩ h

theorem gzRun_of_hasMagic (h : HasMagic s) :
    gzRun s =
      match headerSteps s (s.getD 3 0) ⟨10, s.length - 10, false⟩ with
      | none => .outside
      | some p => handOver s p := by
  have hlong := h.1
  rw [gzRun, if_neg (by omega), if_neg (not_not.2 h.2)]

theorem at_header (h : HasMagic s) : GzPos.At s ⟨10, s.length - 10, false⟩ (s.drop 10) :=
  ⟨h.1.le, rfl, List.length_drop.symm, rfl⟩

theorem gzData_eq (s : List UInt8) :
    gzData s = (skipHeader (s.getD 3 0) (s.drop 10)).bind fun s =>
      if 8 ≤ s.length then some (s.take (s.length - 8)) else none := rfl

theorem handOver_of_at (h : p.At s rest) :
    handOver s p = .data (decide (rest.length < 8)) (rest.take (sizeSub rest.length 8 % 2 ^ 32)) := by
  have hlength := h.length_eq
  rw [handOver, h.csize, if_pos (.inr (by omega)), h.wrapped, Bool.false_or, h.drop, List.take_length]

theorem handOver_wrapped (h : p.wrapped = true) :
    handOver s p = .outside ∨ ∃ next_in, handOver s p = .data true next_in := by
  rw [handOver, h, Bool.true_or]
  split
  · exact .inr ⟨_, rfl⟩
  · exact .inl rfl

theorem gzRun_of_gzData {data : List UInt8} (h : HasMagic s) (hdata : gzData s = some data) :
    gzRun s = .data false (data.take (data.length % 2 ^ 32)) := by
  rw [gzData_eq] at hdata
  obtain ⟨rest, hrest, htrailer⟩ := Option.bind_eq_some_iff.1 hdata
  have htrack := tracks_headerSteps (s.getD 3 0) (at_header h)
  rw [hrest] at htrack
  obtain ⟨p, hp, hat⟩ := htrack
  split_ifs at htrailer with hle
  have hlength : data.length = rest.length - 8 := by
    rw [← Option.some.inj htrailer, List.length_take]
    omega
  have htake : data.take (data.length % 2 ^ 32) = rest.take (data.length % 2 ^ 32) := by
    have hmod := Nat.mod_le data.length (2 ^ 32)
    rw [← Option.some.inj htrailer, List.take_take, Option.some.inj htrailer, min_eq_left (hlength ▸ hmod)]
  rw [gzRun_of_hasMagic h, hp]
  show handOver s p = _
  rw [handOver_of_at hat, sizeSub_of_le hle, decide_eq_false (by omega), htake, hlength]

theorem gzRun_of_gzData_none (h : HasMagic s) (hdata : gzData s = none) :
    gzRun s = .outside ∨ ∃ next_in, gzRun s = .data true next_in := by
  have htrack := tracks_headerSteps (s.getD 3 0) (at_header h)
  rw [gzRun_of_hasMagic h]
  rw [gzData_eq] at hdata
  cases hrest : skipHeader (s.getD 3 0) (s.drop 10) with
  | none =>
    rw [hrest] at htrack
    cases hp : headerSteps s (s.getD 3 0) ⟨10, s.length - 10, false⟩ with
    | none => exact .inl rfl
    | some p => exact handOver_wrapped (htrack p hp)
  | some rest =>
    rw [hrest] at htrack hdata
    obtain ⟨p, hp, hat⟩ := htrack
    rw [Option.bind_some] at hdata
    split_ifs at hdata with hle
    rw [hp]
    show handOver s p = _ ∨ ∃ next_in, handOver s p = _
    rw [handOver_of_at hat, decide_eq_true (by omega)]
    exact .inr ⟨_, rfl⟩

end Run

/-! ## The parts -/

variable {flags : UInt8}

theorem skipExtra_eq_some_iff : skipExtra flags s = some rest ↔ ∃ f, IsExtra flags f ∧ s = f ++ rest := by
  by_cases hflag : flags &&& 4 ≠ 0
  · simp only [IsExtra, if_pos hflag]
    constructor
    · intro h
      rcases s with _ | ⟨lo, _ | ⟨hi, field⟩⟩
      · rw [skipExtra_short hflag (by simp)] at h
        exact nomatch h
      · rw [skipExtra_short hflag (by simp)] at h
        exact nomatch h
      · rw [skipExtra_cons hflag] at h
        split_ifs at h with hle
        rw [List.length_cons, List.length_cons] at hle
        refine ⟨lo :: hi :: field.take (hi.toNat * 256 + lo.toNat), ⟨lo, hi, _, ?_, rfl⟩, ?_⟩
        · rw [List.length_take]
          omega
        · rw [← Option.some.inj h, List.drop_succ_cons, List.drop_succ_cons, List.cons_append, List.cons_append,
            List.take_append_drop]
    · rintro ⟨f, ⟨lo, hi, field, hlength, rfl⟩, rfl⟩
      rw [List.cons_append, List.cons_append, skipExtra_cons hflag, ← hlength, if_pos (by simp),
        List.drop_succ_cons, List.drop_succ_cons, List.drop_left]
  · simp only [IsExtra, if_neg hflag]
    rw [skipExtra, if_neg hflag]
    constructor
    · intro h
      exact ⟨[], rfl, Option.some.inj h⟩
    · rintro ⟨f, rfl, rfl⟩
      rfl

theorem skipString_eq_some_iff {mask : UInt8} :
    skipString flags mask s = some rest ↔ ∃ f, IsText flags mask f ∧ s = f ++ rest := by
  rw [skipString]
  simp only [IsText]
  split
  · constructor
    · intro h
      split_ifs at h with hmem
      refine ⟨(CString.take s).val ++ [0], ⟨_, rfl⟩, ?_⟩
      rw [← Option.some.inj h, List.append_assoc, List.singleton_append]
      exact (strchr_some (show strchr s 0 = some ((CString.take s).val, (s.dropWhile (· ≠ 0)).tail) from
        if_pos hmem)).1
    · rintro ⟨f, ⟨text, rfl⟩, rfl⟩
      rw [List.append_assoc, List.singleton_append, if_pos (by simp), dropWhile_append_zero text.property]
      rfl
  · constructor
    · intro h
      exact ⟨[], rfl, Option.some.inj h⟩
    · rintro ⟨f, rfl, rfl⟩
      rfl

theorem skipCrc_eq_some_iff : skipCrc flags s = some rest ↔ ∃ f, IsCrc flags f ∧ s = f ++ rest := by
  rw [skipCrc]
  simp only [IsCrc]
  split
  · constructor
    · intro h
      split_ifs at h with hle
      refine ⟨s.take 2, by rw [List.length_take]; omega, ?_⟩
      rw [← Option.some.inj h, List.take_append_drop]
    · rintro ⟨f, hf, rfl⟩
      rw [if_pos (by rw [List.length_append]; omega), ← hf, List.drop_left]
  · constructor
    · intro h
      exact ⟨[], rfl, Option.some.inj h⟩
    · rintro ⟨f, rfl, rfl⟩
      rfl

theorem skipHeader_eq_some_iff :
    skipHeader flags s = some rest ↔
      ∃ extra name comment hcrc, IsExtra flags extra ∧ IsText flags 8 name ∧ IsText flags 16 comment ∧
        IsCrc flags hcrc ∧ s = extra ++ (name ++ (comment ++ (hcrc ++ rest))) := by
  simp only [skipHeader, Option.bind_eq_some_iff, skipExtra_eq_some_iff, skipString_eq_some_iff, skipCrc_eq_some_iff]
  constructor
  · rintro ⟨_, ⟨_, ⟨_, ⟨extra, hextra, rfl⟩, name, hname, rfl⟩, comment, hcomment, rfl⟩, hcrc, hhcrc, rfl⟩
    exact ⟨extra, name, comment, hcrc, hextra, hname, hcomment, hhcrc, rfl⟩
  · rintro ⟨extra, name, comment, hcrc, hextra, hname, hcomment, hhcrc, rfl⟩
    exact ⟨_, ⟨_, ⟨_, ⟨extra, hextra, rfl⟩, name, hname, rfl⟩, comment, hcomment, rfl⟩, hcrc, hhcrc, rfl⟩

section Parts

variable {s : List UInt8} (m : GzParts)

theorem GzParts.take_bytes : m.bytes.take 10 = m.head := by
  rw [GzParts.bytes, ← m.length_head, List.take_left]

theorem GzParts.drop_bytes :
    m.bytes.drop 10 = m.extra ++ (m.name ++ (m.comment ++ (m.hcrc ++ (m.deflated ++ m.trailer)))) := by
  rw [GzParts.bytes, ← m.length_head, List.drop_left]

theorem getD_take_ten (s : List UInt8) {i : ℕ} (hi : i < 10) : (s.take 10).getD i 0 = s.getD i 0 := by
  rw [List.getD_eq_getElem?_getD, List.getD_eq_getElem?_getD, List.getElem?_take_of_lt hi]

theorem GzParts.hasMagic : HasMagic m.bytes := by
  refine ⟨?_, ?_⟩
  · have hhead := m.length_head
    have htrailer := m.length_trailer
    simp only [GzParts.bytes, List.length_append]
    omega
  · rw [← m.magic, ← m.take_bytes, List.take_take]
    rfl

theorem GzParts.gzData_bytes : gzData m.bytes = some m.deflated := by
  have hflags : m.bytes.getD 3 0 = m.head.getD 3 0 := by rw [← m.take_bytes, getD_take_ten _ (by decide)]
  have hskip : skipHeader (m.bytes.getD 3 0) (m.bytes.drop 10) = some (m.deflated ++ m.trailer) := by
    rw [hflags, m.drop_bytes]
    exact skipHeader_eq_some_iff.2
      ⟨m.extra, m.name, m.comment, m.hcrc, m.isExtra, m.isName, m.isComment, m.isCrc, rfl⟩
  have htrailer := m.length_trailer
  rw [gzData_eq, hskip, Option.bind_some, if_pos (by rw [List.length_append]; omega), List.length_append, htrailer,
    Nat.add_sub_cancel, List.take_left]

/-- **The data are those of the parts of the content**, if it has them. -/
theorem gzData_eq_some_iff (h : HasMagic s) (data : List UInt8) :
    gzData s = some data ↔ ∃ m : GzParts, m.bytes = s ∧ m.deflated = data := by
  constructor
  · intro hdata
    rw [gzData_eq] at hdata
    obtain ⟨rest, hrest, htrailer⟩ := Option.bind_eq_some_iff.1 hdata
    obtain ⟨extra, name, comment, hcrc, hextra, hname, hcomment, hhcrc, hs⟩ := skipHeader_eq_some_iff.1 hrest
    split_ifs at htrailer with hle
    have hflags : (s.take 10).getD 3 0 = s.getD 3 0 := getD_take_ten s (by decide)
    have hlong := h.1
    refine ⟨⟨s.take 10, extra, name, comment, hcrc, data, rest.drop (rest.length - 8), ?_, ?_, ?_, ?_, ?_, ?_, ?_⟩,
      ?_, rfl⟩
    · rw [List.length_take]
      omega
    · rw [List.take_take]
      exact h.2
    · exact hflags.symm ▸ hextra
    · exact hflags.symm ▸ hname
    · exact hflags.symm ▸ hcomment
    · exact hflags.symm ▸ hhcrc
    · rw [List.length_drop]
      omega
    · rw [GzParts.bytes, ← Option.some.inj htrailer, List.take_append_drop, ← hs, List.take_append_drop]
  · rintro ⟨m, rfl, rfl⟩
    exact m.gzData_bytes

/-- A member and the parts of the same content agree on the data, and on whether it is as it should be. -/
theorem GzParts.eq_of_bytes_eq {m m' : GzParts} (h : m.bytes = m'.bytes) :
    m.deflated = m'.deflated ∧ (m.WellFormed ↔ m'.WellFormed) := by
  have hhead : m.head = m'.head := by rw [← m.take_bytes, ← m'.take_bytes, h]
  refine ⟨Option.some.inj ?_, by rw [GzParts.WellFormed, GzParts.WellFormed, hhead]⟩
  rw [← m.gzData_bytes, ← m'.gzData_bytes, h]

theorem length_deflated_le : m.deflated.length ≤ m.bytes.length := by
  simp only [GzParts.bytes, List.length_append]
  omega

end Parts

/-! ## Which contents are safe -/

/-- **The header is read safely** when there is none, or when all that it announces and the trailer are there, and the
data of a member are fewer than `avail_in` can count. -/
theorem gzipHeaderSafe_iff (s : List UInt8) :
    GzipHeaderSafe s ↔
      s.length ≤ 10 ∨ s.take 2 ≠ [0x1F, 0x8B] ∨
        ∃ m : GzParts, m.bytes = s ∧ (m.WellFormed → m.deflated.length < 2 ^ 32) := by
  by_cases hmagic : HasMagic s
  · have hfirst : ¬s.length ≤ 10 := Nat.not_le.2 hmagic.1
    rw [or_iff_right hfirst, or_iff_right (not_not.2 hmagic.2)]
    constructor
    · rintro ⟨hrun, hmember⟩
      cases hdata : gzData s with
      | none =>
        rcases gzRun_of_gzData_none hmagic hdata with h | ⟨next_in, h⟩
        · rw [h] at hrun
          exact absurd hrun (by simp)
        · rw [h] at hrun
          exact absurd hrun (by simp)
      | some data =>
        obtain ⟨m, hm, rfl⟩ := (gzData_eq_some_iff hmagic data).1 hdata
        refine ⟨m, hm, fun hwell => ?_⟩
        have h := hmember m hwell hm
        rw [gzRun_of_gzData hmagic hdata, GzRun.data.injEq] at h
        have hlength := congrArg List.length h.2
        rw [List.length_take] at hlength
        have hlt := Nat.mod_lt m.deflated.length (show 0 < 2 ^ 32 by decide)
        omega
    · rintro ⟨m, rfl, hshort⟩
      have hrun := gzRun_of_gzData hmagic m.gzData_bytes
      refine ⟨.inr ⟨_, hrun⟩, fun m' hwell hm' => ?_⟩
      obtain ⟨hdeflated, hiff⟩ := GzParts.eq_of_bytes_eq hm'
      rw [hrun, Nat.mod_eq_of_lt (hshort (hiff.1 hwell)), List.take_length, hdeflated]
  · have hnot : s.length ≤ 10 ∨ s.take 2 ≠ [0x1F, 0x8B] := by
      by_contra h
      push Not at h
      exact hmagic ⟨h.1, h.2⟩
    rw [← or_assoc]
    refine iff_of_true ⟨.inl (gzRun_of_not_hasMagic hmagic), fun m _ hm => ?_⟩ (.inl hnot)
    exact absurd m.hasMagic (hm ▸ hmagic)

/-- An extra field of which only the length is there. -/
theorem not_gzipHeaderSafe :
    ¬∀ s : List UInt8, s.take 2 = [0x1F, 0x8B] → GzipHeaderSafe s := by
  intro h
  have hrun : gzRun [0x1F, 0x8B, 8, 4, 0, 0, 0, 0, 0, 3, 0xFF, 0xFF] = .outside := by decide
  have hsafe := (h [0x1F, 0x8B, 8, 4, 0, 0, 0, 0, 0, 3, 0xFF, 0xFF] (by decide)).1
  rw [hrun] at hsafe
  exact absurd hsafe (by simp)

/-- No text, compressed. -/
def emptyGzip : List UInt8 := [0x1F, 0x8B, 8, 0, 0, 0, 0, 0, 0, 3, 3, 0, 0, 0, 0, 0, 0, 0, 0, 0]

end MnoGoSearch.Http
