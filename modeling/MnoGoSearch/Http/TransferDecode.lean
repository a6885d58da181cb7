import MnoGoSearch.Words.WordList

/-!
# Transfer encodings

`UdmBase64Decode` (`base64.c`) and `udm_quoted_printable_decode` (`utils.c`), which decode the content of
a message. What they write is never longer than what they read.
-/

namespace MnoGoSearch.Http

/-! ## Base64 -/

/-- `from_base64_map`: -2 for a blank, -1 for what is not in the encoding. -/
def fromBase64Map (c : UInt8) : ℤ :=
  if 0x41 ≤ c ∧ c ≤ 0x5A then c.toNat - 0x41
  else if 0x61 ≤ c ∧ c ≤ 0x7A then c.toNat - 0x61 + 26
  else if 0x30 ≤ c ∧ c ≤ 0x39 then c.toNat - 0x30 + 52
  else if c = 0x2B then 62
  else if c = 0x2F then 63
  else if (0x09 ≤ c ∧ c ≤ 0x0D) ∨ c = 0x20 ∨ c = 0xA0 then -2
  else -1

/-- `UDM_FROM_BASE64`. -/
structure FromBase64 where
  src : List UInt8
  /-- The bits of the characters of this group. -/
  bits : ℕ
  error : Bool
  /-- How many characters of this group are read. -/
  byteCount : ℕ
  /-- How many of them are `=`. -/
  markCount : ℕ

/-- `udm_from_base64_skip_spaces`: whether there is nothing behind the blanks. -/
def skipSpaces (d : FromBase64) : Bool × FromBase64 :=
  let src := d.src.dropWhile fun c => fromBase64Map c = -2
  (src.isEmpty, { d with src := src, error := d.error || (src.isEmpty && 0 < d.byteCount) })

/-- `udm_from_base64_getch`: whether the group ends here, and what was read. -/
def getch (d : FromBase64) : Bool × FromBase64 :=
  let d := (skipSpaces d).2
  match d.src with
  | [] => (true, d)
  | c :: src =>
    if 0 ≤ fromBase64Map c then
      if d.markCount ≠ 0 then (true, { d with error := true })
      else
        (false, { d with src := src, bits := d.bits * 64 + (fromBase64Map c).toNat, byteCount := d.byteCount + 1 })
    else if 2 ≤ d.byteCount ∧ c = 0x3D then
      (false, { d with src := src, bits := d.bits * 64, error := false, byteCount := d.byteCount + 1,
                       markCount := d.markCount + 1 })
    else (true, { d with error := true })

/-- Some characters of a group, as long as it does not end. -/
def getchs : ℕ → FromBase64 → Bool × FromBase64
  | 0, d => (false, d)
  | n + 1, d => if (getch d).1 then getch d else getchs n (getch d).2

/-- The loop of `UdmBase64Decode`, at most `fuel` groups: what it writes, how much of it counts, and what it
leaves. -/
def base64Loop : ℕ → FromBase64 → List UInt8 × ℕ × FromBase64
  | 0, d => ([], 0, d)
  | fuel + 1, d =>
    let r := getchs 4 { d with bits := 0, byteCount := 0 }
    if r.1 then ([], 0, r.2)
    else
      let bytes := [UInt8.ofNat (r.2.bits >>> 16), UInt8.ofNat (r.2.bits >>> 8), UInt8.ofNat r.2.bits]
      if r.2.markCount ≠ 0 then (bytes, 3 - r.2.markCount, r.2)
      else
        let rest := base64Loop fuel r.2
        (bytes ++ rest.1, 3 + rest.2.1, rest.2.2)

/-- `UdmBase64Decode`, without `UDM_BASE64_ALLOW_MULTIPLE_CHUNKS`: what it writes, and its value if that is not
negative. -/
def udmBase64Decode (src : List UInt8) : List UInt8 × Option ℕ :=
  let r := base64Loop (src.length + 1) ⟨src, 0, false, 0, 0⟩
  let d := (skipSpaces { r.2.2 with byteCount := 0 })
  (r.1, if d.2.error ∨ d.1 = false then none else some r.2.1)

example : udmBase64Decode [0x51, 0x55, 0x49, 0x3D] = ([0x41, 0x42, 0], some 2) := by decide

theorem length_skipSpaces_le (d : FromBase64) : (skipSpaces d).2.src.length ≤ d.src.length :=
  (List.dropWhile_sublist _).length_le

theorem length_getch_lt {d : FromBase64} (h : (getch d).1 = false) : (getch d).2.src.length < d.src.length := by
  have hskip := length_skipSpaces_le d
  unfold getch at h ⊢
  simp only at h ⊢
  cases hsrc : (skipSpaces d).2.src with
  | nil => simp [hsrc] at h
  | cons c src =>
    rw [hsrc, List.length_cons] at hskip
    have hlt : src.length < d.src.length := hskip
    simp only [hsrc] at h ⊢
    split_ifs at h ⊢ <;> simp_all

theorem length_getchs_le {n : ℕ} {d : FromBase64} (h : (getchs n d).1 = false) :
    (getchs n d).2.src.length + n ≤ d.src.length := by
  induction n generalizing d with
  | zero => exact le_rfl
  | succ n ih =>
    rw [getchs] at h ⊢
    cases hend : (getch d).1 with
    | true => simp [hend] at h
    | false =>
      rw [hend] at h
      simp only [Bool.false_eq_true, if_false] at h ⊢
      have hlt := length_getch_lt hend
      have hle := ih h
      omega

/-- **What is written** is not longer than what is read, and what counts is written. -/
theorem base64Loop_spec (fuel : ℕ) (d : FromBase64) :
    (base64Loop fuel d).1.length ≤ d.src.length ∧ (base64Loop fuel d).2.1 ≤ (base64Loop fuel d).1.length := by
  induction fuel generalizing d with
  | zero => exact ⟨Nat.zero_le _, le_rfl⟩
  | succ fuel ih =>
    rw [base64Loop]
    simp only
    cases hend : (getchs 4 { d with bits := 0, byteCount := 0 }).1 with
    | true => exact ⟨Nat.zero_le _, le_rfl⟩
    | false =>
      have hread := length_getchs_le hend
      obtain ⟨hle, hcount⟩ := ih (getchs 4 { d with bits := 0, byteCount := 0 }).2
      simp only [Bool.false_eq_true, if_false] at hread ⊢
      split_ifs
      · simp only [List.length_cons, List.length_nil]
        omega
      · simp only [List.length_append, List.length_cons, List.length_nil]
        omega

theorem length_udmBase64Decode_le (src : List UInt8) : (udmBase64Decode src).1.length ≤ src.length :=
  (base64Loop_spec _ _).1

theorem le_of_udmBase64Decode {src : List UInt8} {n : ℕ} (h : (udmBase64Decode src).2 = some n) :
    n ≤ (udmBase64Decode src).1.length := by
  simp only [udmBase64Decode] at h ⊢
  split_ifs at h
  rw [← Option.some.inj h]
  exact (base64Loop_spec _ _).2

/-! ## Quoted-printable -/

/-- `ch2x` of `utils.c`: every letter is a digit. -/
def ch2x (ch : UInt8) : Option ℕ :=
  if 0x30 ≤ ch ∧ ch ≤ 0x39 then some (ch.toNat - 0x30)
  else if 0x41 ≤ ch ∧ ch ≤ 0x5A then some (ch.toNat - 0x41 + 10)
  else if 0x61 ≤ ch ∧ ch ≤ 0x7A then some (ch.toNat - 0x61 + 10)
  else none

/-- `udm_quoted_printable_decode` into memory for `room` bytes, at most `fuel` steps. -/
def qpDecode : ℕ → ℕ → List UInt8 → List UInt8
  | 0, _, _ => []
  | _, _, [] => []
  | fuel + 1, room, c :: s =>
    if room = 0 then []
    else if c ≠ 0x3D then c :: qpDecode fuel (room - 1) s
    else
      match s.head?.bind ch2x, s.tail.head?.bind ch2x with
      | some x, some y => UInt8.ofNat (x * 16 + y) :: qpDecode fuel (room - 1) (s.drop 2)
      | _, _ =>
        -- a soft line break, perhaps with blanks in front of it
        match s.dropWhile fun b => b = 0x20 ∨ b = 0x09 with
        | [] => []
        | 0x0D :: 0x0A :: s' => qpDecode fuel room s'
        | 0x0D :: s' => qpDecode fuel room s'
        | 0x0A :: s' => qpDecode fuel room s'
        | _ => c :: qpDecode fuel (room - 1) s

/-- `udm_quoted_printable_decode`. -/
def udmQuotedPrintableDecode (src : List UInt8) (dstlen : ℕ) : List UInt8 := qpDecode src.length dstlen src

example : udmQuotedPrintableDecode [0x61, 0x3D, 0x34, 0x31, 0x3D, 0x20, 0x0D, 0x0A, 0x62] 9 = [0x61, 0x41, 0x62] := by
  decide

theorem length_dropWhile_le (P : UInt8 → Bool) (s : List UInt8) : (s.dropWhile P).length ≤ s.length :=
  (List.dropWhile_sublist P).length_le

theorem length_qpDecode_le (fuel room : ℕ) (src : List UInt8) : (qpDecode fuel room src).length ≤ src.length := by
  induction fuel generalizing room src with
  | zero => simp [qpDecode]
  | succ fuel ih =>
    cases src with
    | nil => simp [qpDecode]
    | cons c s =>
      have hblank := length_dropWhile_le (fun b => b = 0x20 ∨ b = 0x09) s
      rw [qpDecode]
      split_ifs with hroom hc
      · exact Nat.zero_le _
      · exact Nat.succ_le_succ (ih _ _)
      · split
        · have hle := ih (room - 1) (s.drop 2)
          rw [List.length_drop] at hle
          simp only [List.length_cons]
          omega
        · split
          · exact Nat.zero_le _
          all_goals
            rename_i hline
            simp only [hline, List.length_cons] at hblank ⊢
          · exact (ih _ _).trans (by omega)
          · exact (ih _ _).trans (by omega)
          · exact (ih _ _).trans (by omega)
          · exact Nat.succ_le_succ (ih _ _)

theorem length_udmQuotedPrintableDecode_le (src : List UInt8) (dstlen : ℕ) :
    (udmQuotedPrintableDecode src dstlen).length ≤ src.length := length_qpDecode_le _ _ _

end MnoGoSearch.Http
