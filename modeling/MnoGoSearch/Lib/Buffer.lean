import Mathlib.Data.List.Basic
import Mathlib.Data.List.TakeWhile

/-!
# Buffers

Memory of some size that is written byte by byte. A write behind the end does not change a byte, and
is remembered.
-/

namespace MnoGoSearch.Lib

/-- A buffer. -/
structure Buffer where
  bytes : List UInt8
  /-- There was a write behind the end. -/
  overflow : Bool
  deriving DecidableEq

namespace Buffer

/-- A byte is written. -/
def write (b : Buffer) (i : ℕ) (c : UInt8) : Buffer :=
  if i < b.bytes.length then { b with bytes := b.bytes.set i c } else { b with overflow := true }

/-- Some bytes are written. -/
def writes (b : Buffer) (i : ℕ) : List UInt8 → Buffer
  | [] => b
  | c :: s => (b.write i c).writes (i + 1) s

/-- `strlen`. -/
def strlen (b : Buffer) (i : ℕ) : ℕ := ((b.bytes.drop i).takeWhile (· ≠ 0)).length

/-- `strncat`: at most `n` bytes behind the string that begins at `i`, and a NUL. -/
def strncat (b : Buffer) (i : ℕ) (s : List UInt8) (n : ℕ) : Buffer :=
  (b.writes (i + b.strlen i) (s.take n)).write (i + b.strlen i + (s.take n).length) 0

/-- The string at the beginning. -/
def str (b : Buffer) : List UInt8 := b.bytes.takeWhile (· ≠ 0)

/-- Some bytes. -/
def slice (b : Buffer) (i n : ℕ) : List UInt8 := (b.bytes.drop i).take n

/-- There is a NUL at some place. -/
def NulAt (b : Buffer) (i : ℕ) : Prop := b.bytes[i]? = some 0

variable {b : Buffer} {i j n : ℕ} {c : UInt8} {s : List UInt8}

theorem NulAt.lt (h : b.NulAt i) : i < b.bytes.length := (List.getElem?_eq_some_iff.1 h).1

@[simp] theorem length_write (b : Buffer) (i : ℕ) (c : UInt8) : (b.write i c).bytes.length = b.bytes.length := by
  unfold write
  split_ifs <;> simp

@[simp] theorem length_writes (b : Buffer) (i : ℕ) (s : List UInt8) : (b.writes i s).bytes.length = b.bytes.length := by
  induction s generalizing b i with
  | nil => rfl
  | cons c s ih => rw [writes, ih, length_write]

@[simp] theorem length_strncat (b : Buffer) (i : ℕ) (s : List UInt8) (n : ℕ) :
    (b.strncat i s n).bytes.length = b.bytes.length := by simp [strncat]

theorem overflow_write (b : Buffer) (i : ℕ) (c : UInt8) :
    (b.write i c).overflow = (b.overflow || decide (b.bytes.length ≤ i)) := by
  unfold write
  split_ifs with h
  · simp [Nat.not_le.2 h]
  · simp [Nat.not_lt.1 h]

theorem overflow_writes_of_le (h : i + s.length ≤ b.bytes.length) : (b.writes i s).overflow = b.overflow := by
  induction s generalizing b i with
  | nil => rfl
  | cons c s ih =>
    rw [List.length_cons] at h
    rw [writes, ih (by simp; omega), overflow_write]
    simp
    omega

theorem overflow_write_of_true (h : b.overflow = true) : (b.write i c).overflow = true := by
  rw [overflow_write, h, Bool.true_or]

theorem overflow_writes_of_true (h : b.overflow = true) : (b.writes i s).overflow = true := by
  induction s generalizing b i with
  | nil => exact h
  | cons c s ih => exact ih (overflow_write_of_true h)

theorem writes_append (b : Buffer) (i : ℕ) (s t : List UInt8) :
    b.writes i (s ++ t) = (b.writes i s).writes (i + s.length) t := by
  induction s generalizing b i with
  | nil => rfl
  | cons c s ih =>
    rw [List.cons_append, writes, ih, List.length_cons, show i + 1 + s.length = i + (s.length + 1) by omega]
    rfl

/-- **A write behind the end is remembered.** -/
theorem overflow_writes_of_lt (hi : i ≤ b.bytes.length) (h : b.bytes.length < i + s.length) :
    (b.writes i s).overflow = true := by
  have hroom : b.bytes.length - i < s.length := by omega
  -- the byte for which there is no room
  rw [← List.take_append_drop (b.bytes.length - i) s, List.drop_eq_getElem_cons hroom, writes_append, writes]
  refine overflow_writes_of_true ?_
  rw [overflow_write, List.length_take, length_writes, Nat.min_eq_left hroom.le, Nat.add_sub_cancel' hi, decide_eq_true le_rfl,
    Bool.or_true]

theorem nulAt_write (h : i < b.bytes.length) : (b.write i 0).NulAt i := by
  unfold write NulAt
  rw [if_pos h]
  simp [h]

theorem strlen_of_nulAt (h : b.NulAt i) : b.strlen i = 0 := by
  obtain ⟨hlt, hb⟩ := List.getElem?_eq_some_iff.1 h
  rw [strlen, List.drop_eq_getElem_cons hlt, hb]
  rfl

theorem overflow_strncat (h : b.NulAt i) (hle : i + n < b.bytes.length) : (b.strncat i s n).overflow = b.overflow := by
  have hlen := List.length_take_le n s
  rw [strncat, strlen_of_nulAt h, overflow_write, overflow_writes_of_le (by omega)]
  simp
  omega

theorem nulAt_strncat (h : b.NulAt i) (hle : i + n < b.bytes.length) :
    (b.strncat i s n).NulAt (i + min n s.length) := by
  have hlen := List.length_take_le n s
  have hnul := nulAt_write (b := b.writes i (s.take n)) (i := i + (s.take n).length) (by simp; omega)
  rw [strncat, strlen_of_nulAt h, Nat.add_zero]
  rwa [List.length_take] at hnul ⊢

theorem bytes_write (b : Buffer) (i : ℕ) (c : UInt8) : (b.write i c).bytes = b.bytes.set i c := by
  unfold write
  split_ifs with h
  · rfl
  · rw [List.set_eq_of_length_le (by omega)]

theorem NulAt.write_of_ne (h : b.NulAt j) (hne : i ≠ j) : (b.write i c).NulAt j := by
  rw [NulAt, bytes_write, List.getElem?_set_ne hne]
  exact h

theorem NulAt.writes_of_le (h : b.NulAt j) (hle : i + s.length ≤ j) : (b.writes i s).NulAt j := by
  induction s generalizing b i with
  | nil => exact h
  | cons c s ih =>
    rw [List.length_cons] at hle
    exact ih (h.write_of_ne (by omega)) (by omega)

theorem NulAt.write_zero (h : b.NulAt j) (i : ℕ) : (b.write i 0).NulAt j := by
  by_cases hne : i = j
  · subst hne
    exact nulAt_write h.lt
  · exact h.write_of_ne hne

theorem slice_write_of_le (h : j + n ≤ i) : (b.write i c).slice j n = b.slice j n := by
  rw [slice, slice, bytes_write, List.drop_set]
  split_ifs
  · omega
  · rw [List.take_set_of_le (by omega)]

theorem slice_writes_of_le (h : i + n ≤ j) : (b.writes j s).slice i n = b.slice i n := by
  induction s generalizing b j with
  | nil => rfl
  | cons c s ih => rw [writes, ih (by omega), slice_write_of_le h]

theorem slice_succ (h : i < b.bytes.length) (n : ℕ) : b.slice i (n + 1) = b.bytes[i] :: b.slice (i + 1) n := by
  rw [slice, List.drop_eq_getElem_cons h, List.take_succ_cons, slice]

/-- **What was written** is read. -/
theorem slice_writes (h : i + s.length ≤ b.bytes.length) : (b.writes i s).slice i s.length = s := by
  induction s generalizing b i with
  | nil => simp [slice]
  | cons c s ih =>
    rw [List.length_cons] at h
    have hlt : i < b.bytes.length := by omega
    have hlen : i < ((b.write i c).writes (i + 1) s).bytes.length := by simpa using hlt
    have hfirst : ((b.write i c).writes (i + 1) s).slice i 1 = [c] := by
      rw [slice_writes_of_le le_rfl, slice_succ (by simpa using hlt)]
      simp [bytes_write, slice]
    rw [writes, List.length_cons, slice_succ hlen, ih (by simp; omega)]
    rw [slice_succ hlen] at hfirst
    rw [(List.cons.inj hfirst).1]

theorem bytes_writes_zero (h : s.length ≤ b.bytes.length) :
    (b.writes 0 s).bytes = s ++ (b.writes 0 s).bytes.drop s.length := by
  have hslice := slice_writes (b := b) (i := 0) (s := s) (by rwa [Nat.zero_add])
  rw [slice, List.drop_zero] at hslice
  conv_lhs => rw [← List.take_append_drop s.length (b.writes 0 s).bytes, hslice]

theorem take_writes (b : Buffer) (i : ℕ) (s : List UInt8) : (b.writes i s).bytes.take i = b.bytes.take i := by
  have hslice := slice_writes_of_le (b := b) (s := s) (i := 0) (n := i) (j := i) (by omega)
  rwa [slice, slice, List.drop_zero, List.drop_zero] at hslice

theorem take_write_of_le (h : n ≤ i) : (b.write i c).bytes.take n = b.bytes.take n := by
  rw [bytes_write, List.take_set_of_le h]

theorem take_writes_add (h : i + s.length ≤ b.bytes.length) :
    (b.writes i s).bytes.take (i + s.length) = b.bytes.take i ++ s := by
  have hslice := slice_writes h
  rw [slice] at hslice
  rw [List.take_add, take_writes, hslice]

theorem str_eq_of_take (hs : (0 : UInt8) ∉ s) (htake : b.bytes.take s.length = s) (hnul : b.NulAt s.length) :
    b.str = s := by
  obtain ⟨hlt, hzero⟩ := List.getElem?_eq_some_iff.mp hnul
  have hbytes : b.bytes = s ++ 0 :: b.bytes.drop (s.length + 1) := by
    conv_lhs => rw [← List.take_append_drop s.length b.bytes, htake, List.drop_eq_getElem_cons hlt, hzero]
  rw [str, hbytes, List.takeWhile_append_of_pos (fun c hc => by simpa using fun hc0 : c = 0 => hs (hc0 ▸ hc)),
    List.takeWhile_cons_of_neg (by simp), List.append_nil]

theorem take_slice {m : ℕ} (h : n ≤ m) : (b.slice i m).take n = b.slice i n := by
  rw [slice, List.take_take, Nat.min_eq_left h, slice]

theorem length_slice (h : i + n ≤ b.bytes.length) : (b.slice i n).length = n := by
  rw [slice, List.length_take, List.length_drop]
  omega

theorem length_str_le (h : b.NulAt i) : b.str.length ≤ i := by
  obtain ⟨hlt, hb⟩ := List.getElem?_eq_some_iff.1 h
  by_contra hgt
  have hpre : b.str <+: b.bytes := List.takeWhile_prefix _
  have hmem : b.bytes[i] ∈ b.str := by
    rw [← hpre.getElem (Nat.not_le.1 hgt)]
    exact List.getElem_mem _
  rw [hb] at hmem
  simpa using List.mem_takeWhile_imp hmem

end Buffer

end MnoGoSearch.Lib
