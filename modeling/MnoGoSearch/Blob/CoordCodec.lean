import MnoGoSearch.Blob.UnpackLimit

/-!
# The readers of coordinates

`dbmode-blob.c` reads coordinates in several ways: one of them (`udm_coord_get`, `udm_coord_get_quick`), a number of
them that are summed up or skipped (`udm_coord_sum`, `udm_coord_skip`), and all of them that are counted
(`udm_coord_len`). `coordReaders` says that on what `udm_coord_put` has written they all agree, except that
`udm_coord_len` takes a string up to its NUL and so counts only what stands before a coordinate 0.
-/

namespace MnoGoSearch.Blob

open Lib.PrefixCode

/-- `udm_coord_put` into a buffer in which so many bytes are free; nothing is written when the number does not fit. -/
def udmCoordPutInto (room wc : ℕ) : List UInt8 :=
  if (udmCoordPut wc).length ≤ room then udmCoordPut wc else []

/-- `udm_coord_len` on a string in memory: its length is that of `strlen`. -/
def udmCoordStrLen (str : List UInt8) : ℕ := udmCoordLen (str.takeWhile (· ≠ 0))

/-- The readers on the bytes of these coordinates, whatever follows them. -/
structure ReadAlike (l : List ℕ) : Prop where
  /-- `udm_coord_get` after `udm_coord_put`. -/
  get_put : ∀ wc ∈ l, ∀ room rest, (udmCoordPut wc).length ≤ room →
    udmCoordPutInto room wc ≠ [] ∧
      udmCoordGet (udmCoordPutInto room wc ++ rest) = some (some wc, (udmCoordPutInto room wc).length)
  /-- `udm_coord_get_quick`, wherever a coordinate begins. -/
  quick : ∀ k < l.length, ∀ rest, udmCoordGetQuick ((l.drop k).flatMap udmCoordPut ++ rest) =
    udmCoordGet ((l.drop k).flatMap udmCoordPut ++ rest)
  /-- `udm_coord_skip`, which stops where as many calls of `udm_coord_get` stop. -/
  skip : ∀ i386, ∀ n ≤ l.length, ∀ rest, some (udmCoordSkip i386 (l.flatMap udmCoordPut ++ rest) n) =
    (scanN udmCoordGet n (l.flatMap udmCoordPut ++ rest)).map Prod.snd
  /-- `udm_coord_sum`, which stops there also. -/
  sum : ∀ n ≤ l.length, ∀ rest, udmCoordSum (l.flatMap udmCoordPut ++ rest) n =
    (scanN udmCoordGet n (l.flatMap udmCoordPut ++ rest)).map fun r => ((l.take n).sum, r.2)
  /-- `udm_coord_len`, on the string that ends with a NUL. -/
  len : ∀ rest, udmCoordStrLen (l.flatMap udmCoordPut ++ 0 :: rest) = (l.takeWhile (· ≠ 0)).length

/-! ### One coordinate -/

theorem getD_append_zeros (s : List UInt8) (n i : ℕ) : (s ++ List.replicate n 0).getD i 0 = s.getD i 0 := by
  rw [List.getD_eq_getElem?_getD, List.getD_eq_getElem?_getD, List.getElem?_append]
  split
  · rfl
  · rename_i h
    rw [List.getElem?_eq_none (Nat.le_of_not_lt h), List.getElem?_replicate]
    split <;> rfl

theorem udmCoordGetQuick_put {wc : ℕ} (h : CoordValid wc) (rest : List UInt8) :
    udmCoordGetQuick (udmCoordPut wc ++ rest) = some (some wc, (udmCoordPut wc).length) := by
  have hpad : udmCoordGetQuick (udmCoordPut wc ++ rest ++ List.replicate 4 0) =
      udmCoordGetQuick (udmCoordPut wc ++ rest) := by
    simp only [udmCoordGetQuick, getD_append_zeros]
  rw [← hpad, udmCoordGetQuick_eq (by rw [List.length_append, List.length_replicate]; omega), List.append_assoc,
    coordCode.get_put h]

/-! ### Many coordinates -/

theorem flatMap_take_drop (l : List ℕ) (n : ℕ) (rest : List UInt8) :
    l.flatMap udmCoordPut ++ rest = (l.take n).flatMap udmCoordPut ++ ((l.drop n).flatMap udmCoordPut ++ rest) := by
  rw [← List.append_assoc, ← List.flatMap_append, List.take_append_drop]

theorem scanN_take {l : List ℕ} (hl : ∀ wc ∈ l, CoordValid wc) {n : ℕ} (hn : n ≤ l.length) (rest : List UInt8) :
    scanN udmCoordGet n (l.flatMap udmCoordPut ++ rest) =
      some ((l.take n).map some, (l.drop n).flatMap udmCoordPut ++ rest) := by
  have hscan := scanN_flatMap coordCode (fun wc hwc => hl wc (List.mem_of_mem_take hwc) : ∀ wc ∈ l.take n, _)
    ((l.drop n).flatMap udmCoordPut ++ rest)
  rwa [← flatMap_take_drop, List.length_take_of_le hn] at hscan

theorem takeWhile_flatMap (l : List ℕ) (rest : List UInt8) :
    (l.flatMap udmCoordPut ++ 0 :: rest).takeWhile (· ≠ 0) = (l.takeWhile (· ≠ 0)).flatMap udmCoordPut := by
  induction l with
  | nil => rfl
  | cons wc l ih =>
    rcases Nat.eq_zero_or_pos wc with rfl | hpos
    · rfl
    · have hbytes : ∀ b ∈ udmCoordPut wc, decide (b ≠ 0) = true := fun b hb => decide_eq_true (udmCoordPut_ne_zero hpos hb)
      have hhead : (wc :: l).takeWhile (· ≠ 0) = wc :: l.takeWhile (· ≠ 0) :=
        List.takeWhile_cons_of_pos (decide_eq_true hpos.ne')
      rw [hhead, List.flatMap_cons, List.flatMap_cons, List.append_assoc, List.takeWhile_append_of_pos hbytes, ih]

/-- **All readers agree on what was written.** -/
theorem coordReaders {l : List ℕ} (hl : ∀ wc ∈ l, wc < 0x200000) : ReadAlike l where
  get_put wc hwc room rest hroom := by
    rw [udmCoordPutInto, if_pos hroom]
    exact ⟨coordCode.ne_nil (hl wc hwc), coordCode.get_put (hl wc hwc) rest⟩
  quick k hk rest := by
    have hmem : l[k] ∈ l := List.getElem_mem hk
    rw [List.drop_eq_getElem_cons hk, List.flatMap_cons, List.append_assoc, udmCoordGetQuick_put (hl _ hmem),
      coordCode.get_put (hl _ hmem)]
  skip i386 n hn rest := by
    have hskip := @udmCoordSkip_flatMap i386 (l.take n) (fun wc hwc => hl wc (List.mem_of_mem_take hwc))
      ((l.drop n).flatMap udmCoordPut ++ rest)
    rw [← flatMap_take_drop, List.length_take_of_le hn] at hskip
    rw [hskip, scanN_take hl hn, Option.map_some]
  sum n hn rest := by
    have hsum := @udmCoordSum_flatMap (l.take n) (fun wc hwc => hl wc (List.mem_of_mem_take hwc))
      ((l.drop n).flatMap udmCoordPut ++ rest)
    rw [← flatMap_take_drop, List.length_take_of_le hn] at hsum
    rw [hsum, scanN_take hl hn, Option.map_some]
  len rest := by
    rw [udmCoordStrLen, takeWhile_flatMap, udmCoordLen_flatMap]
    exact fun wc hwc => hl wc (List.takeWhile_prefix _ |>.mem hwc)

/-- Coordinates of one to four bytes, with a 0 among them. -/
theorem coordReaders_widths : ReadAlike [5, 0x7ff, 0, 0xffff, 0x1fffff] := coordReaders (by decide)

/-- A coordinate 0 is not counted by `udm_coord_len`. -/
theorem not_udmCoordStrLen : ¬ ∀ l : List ℕ, (∀ wc ∈ l, wc < 0x200000) →
    ∀ rest, udmCoordStrLen (l.flatMap udmCoordPut ++ 0 :: rest) = l.length :=
  fun h => absurd (h [0] (by decide) []) (by decide)

end MnoGoSearch.Blob
