import MnoGoSearch.Lib.Buffer
import MnoGoSearch.Utils.Hex

/-!
# Strings that grow

`UDM_DSTR` (`dstr.c`): memory that is allocated in pages, of which some bytes are used. What is appended by these
functions is always in the memory (`Room.append`, `Room.appendHex`); code that writes behind the used bytes itself must
know that there is room (`overflow_putRaw_iff`).
-/

namespace MnoGoSearch.Utils

open MnoGoSearch.Lib (Buffer)

/-- `UDM_DSTR`. -/
structure UdmDstr where
  /-- `data`, with `size_total` bytes. -/
  buf : Buffer
  /-- `size_data`: how many bytes are used. -/
  sizeData : ℕ
  sizePage : ℕ

namespace UdmDstr

/-- `size_total`. -/
def sizeTotal (d : UdmDstr) : ℕ := d.buf.bytes.length

/-- `UdmRealloc` to a greater size. -/
def grow (d : UdmDstr) (asize : ℕ) : UdmDstr :=
  { d with buf := ⟨d.buf.bytes ++ List.replicate (asize - d.sizeTotal) 0, d.buf.overflow⟩ }

/-- `UdmDSTRInit`. -/
def init (sizePage : ℕ) : UdmDstr := ⟨⟨List.replicate sizePage 0, false⟩, 0, sizePage⟩

/-- `UdmDSTRRealloc`. -/
def realloc (d : UdmDstr) (sizeData : ℕ) : UdmDstr :=
  if sizeData ≤ d.sizeTotal then d else d.grow ((sizeData / d.sizePage + 1) * d.sizePage)

/-- Bytes are written behind the used ones, with a NUL behind them, and are used from now on. -/
def putRaw (d : UdmDstr) (s : List UInt8) : UdmDstr :=
  { d with buf := d.buf.writes d.sizeData (s ++ [0]), sizeData := d.sizeData + s.length }

/-- `UdmDSTRAppend`. -/
def append (d : UdmDstr) (s : List UInt8) : UdmDstr :=
  if s = [] then d
  else
    let bytesLeft := d.sizeTotal - d.sizeData
    if bytesLeft ≤ s.length then
      (d.grow (d.sizeTotal + ((s.length - bytesLeft) / d.sizePage + 1) * d.sizePage)).putRaw s
    else d.putRaw s

/-- `UdmDSTRAppendHex`, which writes no NUL. -/
def appendHex (d : UdmDstr) (s : List UInt8) : UdmDstr :=
  if s = [] then d
  else
    let newSize := d.sizeData + 2 * s.length
    let d := d.realloc newSize
    { d with buf := d.buf.writes d.sizeData (udmHexEncode s), sizeData := newSize }

/-- `UdmDSTRAppendf`, of which `vsnprintf` makes `text`, in some rounds: the memory grows at most twice. -/
def appendf : ℕ → UdmDstr → List UInt8 → UdmDstr
  | 0, d, _ => d
  | rounds + 1, d, text =>
    let bytesLeft := d.sizeTotal - d.sizeData
    let written := { d with buf := d.buf.writes d.sizeData (if bytesLeft = 0 then [] else text.take (bytesLeft - 1) ++ [0]) }
    if text.length + 1 < bytesLeft then { written with sizeData := d.sizeData + text.length }
    else if text.length + 1 = bytesLeft then appendf rounds (written.grow (d.sizeTotal + d.sizePage)) text
    else appendf rounds (written.grow (d.sizeTotal + ((text.length - bytesLeft) / d.sizePage + 1) * d.sizePage)) text

/-! ## Sizes -/

variable {d : UdmDstr} {s : List UInt8}

theorem sizeTotal_grow {asize : ℕ} (h : d.sizeTotal ≤ asize) : (d.grow asize).sizeTotal = asize := by
  have hlen : (d.grow asize).sizeTotal = d.sizeTotal + (asize - d.sizeTotal) := by
    rw [sizeTotal, grow, List.length_append, List.length_replicate, sizeTotal]
  omega

@[simp] theorem sizeTotal_putRaw (d : UdmDstr) (s : List UInt8) : (d.putRaw s).sizeTotal = d.sizeTotal :=
  Buffer.length_writes _ _ _

/-- **Bytes that are written behind the used ones** are in the memory when they fit with their NUL. -/
theorem overflow_putRaw_iff (hd : d.sizeData ≤ d.sizeTotal) (s : List UInt8) :
    (d.putRaw s).buf.overflow = true ↔ d.buf.overflow = true ∨ d.sizeTotal < d.sizeData + s.length + 1 := by
  have hlen : d.sizeData + (s ++ [0]).length = d.sizeData + s.length + 1 := by
    rw [List.length_append, List.length_singleton, Nat.add_assoc]
  rcases Nat.lt_or_ge d.sizeTotal (d.sizeData + s.length + 1) with hlt | hge
  · exact iff_of_true (Buffer.overflow_writes_of_lt hd (by rwa [hlen])) (Or.inr hlt)
  · have hsame : (d.putRaw s).buf.overflow = d.buf.overflow := Buffer.overflow_writes_of_le (by rwa [hlen])
    rw [hsame, or_iff_left (Nat.not_lt.mpr hge)]

theorem overflow_putRaw_of_true (h : d.buf.overflow = true) (s : List UInt8) : (d.putRaw s).buf.overflow = true :=
  Buffer.overflow_writes_of_true h

theorem overflow_append_of_true (h : d.buf.overflow = true) (s : List UInt8) : (d.append s).buf.overflow = true := by
  rw [append]
  by_cases hs : s = []
  · rwa [if_pos hs]
  · rw [if_neg hs]
    dsimp only
    split_ifs
    · exact overflow_putRaw_of_true (d := d.grow _) h s
    · exact overflow_putRaw_of_true h s

/-- The memory has pages, and is not full. -/
structure Room (d : UdmDstr) : Prop where
  page : 0 < d.sizePage
  /-- The used bytes are in the memory. -/
  data : d.sizeData ≤ d.sizeTotal

theorem room_init {sizePage : ℕ} (h : 0 < sizePage) : (init sizePage).Room := ⟨h, Nat.zero_le _⟩

/-- The size of the memory behind `UdmDSTRAppend`. -/
def appendTotal (d : UdmDstr) (n : ℕ) : ℕ :=
  if d.sizeTotal - d.sizeData ≤ n then
    d.sizeTotal + ((n - (d.sizeTotal - d.sizeData)) / d.sizePage + 1) * d.sizePage
  else d.sizeTotal

theorem lt_pages {page : ℕ} (n : ℕ) (h : 0 < page) : n < (n / page + 1) * page := by
  have hdiv := Nat.div_add_mod n page
  have hmod := Nat.mod_lt n h
  rw [Nat.add_mul, Nat.one_mul, Nat.mul_comm]
  omega

/-- Some bytes have been appended in the memory. -/
structure Extends (d d' : UdmDstr) (n : ℕ) : Prop where
  /-- The used bytes are in the memory. -/
  room : d'.Room
  /-- No byte was written behind the end. -/
  overflow : d'.buf.overflow = true ↔ d.buf.overflow = true
  data : d'.sizeData = d.sizeData + n
  /-- The memory does not shrink. -/
  total : d.sizeTotal ≤ d'.sizeTotal
  /-- The pages have the same size. -/
  page : d'.sizePage = d.sizePage

theorem Room.refl (hd : d.Room) : Extends d d 0 := ⟨hd, Iff.rfl, rfl, le_rfl, rfl⟩

theorem Extends.trans {d' d'' : UdmDstr} {m n : ℕ} (h : Extends d d' m) (h' : Extends d' d'' n) : Extends d d'' (m + n) :=
  ⟨h'.room, h'.overflow.trans h.overflow, by rw [h'.data, h.data, Nat.add_assoc], h.total.trans h'.total,
    h'.page.trans h.page⟩

theorem Room.putRaw (hd : d.Room) (h : d.sizeData + s.length < d.sizeTotal) :
    Extends d (d.putRaw s) s.length := by
  refine ⟨⟨hd.page, ?_⟩, ?_, rfl, (sizeTotal_putRaw d s).ge, rfl⟩
  · rw [sizeTotal_putRaw]
    exact h.le
  · rw [overflow_putRaw_iff hd.data]
    exact or_iff_left (by omega)

theorem Room.grow (hd : d.Room) (asize : ℕ) (h : d.sizeTotal ≤ asize) : Extends d (d.grow asize) 0 := by
  have htotal := sizeTotal_grow h
  refine ⟨⟨hd.page, ?_⟩, Iff.rfl, rfl, by rwa [htotal], rfl⟩
  rw [htotal]
  exact hd.data.trans h

theorem sizeTotal_realloc (hd : d.Room) (sizeData : ℕ) : sizeData ≤ (d.realloc sizeData).sizeTotal := by
  rw [realloc]
  split_ifs with h
  · exact h
  · have hpages := lt_pages sizeData hd.page
    rw [sizeTotal_grow (by omega)]
    exact hpages.le

theorem Room.realloc (hd : d.Room) (sizeData : ℕ) : Extends d (d.realloc sizeData) 0 := by
  rw [UdmDstr.realloc]
  split_ifs with h
  · exact hd.refl
  · have hpages := lt_pages sizeData hd.page
    exact hd.grow _ (by omega)

theorem sizeTotal_append (hs : s ≠ []) : (d.append s).sizeTotal = d.appendTotal s.length := by
  rw [UdmDstr.append, if_neg hs, appendTotal]
  by_cases hleft : d.sizeTotal - d.sizeData ≤ s.length
  · rw [if_pos hleft, if_pos hleft, sizeTotal_putRaw, sizeTotal_grow (by omega)]
  · rw [if_neg hleft, if_neg hleft, sizeTotal_putRaw]

/-- **`UdmDSTRAppend`** makes room before it writes. -/
theorem Room.append (hd : d.Room) (s : List UInt8) : Extends d (d.append s) s.length := by
  have hdata := hd.data
  rw [UdmDstr.append]
  by_cases hs : s = []
  · rw [if_pos hs, hs]
    exact hd.refl
  rw [if_neg hs]
  by_cases hleft : d.sizeTotal - d.sizeData ≤ s.length
  · have hpages := lt_pages (s.length - (d.sizeTotal - d.sizeData)) hd.page
    have hgrow := hd.grow (d.sizeTotal + ((s.length - (d.sizeTotal - d.sizeData)) / d.sizePage + 1) * d.sizePage)
      (by omega)
    have hput := hgrow.trans (hgrow.room.putRaw (s := s) (by
      rw [hgrow.data, sizeTotal_grow (by omega)]
      omega))
    rw [Nat.zero_add] at hput
    rw [if_pos hleft]
    exact hput
  · rw [if_neg hleft]
    exact hd.putRaw (by omega)

/-- So does **`UdmDSTRAppendHex`**. -/
theorem Room.appendHex (hd : d.Room) (s : List UInt8) : Extends d (d.appendHex s) (2 * s.length) := by
  rw [UdmDstr.appendHex]
  split_ifs with hs
  · rw [hs]
    exact hd.refl
  · have hrealloc := hd.realloc (d.sizeData + 2 * s.length)
    have hsize := sizeTotal_realloc hd (d.sizeData + 2 * s.length)
    have hlen := length_udmHexEncode s
    have hfit : (d.realloc (d.sizeData + 2 * s.length)).sizeData + (udmHexEncode s).length ≤
        (d.realloc (d.sizeData + 2 * s.length)).sizeTotal := by
      rw [hrealloc.data, hlen]
      exact hsize
    refine ⟨⟨hrealloc.page ▸ hd.page, ?_⟩, ?_, rfl, ?_, hrealloc.page⟩
    · exact hsize.trans (Buffer.length_writes _ _ _).ge
    · rw [Buffer.overflow_writes_of_le hfit]
      exact hrealloc.overflow
    · exact hrealloc.total.trans (Buffer.length_writes _ _ _).ge

/-- **`UdmDSTRAppendf`** writes at once when there is room. -/
theorem appendf_of_room {text : List UInt8} (rounds : ℕ) (h : text.length + 1 < d.sizeTotal - d.sizeData) :
    d.appendf (rounds + 1) text = d.putRaw text := by
  rw [appendf]
  dsimp only
  rw [if_pos h, if_neg (by omega), List.take_of_length_le (by omega)]
  rfl

end UdmDstr

end MnoGoSearch.Utils
