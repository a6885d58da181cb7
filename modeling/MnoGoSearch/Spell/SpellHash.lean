import MnoGoSearch.Spell.SpellList
import Mathlib

/-!
# Dictionaries in hash files

What the search in the hash file finds (`enumHash_perm`), and when it is what the search in memory
finds (`hashAgrees_iff`): an empty word reads as a free record, and an entry with flags that is as
long as the longest one leaves no room for a zero in its record, so that the newline and the bytes
behind it are read as flags.
-/

namespace MnoGoSearch.Spell

open Words Lib.LinearProbing

/-! ## The records of a file -/

variable {α : Type} {Sl : HashList} {S : UdmSpell}

variable {f : ℕ → List α}

theorem length_flatMap_range {n len m : ℕ} (hlen : ∀ i < n, (f i).length = len)
    (hm : m ≤ n) : ((List.range m).flatMap f).length = m * len := by
  induction m with
  | zero => simp
  | succ m ih =>
    rw [List.range_succ, List.flatMap_append, List.length_append, ih (by omega), List.flatMap_singleton,
      hlen m hm, Nat.succ_mul]

theorem take_drop_flatMap {n len pos : ℕ} (hlen : ∀ i < n, (f i).length = len)
    (hpos : pos < n) : (((List.range n).flatMap f).drop (pos * len)).take len = f pos := by
  have hsplit : List.range n = List.range (pos + 1) ++ (List.range (n - (pos + 1))).map (pos + 1 + ·) := by
    rw [← List.range_add, Nat.add_sub_cancel' hpos]
  rw [hsplit, List.range_succ, List.flatMap_append, List.flatMap_append, List.append_assoc,
    List.drop_left' (length_flatMap_range hlen hpos.le), List.flatMap_singleton, List.take_left' (hlen pos hpos)]

theorem lt_foldl_max_iff (f : α → ℕ) {l : List α} {m a : ℕ} :
    m < l.foldl (fun len x => max len (f x)) a ↔ m < a ∨ ∃ x ∈ l, m < f x := by
  induction l generalizing a with
  | nil => simp
  | cons x l ih =>
    rw [List.foldl_cons, ih, lt_max_iff, List.exists_mem_cons_iff, or_assoc]

theorem lt_maxlen_iff {slot : ℕ → Option UdmSpell} {n m : ℕ} :
    m < maxlen n slot ↔ ∃ T ∈ elements slot n, m < curlen T := by
  rw [maxlen, lt_foldl_max_iff]
  constructor
  · rintro (h | ⟨i, hi, h⟩)
    · omega
    · cases hslot : slot i with
      | none =>
        rw [hslot] at h
        exact absurd h (Nat.not_lt_zero m)
      | some T =>
        rw [hslot] at h
        exact ⟨T, List.mem_filterMap.mpr ⟨i, hi, hslot⟩, h⟩
  · rintro ⟨T, hT, h⟩
    obtain ⟨i, hi, hslot⟩ := List.mem_filterMap.mp hT
    refine Or.inr ⟨i, hi, ?_⟩
    rwa [hslot]

theorem curlen_le_maxlen {slot : ℕ → Option UdmSpell} {n i : ℕ} (hi : i < n) (hslot : slot i = some S) :
    curlen S ≤ maxlen n slot := by
  by_contra hlt
  have hmem : S ∈ elements slot n := List.mem_filterMap.mpr ⟨i, List.mem_range.mpr hi, hslot⟩
  exact absurd (lt_maxlen_iff.mpr ⟨S, hmem, Nat.not_le.mp hlt⟩) (Nat.lt_irrefl _)

theorem length_entryBytes (S : UdmSpell) :
    (entryBytes S).length = curlen S + if S.flags.val = [] then 0 else 1 := by
  rw [entryBytes, curlen, List.length_append]
  split_ifs with h
  · rw [h]
    simp
  · simp only [List.length_cons]
    omega

theorem length_entryBytes_le (S : UdmSpell) : (entryBytes S).length ≤ curlen S + 1 := by
  rw [length_entryBytes]
  split_ifs <;> omega

theorem length_recordBytes {slot : Option UdmSpell} {len : ℕ} (h : ∀ S, slot = some S → curlen S ≤ len) :
    (recordBytes (len + 2) slot).length = len + 2 := by
  have hle : ((slot.map entryBytes).getD []).length ≤ len + 1 := by
    cases slot with
    | none => simp
    | some S =>
      have h1 := length_entryBytes_le S
      have h2 := h S rfl
      simp only [Option.map_some, Option.getD_some]
      omega
  rw [recordBytes]
  simp only [List.length_append, List.length_replicate, List.length_singleton]
  omega

/-! ## What is read from a record -/

theorem splitEntry_slash {buf word flags : CString} (hbuf : buf.val = word.val ++ 0x2F :: flags.val)
    (hword : (0x2F : UInt8) ∉ word.val) : splitEntry buf = ⟨word, flags⟩ := by
  have hne : ∀ c ∈ word.val, decide (c ≠ 0x2F) = true := fun c hc => by simpa using fun h0 : c = 0x2F => hword (h0 ▸ hc)
  rw [splitEntry, if_pos (by simp [hbuf]), hbuf, List.takeWhile_append_of_pos hne, List.dropWhile_append_of_pos hne]
  simp

theorem not_mem_slash (h : FromLine S) : (0x2F : UInt8) ∉ S.word.val := fun hc => (h.1 _ hc).1 rfl

theorem zero_not_mem_entryBytes (S : UdmSpell) : (0 : UInt8) ∉ entryBytes S := by
  rw [entryBytes]
  split_ifs <;> simp [S.word.property, S.flags.property]

theorem newline_not_mem_entryBytes (h : FromLine S) : (0x0A : UInt8) ∉ entryBytes S := by
  have hword : (0x0A : UInt8) ∉ S.word.val := fun hc => (h.1 _ hc).2.1 rfl
  have hflags : (0x0A : UInt8) ∉ S.flags.val := fun hc => (h.2 _ hc).1 rfl
  rw [entryBytes]
  split_ifs <;> simp [hword, hflags]

theorem splitEntry_entryBytes (h : FromLine S) (rest : List UInt8) :
    splitEntry (CString.take (entryBytes S ++ 0 :: rest)) = S := by
  have htake : CString.take (entryBytes S ++ 0 :: rest) = ⟨entryBytes S, zero_not_mem_entryBytes S⟩ :=
    CString.take_append ⟨entryBytes S, zero_not_mem_entryBytes S⟩ rest
  rw [htake]
  by_cases hflags : S.flags.val = []
  · have hbytes : entryBytes S = S.word.val := by rw [entryBytes, if_pos hflags, List.append_nil]
    have hslash : (0x2F : UInt8) ∉ entryBytes S := hbytes ▸ not_mem_slash h
    rw [splitEntry, if_neg hslash]
    cases S
    congr 1
    · exact Subtype.ext hbytes
    · exact Subtype.ext hflags.symm
  · refine splitEntry_slash ?_ (not_mem_slash h)
    change entryBytes S = _
    rw [entryBytes, if_neg hflags]

theorem splitEntry_full (h : FromLine S) (hflags : S.flags.val ≠ []) (rest : List UInt8) :
    (0x0A : UInt8) ∈ (splitEntry (CString.take (entryBytes S ++ 0x0A :: rest))).flags.val := by
  have hne : ∀ c ∈ entryBytes S, decide (c ≠ 0) = true := by
    intro c hc
    simpa using fun h0 : c = 0 => zero_not_mem_entryBytes S (h0 ▸ hc)
  have hbytes : (CString.take (entryBytes S ++ 0x0A :: rest)).val = entryBytes S ++ 0x0A :: (CString.take rest).val := by
    change (entryBytes S ++ 0x0A :: rest).takeWhile (· ≠ 0) = _
    rw [List.takeWhile_append_of_pos hne, List.takeWhile_cons_of_pos (by decide)]
    rfl
  have hzero : (0 : UInt8) ∉ S.flags.val ++ 0x0A :: (CString.take rest).val := by
    simp [S.flags.property, (CString.take rest).property]
  have hsplit := @splitEntry_slash (CString.take (entryBytes S ++ 0x0A :: rest)) S.word ⟨_, hzero⟩ ?_ (not_mem_slash h)
  · rw [hsplit]
    simp
  · rw [hbytes, entryBytes, if_neg hflags, List.append_assoc, List.cons_append]

/-! ## The file -/

/-- The file holds the table, and the width of its records and their number are known. -/
structure IsHashFile (n : ℕ) (slot : ℕ → Option UdmSpell) (Sl : HashList) : Prop where
  file : Sl.file = (List.range n).flatMap fun i => recordBytes (maxlen n slot + 2) (slot i)
  wordlen : Sl.wordlen = maxlen n slot + 2
  nitems : Sl.nitems = n
  /-- The entries come from lines. -/
  fromLine : ∀ i < n, ∀ S, slot i = some S → FromLine S

theorem findIdx?_file {slot : ℕ → Option UdmSpell} {n : ℕ} (hn : 0 < n)
    (hline : ∀ i < n, ∀ S, slot i = some S → FromLine S) :
    ((List.range n).flatMap fun i => recordBytes (maxlen n slot + 2) (slot i)).findIdx? (· == 0x0A) =
      some (maxlen n slot + 1) := by
  have hlen := @length_recordBytes (slot 0) (maxlen n slot) fun S hS => curlen_le_maxlen hn hS
  obtain ⟨k, rfl⟩ := Nat.exists_eq_add_of_le' hn
  rw [List.range_succ_eq_map, List.flatMap_cons]
  rw [recordBytes] at hlen ⊢
  rw [List.append_assoc, List.findIdx?_append]
  simp only [List.length_append, List.length_singleton] at hlen
  have hnone : (((slot 0).map entryBytes).getD [] ++
      List.replicate (maxlen (k + 1) slot + 2 - 1 - (((slot 0).map entryBytes).getD []).length) 0).findIdx?
        (· == (0x0A : UInt8)) = none := by
    rw [List.findIdx?_eq_none_iff]
    intro c hc
    have hne : c ≠ 0x0A := by
      rintro rfl
      rcases List.mem_append.mp hc with hc | hc
      · cases hslot : slot 0 with
        | none => simp [hslot] at hc
        | some S =>
          rw [hslot] at hc
          exact newline_not_mem_entryBytes (hline 0 hn S hslot) hc
      · exact absurd (List.eq_of_mem_replicate hc) (by decide)
    simpa using hne
  rw [hnone, Option.none_or, List.singleton_append, List.findIdx?_cons]
  simp only [beq_self_eq_true, ite_true, Option.map_some, Nat.zero_add, List.length_append]
  congr 1
  omega

theorem getElem?_file {slot : ℕ → Option UdmSpell} {n i : ℕ} (hi : 0 < i) (hin : i ≤ n) :
    ((List.range n).flatMap fun i => recordBytes (maxlen n slot + 2) (slot i))[i * (maxlen n slot + 2) - 1]? =
      some 0x0A := by
  have hlen : ∀ i < n, (recordBytes (maxlen n slot + 2) (slot i)).length = maxlen n slot + 2 :=
    fun i hi => length_recordBytes fun S hS => curlen_le_maxlen hi hS
  obtain ⟨i, rfl⟩ := Nat.exists_eq_add_of_le' hi
  have hblock := take_drop_flatMap hlen (show i < n by omega)
  have hplace : (i + 1) * (maxlen n slot + 2) - 1 = i * (maxlen n slot + 2) + (maxlen n slot + 1) := by
    rw [Nat.succ_mul]
    omega
  have hlast : (recordBytes (maxlen n slot + 2) (slot i))[maxlen n slot + 1]? = some 0x0A := by
    have hl := hlen i (by omega)
    rw [recordBytes] at hl ⊢
    rw [List.length_append, List.length_singleton] at hl
    have hend := List.getElem?_concat_length (l := ((slot i).map entryBytes).getD [] ++
      List.replicate (maxlen n slot + 2 - 1 - (((slot i).map entryBytes).getD []).length) 0) (a := (0x0A : UInt8))
    rwa [Nat.succ.inj hl] at hend
  rw [hplace, ← List.getElem?_drop, ← hlast, ← hblock, List.getElem?_take_of_lt (by omega)]

theorem openHash_isSome {slot : ℕ → Option UdmSpell} {n fnameLen : ℕ} (hn : 2 ≤ n)
    (hline : ∀ i < n, ∀ S, slot i = some S → FromLine S) (hfname : fnameLen + 4 < 128)
    (hwidth : maxlen n slot + 2 < 64) (behind : List UInt8) :
    (openHash fnameLen ((List.range n).flatMap fun i => recordBytes (maxlen n slot + 2) (slot i)) behind).isSome := by
  have hlen : ∀ i < n, (recordBytes (maxlen n slot + 2) (slot i)).length = maxlen n slot + 2 :=
    fun i hi => length_recordBytes fun S hS => curlen_le_maxlen hi hS
  have hfile := length_flatMap_range hlen (Nat.le_refl n)
  have hfirst := findIdx?_file (by omega) hline
  have hnewline := fun i hi hin => @getElem?_file slot n i hi hin
  have htwo : 2 * (maxlen n slot + 2) ≤ n * (maxlen n slot + 2) := Nat.mul_le_mul_right _ hn
  generalize ((List.range n).flatMap fun i => recordBytes (maxlen n slot + 2) (slot i)) = file at *
  have hbuf : (file.take (1024 * 8)).length = min (1024 * 8) file.length := List.length_take
  have hdetect : detectHashedIspellDict fnameLen file = some (maxlen n slot + 2) := by
    rw [detectHashedIspellDict, if_neg (by omega)]
    dsimp only
    have hfirst' : (file.take (1024 * 8)).findIdx? (· == 0x0A) = some (maxlen n slot + 1) := by
      rw [List.findIdx?_take, hfirst]
      simp [Option.guard]
      omega
    rw [hfirst']
    dsimp only
    have hdiv : 1 ≤ (file.take (1024 * 8)).length / (maxlen n slot + 1 + 1 + 1) :=
      (Nat.le_div_iff_mul_le (by omega)).mpr (by omega)
    rw [if_neg (by omega), if_neg (by omega), if_pos]
    refine List.all_eq_true.mpr fun i hi => beq_iff_eq.mpr ?_
    obtain ⟨hi1, hi2⟩ := List.mem_range'_1.mp hi
    have hle : i * (maxlen n slot + 1 + 1 + 1) ≤ (file.take (1024 * 8)).length :=
      (Nat.le_div_iff_mul_le (by omega)).mp (by omega)
    have hwhole : i * (maxlen n slot + 1 + 1 + 1) = i * (maxlen n slot + 2) + i := Nat.mul_succ _ _
    have hin : i ≤ n :=
      Nat.le_of_mul_le_mul_right (show i * (maxlen n slot + 2) ≤ n * (maxlen n slot + 2) by omega) (by omega)
    change (file.take (1024 * 8))[i * (maxlen n slot + 2) - 1]? = some 0x0A
    rw [List.getElem?_take_of_lt (by omega)]
    exact hnewline i hi1 hin
  rw [openHash, hdetect]
  rfl

theorem isHashFile_of_open {slot : ℕ → Option UdmSpell} {n fnameLen : ℕ} {file behind : List UInt8}
    (hline : ∀ i < n, ∀ S, slot i = some S → FromLine S) (hfile : udmSpellListWriteFixed n slot = some file)
    (hopen : openHash fnameLen file behind = some Sl) : IsHashFile n slot Sl := by
  rw [udmSpellListWriteFixed] at hfile
  split_ifs at hfile with hn hmax
  cases hfile
  obtain ⟨w, hw, rfl⟩ := Option.map_eq_some_iff.mp hopen
  have hwidth : w = maxlen n slot + 2 := by
    rw [detectHashedIspellDict] at hw
    split_ifs at hw
    dsimp only at hw
    split at hw
    · cases hw
    · rename_i i hi
      have hfirst := (List.take_prefix _ _).findIdx?_eq_some hi
      rw [findIdx?_file (Nat.pos_of_ne_zero hn) hline] at hfirst
      cases hfirst
      split_ifs at hw
      exact (Option.some.inj hw).symm
  subst hwidth
  refine ⟨rfl, rfl, ?_, hline⟩
  have hlen : ∀ i < n, (recordBytes (maxlen n slot + 2) (slot i)).length = maxlen n slot + 2 :=
    fun i hi => length_recordBytes fun S hS => curlen_le_maxlen hi hS
  change _ / _ = n
  rw [length_flatMap_range hlen (Nat.le_refl n), Nat.mul_div_cancel _ (Nat.succ_pos _)]

section Search

variable {n fuel pos : ℕ} {slot : ℕ → Option UdmSpell} {Sl : HashList} {find : CString}

theorem IsHashFile.lt_of_load (h : IsHashFile n slot Sl) (hload : loadSpellAtOffset Sl pos = some S) : pos < n := by
  by_contra hge
  have hlen : ∀ i < n, (recordBytes (maxlen n slot + 2) (slot i)).length = maxlen n slot + 2 :=
    fun i hi => length_recordBytes fun S hS => curlen_le_maxlen hi hS
  have hdrop : Sl.file.drop (pos * Sl.wordlen) = [] := by
    refine List.drop_eq_nil_of_le ?_
    rw [h.file, h.wordlen, length_flatMap_range hlen le_rfl]
    exact Nat.mul_le_mul_right _ (Nat.not_lt.mp hge)
  rw [loadSpellAtOffset, hdrop, h.wordlen] at hload
  simp at hload

theorem IsHashFile.load (h : IsHashFile n slot Sl) (hpos : pos < n) :
    loadSpellAtOffset Sl pos =
      some (splitEntry (CString.take (recordBytes (maxlen n slot + 2) (slot pos) ++ Sl.behind))) := by
  have hlen : ∀ i < n, (recordBytes (maxlen n slot + 2) (slot i)).length = maxlen n slot + 2 :=
    fun i hi => length_recordBytes fun S hS => curlen_le_maxlen hi hS
  rw [loadSpellAtOffset, h.file, h.wordlen, take_drop_flatMap hlen hpos]
  rw [if_neg (by simp [hlen pos hpos])]

theorem IsHashFile.load_none (h : IsHashFile n slot Sl) (hpos : pos < n) (hslot : slot pos = none) :
    loadSpellAtOffset Sl pos = some ⟨CString.empty, CString.empty⟩ := by
  rw [h.load hpos, hslot, recordBytes]
  rfl

theorem recordBytes_some {len : ℕ} (S : UdmSpell) :
    recordBytes len (some S) = entryBytes S ++ List.replicate (len - 1 - (entryBytes S).length) 0 ++ [0x0A] := rfl

theorem IsHashFile.load_some (h : IsHashFile n slot Sl) (hpos : pos < n)
    (hslot : slot pos = some S) (hroom : S.flags = CString.empty ∨ curlen S < maxlen n slot) :
    loadSpellAtOffset Sl pos = some S := by
  have hlen : (entryBytes S).length < maxlen n slot + 1 := by
    have hle := curlen_le_maxlen hpos hslot
    rw [length_entryBytes]
    rcases hroom with hflags | hlt
    · have hnil : S.flags.val = [] := congrArg Subtype.val hflags
      rw [if_pos hnil]
      omega
    · split_ifs <;> omega
  have hpad : maxlen n slot + 2 - 1 - (entryBytes S).length = maxlen n slot - (entryBytes S).length + 1 := by omega
  rw [h.load hpos, hslot, recordBytes_some, hpad, List.replicate_succ]
  simp only [List.append_assoc, List.cons_append]
  rw [splitEntry_entryBytes (h.fromLine pos hpos S hslot)]

theorem IsHashFile.load_full (h : IsHashFile n slot Sl) (hpos : pos < n)
    (hslot : slot pos = some S) (hflags : S.flags ≠ CString.empty) (hfull : maxlen n slot ≤ curlen S) :
    ∃ T, loadSpellAtOffset Sl pos = some T ∧ (0x0A : UInt8) ∈ T.flags.val := by
  have hne : S.flags.val ≠ [] := fun h0 => hflags (Subtype.ext h0)
  have hle := curlen_le_maxlen hpos hslot
  have hpad : maxlen n slot + 2 - 1 - (entryBytes S).length = 0 := by
    rw [length_entryBytes, if_neg hne]
    omega
  refine ⟨_, h.load hpos, ?_⟩
  rw [hslot, recordBytes_some, hpad, List.replicate_zero, List.append_nil, List.append_assoc, List.singleton_append]
  exact splitEntry_full (h.fromLine pos hpos S hslot) hne Sl.behind

/-! ## The search -/

/-- Every record is read back, and no word is empty. -/
def Readable (n : ℕ) (slot : ℕ → Option UdmSpell) (Sl : HashList) : Prop :=
  ∀ pos < n, ∀ S, slot pos = some S → S.word ≠ CString.empty ∧ loadSpellAtOffset Sl pos = some S

theorem findSpellAtOffset_walk (h : IsHashFile n slot Sl) (hread : Readable n slot Sl) {k : ℕ} :
    ∀ {pos fuel : ℕ}, pos < n → k ≤ fuel → Stops slot n k pos →
      (findSpellAtOffset Sl find fuel pos = some none ∧
        ((walk slot n k pos).filter fun S => S.word = find) = []) ∨
      ∃ q S k', findSpellAtOffset Sl find fuel pos = some (some (q, S)) ∧ k' < k ∧ Stops slot n k' ((q + 1) % n) ∧
        ((walk slot n k pos).filter fun S => S.word = find) =
          S :: ((walk slot n k' ((q + 1) % n)).filter fun S => S.word = find) := by
  induction k with
  | zero => exact fun _ _ hstops => hstops.elim
  | succ k ih =>
    intro pos fuel hpos hfuel hstops
    obtain ⟨fuel, rfl⟩ := Nat.exists_eq_add_of_le' (Nat.lt_of_lt_of_le (Nat.succ_pos k) hfuel)
    rw [findSpellAtOffset, walk, h.nitems]
    cases hslot : slot pos with
    | none =>
      rw [h.load_none hpos hslot]
      exact Or.inl ⟨rfl, rfl⟩
    | some S =>
      have hnext : Stops slot n k ((pos + 1) % n) := hstops.resolve_left (by simp [hslot])
      obtain ⟨hword, hload⟩ := hread pos hpos S hslot
      have hne : S.word.val ≠ [] := fun h0 => hword (Subtype.ext h0)
      rw [hload]
      dsimp only
      rw [if_neg hne]
      by_cases hfind : S.word = find
      · rw [if_pos hfind, List.filter_cons_of_pos (by simpa using hfind)]
        exact Or.inr ⟨pos, S, k, rfl, Nat.lt_succ_self k, hnext, rfl⟩
      · rw [if_neg hfind, List.filter_cons_of_neg (by simpa using hfind)]
        rcases ih (Nat.mod_lt _ (by omega)) (Nat.le_of_succ_le_succ hfuel) hnext with hnone | ⟨q, T, k', hq, hk', hrest⟩
        · exact Or.inl hnone
        · exact Or.inr ⟨q, T, k', hq, hk'.trans (Nat.lt_succ_self k), hrest⟩

theorem forEach_walk (h : IsHashFile n slot Sl) (hread : Readable n slot Sl) (k : ℕ) :
    ∀ {pos outer : ℕ}, pos < n → k ≤ fuel → k ≤ outer → Stops slot n k pos →
      (forEach (fun x => udmSpellListFindNextHash Sl find fuel x.1) outer
        (findSpellAtOffset Sl find fuel pos)).map (List.map Prod.snd) =
        some ((walk slot n k pos).filter fun S => S.word = find) := by
  induction k using Nat.strong_induction_on with
  | h k ih =>
    intro pos outer hpos hfuel houter hstops
    rcases findSpellAtOffset_walk h hread hpos hfuel hstops with ⟨hres, hnil⟩ | ⟨q, S, k', hres, hk', hstops', hcons⟩
    · rw [hres, hnil]
      cases outer <;> rfl
    · obtain ⟨outer, rfl⟩ := Nat.exists_eq_add_of_le' (Nat.lt_of_lt_of_le (by omega : 0 < k) houter)
      have hrest := ih k' hk' (Nat.mod_lt _ (by omega)) (by omega) (show k' ≤ outer by omega) hstops'
      rw [hres, hcons, forEach, udmSpellListFindNextHash, h.nitems, Option.map_map]
      have hS := congrArg (Option.map (S :: ·)) hrest
      rwa [Option.map_map] at hS

theorem findSpellAtOffset_some {x : ℕ × UdmSpell} (hres : findSpellAtOffset Sl find fuel pos = some (some x)) :
    x.2.word = find ∧ x.2.word ≠ CString.empty ∧ ∃ q, loadSpellAtOffset Sl q = some x.2 := by
  induction fuel generalizing pos with
  | zero => simp [findSpellAtOffset] at hres
  | succ fuel ih =>
    rw [findSpellAtOffset] at hres
    split at hres
    · simp at hres
    · rename_i Sp hload
      split_ifs at hres with hempty hfind
      · simp at hres
      · cases hres
        exact ⟨hfind, fun h0 => hempty (congrArg Subtype.val h0), pos, hload⟩
      · exact ih hres

theorem forall_mem_forEach {σ : Type} {next : σ → Option (Option σ)} {P : σ → Prop}
    (hnext : ∀ x y, next x = some (some y) → P y) :
    ∀ {fuel : ℕ} {first : Option (Option σ)} {l : List σ}, (∀ y, first = some (some y) → P y) →
      forEach next fuel first = some l → ∀ y ∈ l, P y := by
  intro fuel
  induction fuel with
  | zero =>
    intro first l hfirst hl
    rcases first with _ | _ | x
    · simp [forEach] at hl
    · simp only [forEach, Option.some.injEq] at hl
      simp [← hl]
    · simp [forEach] at hl
  | succ fuel ih =>
    intro first l hfirst hl
    rcases first with _ | _ | x
    · simp [forEach] at hl
    · simp only [forEach, Option.some.injEq] at hl
      simp [← hl]
    · rw [forEach] at hl
      obtain ⟨rest, hrest, rfl⟩ := Option.map_eq_some_iff.mp hl
      exact List.forall_mem_cons.mpr ⟨hfirst x rfl, ih (hnext x) hrest⟩

/-- An entry that is read is a free record's or an entry with room for a zero, or its flags have a newline. -/
theorem IsHashFile.of_load (h : IsHashFile n slot Sl) (hload : loadSpellAtOffset Sl pos = some S) :
    S.flags = CString.empty ∨ curlen S < maxlen n slot ∨ (0x0A : UInt8) ∈ S.flags.val := by
  have hpos := h.lt_of_load hload
  cases hslot : slot pos with
  | none =>
    rw [h.load_none hpos hslot] at hload
    cases hload
    exact Or.inl rfl
  | some T =>
    by_cases hroom : T.flags = CString.empty ∨ curlen T < maxlen n slot
    · rw [h.load_some hpos hslot hroom] at hload
      cases hload
      exact hroom.imp_right Or.inl
    · push Not at hroom
      obtain ⟨T', hT', hmem⟩ := h.load_full hpos hslot hroom.1 hroom.2
      rw [hload] at hT'
      cases hT'
      exact Or.inr (Or.inr hmem)

end Search

theorem mem_enumHash {crc32 : CString → UInt32} {find : CString} {fuel : ℕ} {l : List UdmSpell}
    (hl : enumHash crc32 Sl find fuel = some l) (hS : S ∈ l) :
    S.word = find ∧ S.word ≠ CString.empty ∧ ∃ q, loadSpellAtOffset Sl q = some S := by
  obtain ⟨l', hl', rfl⟩ := Option.map_eq_some_iff.mp hl
  obtain ⟨x, hx, rfl⟩ := List.mem_map.mp hS
  exact forall_mem_forEach (fun _ _ h => findSpellAtOffset_some h) (fun _ h => findSpellAtOffset_some h) hl' x hx

/-! ## The dictionary -/

theorem lt_hashSize (k : ℕ) : k < hashSize k := by
  rw [hashSize]
  omega

section Dictionary

variable {crc32 : CString → UInt32} {L : SpellList} {fnameLen : ℕ}

theorem holds_udmSpellListHash (crc32 : CString → UInt32) (items : List UdmSpell) :
    Holds (hashSize items.length) (fun S => hashValue crc32 S.word) (udmSpellListHash crc32 items) items :=
  insertAll_spec (fun _ => rfl) (lt_hashSize _).le

theorem mem_elements_iff :
    (∃ pos < hashSize L.items.length, udmSpellListHash crc32 L.items pos = some S) ↔ S ∈ L.items := by
  rw [← (holds_udmSpellListHash crc32 L.items).perm.mem_iff, elements, List.mem_filterMap]
  simp

/-- **Where every record is read back, a search enumerates the entries of the word.** -/
theorem enumHash_perm (find : CString) (h : IsHashFile (hashSize L.items.length) (udmSpellListHash crc32 L.items) Sl)
    (hread : Readable (hashSize L.items.length) (udmSpellListHash crc32 L.items) Sl) :
    ∃ l, enumHash crc32 Sl find (hashSize L.items.length) = some l ∧ l.Perm (L.items.filter fun S => S.word = find) := by
  have hholds := holds_udmSpellListHash crc32 L.items
  have hlt := lt_hashSize L.items.length
  have hlen : (elements (udmSpellListHash crc32 L.items) (hashSize L.items.length)).length < hashSize L.items.length :=
    lt_of_eq_of_lt hholds.perm.length_eq hlt
  have hstops := stops_of_lt hlen (hashValue crc32 find)
  refine ⟨_, ?_, @filter_walk_perm _ _ _ _ _ hholds hlt _ (hashValue crc32 find) fun S _ hS => ?_⟩
  · have hpos : hashValue crc32 find % hashSize L.items.length < hashSize L.items.length := Nat.mod_lt _ (by omega)
    rw [enumHash, udmSpellListFindFirstHash, h.nitems]
    exact forEach_walk h hread _ hpos le_rfl le_rfl hstops
  · rw [of_decide_eq_true hS]

theorem lt_maxlen_udmSpellListHash {m : ℕ} :
    m < maxlen (hashSize L.items.length) (udmSpellListHash crc32 L.items) ↔ ∃ T ∈ L.items, m < curlen T := by
  rw [lt_maxlen_iff]
  exact exists_congr fun T => and_congr_left' (holds_udmSpellListHash crc32 L.items).perm.mem_iff

theorem fromLine_udmSpellListHash {i : ℕ} (hi : i < hashSize L.items.length)
    (hS : udmSpellListHash crc32 L.items i = some S) : FromLine S :=
  L.fromLine S (mem_elements_iff.mp ⟨i, hi, hS⟩)

theorem exists_openHash (crc32 : CString → UInt32) (L : SpellList) (hfname : fnameLen + 4 < 128)
    (hpos : ∃ S ∈ L.items, 0 < curlen S) (hshort : ∀ S ∈ L.items, curlen S < 62) (behind : List UInt8) :
    ∃ file Sl, udmSpellListWriteHash crc32 L.items = some file ∧ openHash fnameLen file behind = some Sl := by
  obtain ⟨S, hS, hlen⟩ := hpos
  have hn : 2 ≤ hashSize L.items.length := by
    have := List.length_pos_of_mem hS
    rw [hashSize]
    omega
  have hmax : 0 < maxlen (hashSize L.items.length) (udmSpellListHash crc32 L.items) :=
    lt_maxlen_udmSpellListHash.mpr ⟨S, hS, hlen⟩
  have hwidth : maxlen (hashSize L.items.length) (udmSpellListHash crc32 L.items) + 2 < 64 := by
    by_contra hcon
    obtain ⟨T, hT, hlt⟩ := (@lt_maxlen_udmSpellListHash crc32 L 61).mp (by omega)
    exact absurd (hshort T hT) (by omega)
  have hopen := openHash_isSome hn (fun i hi S hS => fromLine_udmSpellListHash hi hS) hfname hwidth behind
  obtain ⟨Sl, hSl⟩ := Option.isSome_iff_exists.mp hopen
  refine ⟨_, Sl, ?_, hSl⟩
  rw [udmSpellListWriteHash, udmSpellListWriteFixed, if_neg (by omega), if_neg (by omega)]

theorem room_of_hashAgrees {file behind : List UInt8}
    (hfile : udmSpellListWriteHash crc32 L.items = some file) (hopen : openHash fnameLen file behind = some Sl)
    (hagrees : HashAgrees crc32 L Sl) (hS : S ∈ L.items) :
    S.word ≠ CString.empty ∧ (S.flags = CString.empty ∨ ∃ T ∈ L.items, curlen S < curlen T) := by
  have h := isHashFile_of_open (fun i hi S hS => fromLine_udmSpellListHash hi hS) hfile hopen
  obtain ⟨fuel, l, s, hl, hs, hperm⟩ := hagrees S.word
  have hmem : S ∈ l := by
    rw [hperm.mem_iff, mem_of_enumSorted hs]
    exact ⟨hS, rfl⟩
  obtain ⟨-, hword, q, hq⟩ := mem_enumHash hl hmem
  rcases h.of_load hq with hflags | hlt | hnewline
  · exact ⟨hword, Or.inl hflags⟩
  · exact ⟨hword, Or.inr (lt_maxlen_udmSpellListHash.mp hlt)⟩
  · exact absurd rfl ((L.fromLine S hS).2 _ hnewline).1

/-- **The hash file agrees with the sorted list exactly when no word is empty and no entry with flags is as long as
the longest entry.** -/
theorem hashAgrees_iff {fnameLen : ℕ} {file behind : List UInt8} {Sl : HashList}
    (hfile : udmSpellListWriteHash crc32 L.items = some file) (hopen : openHash fnameLen file behind = some Sl) :
    HashAgrees crc32 L Sl ↔
      ∀ S ∈ L.items, S.word ≠ CString.empty ∧ (S.flags = CString.empty ∨ ∃ T ∈ L.items, curlen S < curlen T) := by
  refine ⟨fun hagrees S hS => room_of_hashAgrees hfile hopen hagrees hS, fun hall find => ?_⟩
  have h := isHashFile_of_open (fun i hi S hS => fromLine_udmSpellListHash hi hS) hfile hopen
  have hread : Readable (hashSize L.items.length) (udmSpellListHash crc32 L.items) Sl := by
    intro pos hpos S hslot
    obtain ⟨hword, hroom⟩ := hall S (mem_elements_iff.mp ⟨pos, hpos, hslot⟩)
    exact ⟨hword, h.load_some hpos hslot (hroom.imp_right lt_maxlen_udmSpellListHash.mpr)⟩
  obtain ⟨l, hl, hperm⟩ := enumHash_perm find h hread
  exact ⟨_, l, _, hl, enumSorted_eq L find (lt_hashSize _).le, hperm⟩

end Dictionary

/-! ## Two dictionaries -/

/-- The entries `a/X` and `abcd`. -/
def roomy : SpellList where
  items := [⟨⟨[97], zero_notMem_a⟩, ⟨[88], by decide⟩⟩, ⟨⟨[97, 98, 99, 100], by decide⟩, CString.empty⟩]
  fromLine := by decide
  sorted := by decide

/-- The hash file of `roomy` agrees with it. -/
theorem hashAgrees_roomy :
    ∃ file Sl, udmSpellListWriteHash (fun _ => 0) roomy.items = some file ∧ openHash 8 file [] = some Sl ∧
      HashAgrees (fun _ => 0) roomy Sl := by
  obtain ⟨file, Sl, hfile, hopen⟩ := exists_openHash (fun _ => 0) roomy (by decide : 8 + 4 < 128) (by decide) (by decide) []
  exact ⟨file, Sl, hfile, hopen, (hashAgrees_iff hfile hopen).mpr (by decide)⟩

/-- The entry `a/X`: its record `a/X\n` has no zero. -/
def fullRecord : SpellList where
  items := [⟨⟨[97], zero_notMem_a⟩, ⟨[88], by decide⟩⟩]
  fromLine := by decide
  sorted := by decide

/-- Not every hash file agrees with its dictionary, whatever the hash function is. -/
theorem not_forall_hashAgrees :
    ¬ ∃ crc32, ∀ L fnameLen file behind Sl, udmSpellListWriteHash crc32 L.items = some file →
      openHash fnameLen file behind = some Sl → HashAgrees crc32 L Sl := by
  rintro ⟨crc32, hall⟩
  obtain ⟨file, Sl, hfile, hopen⟩ := exists_openHash crc32 fullRecord (by decide : 8 + 4 < 128) (by decide) (by decide) []
  have hroom := room_of_hashAgrees hfile hopen (hall fullRecord 8 file [] Sl hfile hopen) (List.mem_singleton.mpr rfl)
  exact absurd hroom.2 (by decide)

end MnoGoSearch.Spell
