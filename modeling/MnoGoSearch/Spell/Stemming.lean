import MnoGoSearch.Lib.Buffer
import MnoGoSearch.Lib.Loops
import MnoGoSearch.Spell.AffixFile

/-!
# Stemming

`UdmSpellDenormalize` (`spell.c`) makes the forms of a word of the dictionary, and `UdmSpellNormalize` finds the words of
the dictionary that a word is a form of. Both build words in `wrd`, which has 128 bytes. `stemmingInBounds_iff` says when
they stay in bounds: `UdmSpellNormalize` looks at the lengths first, and `UdmSpellDenormalize` does not.
-/

namespace MnoGoSearch.Spell

open Words
open Url (bytes)
open MnoGoSearch.Lib (Buffer)
open Lib.Loops (store)

/-! ## Words in `wrd` -/

/-- `strchr` finds the letter among the flags. The NUL behind them is found too. -/
def strchr (flags : CString) (flag : UInt8) : Prop := flag ∈ flags.val ∨ flag = 0

instance (flags : CString) (flag : UInt8) : Decidable (strchr flags flag) := inferInstanceAs (Decidable (_ ∨ _))

/-- The 128 bytes of `wrd`. What they were before is written over. -/
def emptyWrd : Buffer := ⟨List.replicate 128 0, false⟩

/-- `memcpy` to the beginning of `wrd` and `strcpy` behind it: the word that is built, or `none` where a byte is written
behind the end. -/
def buildWrd (head tail : List UInt8) : Option CString :=
  let wrd := (emptyWrd.writes 0 head).writes head.length (tail ++ [0])
  if wrd.overflow then none else some (CString.take wrd.bytes)

/-- `word + len - findlen`: `none` is a place before the word. -/
def pointerBack (len findlen : ℕ) : Option ℕ := if findlen ≤ len then some (len - findlen) else none

/-! ## The functions -/

section Functions

/- `regexec` matches a word with a mask. -/
variable (regexec : CString → CString → Bool)

/-- The form of a word by one rule: `none` out of bounds, `some none` when the rule is not for the word. -/
def denormalizeRule (S : UdmSpell) (Ab : UdmAffix) : Option (Option CString) :=
  if strchr S.flags Ab.flag then
    match Ab.type with
    | .s =>
      (pointerBack S.word.val.length Ab.findlen).bind fun root =>
        -- what is copied has the length `root` too
        if S.word.val.drop root = Ab.find.val ∧ regexec Ab.mask S.word then
          (buildWrd (S.word.val.take root) Ab.repl.val).map some
        else some none
    | .p =>
      if Ab.find.val <+: S.word.val ∧ regexec Ab.mask S.word then
        (buildWrd Ab.repl.val (S.word.val.drop Ab.findlen)).map some
      else some none
  else some none

/-- `UdmSpellDenormalize`, for an array of `mres` elements. The flags of an entry are never a null pointer. -/
def udmSpellDenormalize (Al : List UdmAffix) (S : UdmSpell) (mres : ℕ) : Option (List CString) :=
  Al.foldlM (fun Res Ab => (denormalizeRule regexec S Ab).map fun wrd => wrd.elim Res (store mres Res)) []

/-- The word that would have the form `word` by the rule: `none` out of bounds, `some none` when there is none. -/
def normalizeRule (word : CString) (Ab : UdmAffix) : Option (Option CString) :=
  let len := word.val.length
  if len < Ab.replen then some none
  else
    let rootlen := len - Ab.replen
    if 128 < len + Ab.replen + Ab.findlen + 1 then some none
    else
      match Ab.type with
      | .s =>
        if word.val.drop rootlen = Ab.repl.val then (buildWrd (word.val.take rootlen) Ab.find.val).map some else some none
      | .p =>
        if Ab.repl.val <+: word.val then (buildWrd Ab.find.val (word.val.drop Ab.replen)).map some else some none

/-- The loop over the rules in `UdmSpellNormalize`; `search` is `FindFirst` with `FindNext`. -/
def normalizeAffixes (search : CString → List UdmSpell) (Al : List UdmAffix) (word : CString) (nres : ℕ) :
    Option (List UdmSpell) :=
  Al.foldlM (fun Res Ab => (normalizeRule word Ab).map fun wrd =>
    wrd.elim Res fun wrd => (search wrd).foldl (fun Res N =>
      if N.flags.val ≠ [] ∧ strchr N.flags Ab.flag ∧ regexec Ab.mask wrd then store nres Res N else Res) Res) []

/-- `UdmSpellNormalize`, for an array of `nres` elements. -/
def udmSpellNormalize (search : CString → List UdmSpell) (Al : List UdmAffix) (word : CString) (nres : ℕ) :
    Option (List UdmSpell) :=
  if 128 < word.val.length + 1 then some []
  else
    (normalizeAffixes regexec search Al word nres).bind fun Res =>
      (buildWrd [] word.val).map fun wrd => (search wrd).foldl (store nres) Res

end Functions

/-! ## In bounds -/

theorem buildWrd_eq {head tail : List UInt8} (hhead : (0 : UInt8) ∉ head) (htail : (0 : UInt8) ∉ tail)
    (hlen : head.length + tail.length < 128) : buildWrd head tail = some (CString.take (head ++ tail)) := by
  have hsize : emptyWrd.bytes.length = 128 := List.length_replicate
  have hroom : head.length + (tail ++ [0]).length ≤ (emptyWrd.writes 0 head).bytes.length := by
    rw [Buffer.length_writes, hsize, List.length_append, List.length_singleton]
    omega
  have hover : ((emptyWrd.writes 0 head).writes head.length (tail ++ [0])).overflow = false := by
    rw [Buffer.overflow_writes_of_le hroom, Buffer.overflow_writes_of_le (by omega)]
    rfl
  have htake : ((emptyWrd.writes 0 head).writes head.length (tail ++ [0])).bytes.take (head.length + (tail ++ [0]).length)
      = head ++ (tail ++ [0]) := by
    have hfront := Buffer.take_writes_add (b := emptyWrd) (i := 0) (s := head) (by omega)
    rw [Nat.zero_add, List.take_zero, List.nil_append] at hfront
    rw [Buffer.take_writes_add hroom, hfront]
  have hbytes := List.take_append_drop (head.length + (tail ++ [0]).length)
    ((emptyWrd.writes 0 head).writes head.length (tail ++ [0])).bytes
  rw [htake] at hbytes
  have hnul : (0 : UInt8) ∉ head ++ tail := by
    rw [List.mem_append]
    exact fun h => h.elim hhead htail
  rw [buildWrd, hover, if_neg Bool.false_ne_true, ← hbytes]
  have hword : CString.take (head ++ tail) = (⟨head ++ tail, hnul⟩ : CString) := CString.take_val ⟨head ++ tail, hnul⟩
  rw [hword]
  have happ := CString.take_append (⟨head ++ tail, hnul⟩ : CString)
    (((emptyWrd.writes 0 head).writes head.length (tail ++ [0])).bytes.drop (head.length + (tail ++ [0]).length))
  rw [← happ]
  simp

theorem buildWrd_eq_none {head tail : List UInt8} (hlen : 128 ≤ head.length + tail.length) :
    buildWrd head tail = none := by
  have hsize : emptyWrd.bytes.length = 128 := List.length_replicate
  have hover : ((emptyWrd.writes 0 head).writes head.length (tail ++ [0])).overflow = true := by
    rcases Nat.lt_or_ge 128 head.length with hhead | hhead
    · exact Buffer.overflow_writes_of_true (Buffer.overflow_writes_of_lt (Nat.zero_le _) (by omega))
    · refine Buffer.overflow_writes_of_lt (by rw [Buffer.length_writes, hsize]; exact hhead) ?_
      rw [Buffer.length_writes, hsize, List.length_append, List.length_singleton]
      omega
  rw [buildWrd, hover, if_pos rfl]

theorem isSome_buildWrd_iff {head tail : List UInt8} (hhead : (0 : UInt8) ∉ head) (htail : (0 : UInt8) ∉ tail) :
    (buildWrd head tail).isSome ↔ head.length + tail.length < 128 := by
  rcases Nat.lt_or_ge (head.length + tail.length) 128 with hlt | hge
  · rw [buildWrd_eq hhead htail hlt]
    simpa using hlt
  · rw [buildWrd_eq_none hge]
    simpa using hge

theorem buildWrd_eq_some_iff {head tail : List UInt8} {v : CString} (hhead : (0 : UInt8) ∉ head)
    (htail : (0 : UInt8) ∉ tail) : buildWrd head tail = some v ↔ v.val = head ++ tail ∧ v.val.length < 128 := by
  rcases Nat.lt_or_ge (head.length + tail.length) 128 with hlt | hge
  · have hnul : (0 : UInt8) ∉ head ++ tail := by
      rw [List.mem_append]
      exact fun h => h.elim hhead htail
    have hword : CString.take (head ++ tail) = (⟨head ++ tail, hnul⟩ : CString) := CString.take_val ⟨head ++ tail, hnul⟩
    rw [buildWrd_eq hhead htail hlt, hword, Option.some_inj]
    constructor
    · rintro rfl
      exact ⟨rfl, by rwa [List.length_append]⟩
    · exact fun h => Subtype.ext h.1.symm
  · rw [buildWrd_eq_none hge]
    refine iff_of_false (by simp) fun h => ?_
    have hlen := h.2
    rw [h.1, List.length_append] at hlen
    omega

section Bounds

variable {regexec : CString → CString → Bool} {S : UdmSpell} {Ab : UdmAffix}

/-- The form of a word by a rule of its flags can be made: what is taken away is not longer than the word, and the form
fits. -/
def RuleFits (regexec : CString → CString → Bool) (S : UdmSpell) (Ab : UdmAffix) : Prop :=
  strchr S.flags Ab.flag →
    match Ab.type with
    | .s => Ab.findlen ≤ S.word.val.length ∧
        (Ab.find.val <:+ S.word.val → regexec Ab.mask S.word → S.word.val.length - Ab.findlen + Ab.replen < 128)
    | .p => Ab.find.val <+: S.word.val → regexec Ab.mask S.word → Ab.replen + (S.word.val.length - Ab.findlen) < 128

theorem not_mem_take {w : CString} (n : ℕ) : (0 : UInt8) ∉ w.val.take n := fun h => w.property (List.mem_of_mem_take h)

theorem not_mem_drop {w : CString} (n : ℕ) : (0 : UInt8) ∉ w.val.drop n := fun h => w.property (List.mem_of_mem_drop h)

/-- **One rule** of `UdmSpellDenormalize` stays in bounds for the words that fit. -/
theorem isSome_denormalizeRule_iff : (denormalizeRule regexec S Ab).isSome ↔ RuleFits regexec S Ab := by
  rw [denormalizeRule, RuleFits]
  by_cases hflag : strchr S.flags Ab.flag
  · rw [if_pos hflag, forall_prop_of_true hflag]
    cases Ab.type with
    | s =>
      dsimp only
      rw [pointerBack]
      by_cases hlen : Ab.findlen ≤ S.word.val.length
      · have hsuffix : Ab.find.val <:+ S.word.val ↔ S.word.val.drop (S.word.val.length - Ab.findlen) = Ab.find.val := by
          rw [List.suffix_iff_eq_drop, eq_comm]
          rfl
        rw [if_pos hlen, and_iff_right hlen, Option.bind_some, hsuffix]
        split_ifs with h
        · rw [Option.isSome_map, isSome_buildWrd_iff (not_mem_take _) Ab.repl.property, List.length_take,
            Nat.min_eq_left (Nat.sub_le _ _)]
          exact ⟨fun hfit _ _ => hfit, fun hfit => hfit h.1 h.2⟩
        · exact iff_of_true rfl fun hfind hmatch => absurd ⟨hfind, hmatch⟩ h
      · rw [if_neg hlen]
        exact iff_of_false Bool.false_ne_true fun h => hlen h.1
    | p =>
      dsimp only
      split_ifs with h
      · rw [Option.isSome_map, isSome_buildWrd_iff Ab.repl.property (not_mem_drop _), List.length_drop]
        exact ⟨fun hfit _ _ => hfit, fun hfit => hfit h.1 h.2⟩
      · exact iff_of_true rfl fun hfind hmatch => absurd ⟨hfind, hmatch⟩ h
  · rw [if_neg hflag]
    exact iff_of_true rfl fun h => absurd h hflag

/-- **`UdmSpellNormalize` looks at the lengths** before it builds a word. -/
theorem isSome_normalizeRule (word : CString) (Ab : UdmAffix) : (normalizeRule word Ab).isSome := by
  rw [normalizeRule]
  by_cases hrep : word.val.length < Ab.replen
  · rw [if_pos hrep]
    rfl
  rw [if_neg hrep]
  by_cases hlen : 128 < word.val.length + Ab.replen + Ab.findlen + 1
  · rw [if_pos hlen]
    rfl
  · rw [if_neg hlen]
    have hfind := Ab.find.property
    have hroom : ¬128 < word.val.length + Ab.repl.val.length + Ab.find.val.length + 1 := hlen
    have hrepl : Ab.replen = Ab.repl.val.length := rfl
    cases Ab.type with
    | s =>
      dsimp only
      split_ifs
      · rw [Option.isSome_map, isSome_buildWrd_iff (not_mem_take _) hfind, List.length_take]
        omega
      · rfl
    | p =>
      dsimp only
      split_ifs
      · rw [Option.isSome_map, isSome_buildWrd_iff hfind (not_mem_drop _), List.length_drop]
        omega
      · rfl

theorem isSome_udmSpellDenormalize_iff {Al : List UdmAffix} {mres : ℕ} :
    (udmSpellDenormalize regexec Al S mres).isSome ↔ ∀ Ab ∈ Al, RuleFits regexec S Ab := by
  refine Lib.Loops.isSome_foldlM_iff fun Ab _ Res => ?_
  rw [Option.isSome_map, isSome_denormalizeRule_iff]

theorem isSome_normalizeAffixes (regexec : CString → CString → Bool) (search : CString → List UdmSpell) (Al : List UdmAffix) (word : CString) (nres : ℕ) :
    (normalizeAffixes regexec search Al word nres).isSome := by
  refine (Lib.Loops.isSome_foldlM_iff (G := fun _ => True) fun Ab _ Res => ?_).mpr fun _ _ => trivial
  rw [Option.isSome_map]
  exact iff_of_true (isSome_normalizeRule word Ab) trivial

theorem isSome_udmSpellNormalize (search : CString → List UdmSpell) (Al : List UdmAffix) (word : CString) (nres : ℕ) :
    (udmSpellNormalize regexec search Al word nres).isSome := by
  rw [udmSpellNormalize]
  split_ifs with hlen
  · rfl
  · obtain ⟨Res, hRes⟩ := Option.isSome_iff_exists.mp (isSome_normalizeAffixes regexec search Al word nres)
    rw [hRes, Option.bind_some, Option.isSome_map, isSome_buildWrd_iff (List.not_mem_nil) word.property]
    rw [List.length_nil]
    omega

/-- The functions stay in bounds, for an entry of the dictionary and the rules: `UdmSpellDenormalize` makes its forms,
and `UdmSpellNormalize` takes any word, however the dictionary is searched. -/
def StemmingInBounds (regexec : CString → CString → Bool) (Al : List UdmAffix) (S : UdmSpell) : Prop :=
  (∀ mres, (udmSpellDenormalize regexec Al S mres).isSome) ∧
    ∀ search word nres, (udmSpellNormalize regexec search Al word nres).isSome

/-- **Stemming stays in bounds** for the entries that fit all the rules of their flags. -/
theorem stemmingInBounds_iff (regexec : CString → CString → Bool) (Al : List UdmAffix) (S : UdmSpell) :
    StemmingInBounds regexec Al S ↔ ∀ Ab ∈ Al, RuleFits regexec S Ab := by
  constructor
  · intro h
    exact isSome_udmSpellDenormalize_iff.mp (h.1 0)
  · intro h
    exact ⟨fun mres => isSome_udmSpellDenormalize_iff.mpr h,
      fun search word nres => isSome_udmSpellNormalize search Al word nres⟩

/-- **What is taken away may be longer than the word**: the affix file takes `abc` away from a word with the flag `x`, and
the dictionary has `c/x`. -/
theorem not_forall_stemmingInBounds : ¬∀ (regexec : CString → CString → Bool) (lower : CString → CString)
    (regcomp : CString → Bool) (file : List UInt8) (Al : List UdmAffix) (S : UdmSpell),
    udmAffixListLoad true lower regcomp file = some Al → FromLine S → StemmingInBounds regexec Al S := by
  intro h
  have hload : udmAffixListLoad true id (fun _ => true) (bytes "suffixes\nflag x:\n. > -abc,d\n") =
      some [⟨0x78, .s, CString.take (bytes "abc"), CString.take (bytes "d"), CString.take (bytes ".$")⟩] := by
    decide +kernel
  have hbounds := h (fun _ _ => true) id (fun _ => true) _ _ ⟨CString.take (bytes "c"), CString.take (bytes "x")⟩ hload
    (by decide +kernel)
  have hnone : udmSpellDenormalize (fun _ _ => true)
      [⟨0x78, .s, CString.take (bytes "abc"), CString.take (bytes "d"), CString.take (bytes ".$")⟩]
      ⟨CString.take (bytes "c"), CString.take (bytes "x")⟩ 0 = none := by
    decide +kernel
  have hsome := hbounds.1 0
  rw [hnone] at hsome
  exact Bool.false_ne_true hsome

end Bounds

end MnoGoSearch.Spell
