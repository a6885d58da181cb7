import MnoGoSearch.Spell.Stemming

/-!
# Base forms and forms

`UdmSpellNormalize` undoes the rules that `UdmSpellDenormalize` applies (`mem_bases_iff`), and `UdmSpellAllForms` does
one after the other. `stemmingInverts_iff` says when all the forms of a word are found from every one of them: nothing is
wrong but the bounds of `UdmSpellDenormalize`, which a rule that changes another form of the word may leave.
-/

namespace MnoGoSearch.Spell

open Words
open Url (bytes)
open Lib.Loops (store foldl_store foldlM_store)

/-! ## All forms of a word -/

/-- `UDM_AFFIXLIST`. -/
structure UdmAffixList where
  lang : CString
  cset : CString
  items : List UdmAffix

/-- `UDM_SPELLLIST`, in memory. -/
structure UdmSpellList where
  lang : CString
  cset : CString
  words : SpellList

/-- `UdmSpellListFindFirst` and `UdmSpellListFindNext` until nothing is found. -/
def searchSorted (L : SpellList) (find : CString) : List UdmSpell := (enumSorted L.items find L.items.length).getD []

/-- The rules are for the dictionary. -/
def Matching (Al : UdmAffixList) (Sl : UdmSpellList) : Prop := Al.lang = Sl.lang ∧ Al.cset = Sl.cset

instance (Al : UdmAffixList) (Sl : UdmSpellList) : Decidable (Matching Al Sl) := inferInstanceAs (Decidable (_ ∧ _))

section Functions

variable (regexec : CString → CString → Bool)

/-- A base form and its forms are added in `UdmSpellAllForms`. -/
def addForms (Al : List UdmAffix) (mres : ℕ) (Res : List CString) (N : UdmSpell) : Option (List CString) :=
  let Res := store mres Res N.word
  (udmSpellDenormalize regexec Al N (mres - Res.length)).map (Res ++ ·)

/-- `UdmSpellAllForms`, for an array of `mres` elements. -/
def udmSpellAllForms (SLL : List UdmSpellList) (ALL : List UdmAffixList) (word : CString) (mres : ℕ) :
    Option (List CString) :=
  ALL.foldlM (fun Res Al => SLL.foldlM (fun Res Sl =>
    if Matching Al Sl then
      (udmSpellNormalize regexec (searchSorted Sl.words) Al.items word 128).bind fun Norm =>
        Norm.foldlM (addForms regexec Al.items mres) Res
    else some Res) Res) []

end Functions

/-! ## What the arrays hold -/

theorem searchSorted_eq (L : SpellList) (find : CString) : searchSorted L find = L.items.filter fun S => S.word = find := by
  rw [searchSorted, enumSorted_eq L find le_rfl, Option.getD_some]

section Forms

variable {regexec : CString → CString → Bool} {L : SpellList} {Al : List UdmAffix} {w : CString} {N : UdmSpell}
  {Ab : UdmAffix}

/-- The forms of a word, as many as there are. -/
def forms (regexec : CString → CString → Bool) (Al : List UdmAffix) (N : UdmSpell) : List CString :=
  Al.flatMap fun Ab => (denormalizeRule regexec N Ab).join.toList

theorem udmSpellDenormalize_eq (hfit : ∀ Ab ∈ Al, RuleFits regexec N Ab) (mres : ℕ) :
    udmSpellDenormalize regexec Al N mres = some ((forms regexec Al N).take mres) := by
  have hstep : ∀ Ab ∈ Al, ∀ Res, ((denormalizeRule regexec N Ab).map fun wrd => wrd.elim Res (store mres Res))
      = some (((denormalizeRule regexec N Ab).join.toList).foldl (store mres) Res) := by
    intro Ab hAb Res
    obtain ⟨wrd, hwrd⟩ := Option.isSome_iff_exists.mp (isSome_denormalizeRule_iff.mpr (hfit Ab hAb))
    rw [hwrd]
    cases wrd <;> rfl
  rw [udmSpellDenormalize, foldlM_store _ _ hstep, foldl_store]
  rfl

/-- The base forms of a word by one rule. -/
def bases (regexec : CString → CString → Bool) (L : SpellList) (w : CString) (Ab : UdmAffix) : List UdmSpell :=
  (normalizeRule w Ab).join.elim [] fun wrd =>
    (searchSorted L wrd).filter fun N => N.flags.val ≠ [] ∧ strchr N.flags Ab.flag ∧ regexec Ab.mask wrd

theorem normalizeAffixes_eq (nres : ℕ) :
    normalizeAffixes regexec (searchSorted L) Al w nres = some ((Al.flatMap (bases regexec L w)).take nres) := by
  rw [normalizeAffixes, foldlM_store nres (bases regexec L w) _, foldl_store]
  · rfl
  · intro Ab _ Res
    obtain ⟨wrd, hwrd⟩ := Option.isSome_iff_exists.mp (isSome_normalizeRule w Ab)
    rw [bases, hwrd, Option.map_some]
    cases wrd with
    | none => rfl
    | some wrd =>
      rw [Option.join_some, Option.elim_some, Option.elim_some, List.foldl_filter]
      simp only [decide_eq_true_iff]

/-! ## Rules in both directions -/

/-- The word `f` is `v` with what the rule takes away replaced by what it adds. -/
def Replaced (Ab : UdmAffix) (v f : CString) : Prop :=
  match Ab.type with
  | .s => ∃ root, v.val = root ++ Ab.find.val ∧ f.val = root ++ Ab.repl.val
  | .p => ∃ rest, v.val = Ab.find.val ++ rest ∧ f.val = Ab.repl.val ++ rest

/-- The lengths that `UdmSpellNormalize` lets pass. -/
def LengthPasses (w : CString) (Ab : UdmAffix) : Prop := w.val.length + Ab.replen + Ab.findlen + 1 ≤ 128

theorem denormalizeRule_eq_some_iff {f : CString} : denormalizeRule regexec N Ab = some (some f) ↔
    strchr N.flags Ab.flag ∧ regexec Ab.mask N.word ∧ Replaced Ab N.word f ∧ f.val.length < 128 := by
  rw [denormalizeRule]
  by_cases hflag : strchr N.flags Ab.flag
  swap
  · rw [if_neg hflag]
    exact iff_of_false (by simp) fun h => hflag h.1
  rw [if_pos hflag, and_iff_right hflag, Replaced]
  cases htype : Ab.type with
  | s =>
    dsimp only
    rw [pointerBack]
    constructor
    · intro h
      by_cases hlen : Ab.findlen ≤ N.word.val.length
      · rw [if_pos hlen, Option.bind_some] at h
        split_ifs at h with hrule
        · obtain ⟨v, hv, hvf⟩ := Option.map_eq_some_iff.mp h
          rw [Option.some_inj] at hvf
          subst hvf
          obtain ⟨hval, hfit⟩ := (buildWrd_eq_some_iff (not_mem_take _) Ab.repl.property).mp hv
          refine ⟨hrule.2, ⟨_, ?_, hval⟩, hfit⟩
          rw [← hrule.1, List.take_append_drop]
        · exact absurd h (by simp)
      · rw [if_neg hlen] at h
        exact absurd h (by simp)
    · rintro ⟨hmatch, ⟨root, hword, hf⟩, hfit⟩
      have hlen : N.word.val.length = root.length + Ab.findlen := by rw [hword, List.length_append]; rfl
      have hroot : N.word.val.length - Ab.findlen = root.length := by omega
      rw [if_pos (by omega), Option.bind_some, hroot]
      have hdrop : N.word.val.drop root.length = Ab.find.val := by rw [hword, List.drop_left]
      have htake : N.word.val.take root.length = root := by rw [hword, List.take_left]
      rw [if_pos ⟨hdrop, hmatch⟩, (buildWrd_eq_some_iff (not_mem_take _) Ab.repl.property).mpr ⟨by rw [htake, hf], hfit⟩]
      rfl
  | p =>
    dsimp only
    constructor
    · intro h
      split_ifs at h with hrule
      · obtain ⟨v, hv, hvf⟩ := Option.map_eq_some_iff.mp h
        rw [Option.some_inj] at hvf
        subst hvf
        obtain ⟨hval, hfit⟩ := (buildWrd_eq_some_iff Ab.repl.property (not_mem_drop _)).mp hv
        refine ⟨hrule.2, ⟨_, ?_, hval⟩, hfit⟩
        exact (List.prefix_iff_eq_append.mp hrule.1).symm
      · exact absurd h (by simp)
    · rintro ⟨hmatch, ⟨rest, hword, hf⟩, hfit⟩
      have hdrop : N.word.val.drop Ab.findlen = rest := by
        rw [hword]
        exact List.drop_left
      have hbegin : Ab.find.val <+: N.word.val := ⟨rest, hword.symm⟩
      rw [if_pos ⟨hbegin, hmatch⟩, (buildWrd_eq_some_iff Ab.repl.property (not_mem_drop _)).mpr ⟨by rw [hdrop, hf], hfit⟩]
      rfl

theorem Replaced.length {v : CString} (h : Replaced Ab v w) : v.val.length + Ab.replen = w.val.length + Ab.findlen := by
  rw [UdmAffix.replen, UdmAffix.findlen]
  rw [Replaced] at h
  split at h
  · obtain ⟨root, hv, hw⟩ := h
    rw [hv, hw, List.length_append, List.length_append]
    omega
  · obtain ⟨rest, hv, hw⟩ := h
    rw [hv, hw, List.length_append, List.length_append]
    omega

theorem normalizeRule_eq_some_iff {v : CString} :
    normalizeRule w Ab = some (some v) ↔ LengthPasses w Ab ∧ Replaced Ab v w := by
  have hrepl : Ab.replen = Ab.repl.val.length := rfl
  rw [normalizeRule, LengthPasses]
  by_cases hrep : w.val.length < Ab.replen
  · rw [if_pos hrep]
    refine iff_of_false (by simp) fun h => ?_
    have hlen : Ab.replen ≤ w.val.length := by
      have hshape := h.2
      rw [Replaced] at hshape
      split at hshape
      · obtain ⟨root, -, hw⟩ := hshape
        rw [hw, List.length_append]
        omega
      · obtain ⟨rest, -, hw⟩ := hshape
        rw [hw, List.length_append]
        omega
    omega
  rw [if_neg hrep]
  by_cases hlen : 128 < w.val.length + Ab.replen + Ab.findlen + 1
  · rw [if_pos hlen]
    exact iff_of_false (by simp) fun h => by omega
  rw [if_neg hlen, and_iff_right (by omega)]
  constructor
  · intro h
    rw [Replaced]
    cases htype : Ab.type with
    | s =>
      rw [htype] at h
      dsimp only at h ⊢
      split_ifs at h with hend
      · obtain ⟨v', hv, hvv⟩ := Option.map_eq_some_iff.mp h
        rw [Option.some_inj] at hvv
        subst hvv
        obtain ⟨hval, -⟩ := (buildWrd_eq_some_iff (not_mem_take _) Ab.find.property).mp hv
        refine ⟨_, hval, ?_⟩
        rw [← hend, List.take_append_drop]
      · exact absurd h (by simp)
    | p =>
      rw [htype] at h
      dsimp only at h ⊢
      split_ifs at h with hbegin
      · obtain ⟨v', hv, hvv⟩ := Option.map_eq_some_iff.mp h
        rw [Option.some_inj] at hvv
        subst hvv
        obtain ⟨hval, -⟩ := (buildWrd_eq_some_iff Ab.find.property (not_mem_drop _)).mp hv
        exact ⟨_, hval, (List.prefix_iff_eq_append.mp hbegin).symm⟩
      · exact absurd h (by simp)
  · intro h
    have hsum := h.length
    have hfit : v.val.length < 128 := by omega
    rw [Replaced] at h
    cases htype : Ab.type with
    | s =>
      rw [htype] at h
      dsimp only at h ⊢
      obtain ⟨root, hv, hw⟩ := h
      have hroot : w.val.length - Ab.replen = root.length := by
        rw [hw, List.length_append, hrepl]
        omega
      have hdrop : w.val.drop root.length = Ab.repl.val := by rw [hw, List.drop_left]
      have htake : w.val.take root.length = root := by rw [hw, List.take_left]
      rw [hroot, if_pos hdrop, (buildWrd_eq_some_iff (not_mem_take _) Ab.find.property).mpr ⟨by rw [htake, hv], hfit⟩]
      rfl
    | p =>
      rw [htype] at h
      dsimp only at h ⊢
      obtain ⟨rest, hv, hw⟩ := h
      have hdrop : w.val.drop Ab.replen = rest := by
        rw [hw]
        exact List.drop_left
      have hbegin : Ab.repl.val <+: w.val := ⟨rest, hw.symm⟩
      rw [if_pos hbegin, (buildWrd_eq_some_iff Ab.find.property (not_mem_drop _)).mpr ⟨by rw [hdrop, hv], hfit⟩]
      rfl

/-- The word `N` of the dictionary is found when the rule is undone. -/
def Undoes (regexec : CString → CString → Bool) (w : CString) (Ab : UdmAffix) (N : UdmSpell) : Prop :=
  LengthPasses w Ab ∧ Replaced Ab N.word w ∧ N.flags.val ≠ [] ∧ strchr N.flags Ab.flag ∧ regexec Ab.mask N.word

/-- **Undoing a rule.** -/
theorem mem_bases_iff : N ∈ bases regexec L w Ab ↔ N ∈ L.items ∧ Undoes regexec w Ab N := by
  have hmem : N ∈ bases regexec L w Ab ↔ ∃ v, normalizeRule w Ab = some (some v) ∧ N ∈ L.items ∧ N.word = v ∧
      N.flags.val ≠ [] ∧ strchr N.flags Ab.flag ∧ regexec Ab.mask v := by
    obtain ⟨wrd, hwrd⟩ := Option.isSome_iff_exists.mp (isSome_normalizeRule w Ab)
    rw [bases, hwrd, Option.join_some]
    cases wrd with
    | none => simp
    | some v =>
      rw [Option.elim_some, searchSorted_eq, List.mem_filter, List.mem_filter, decide_eq_true_iff, decide_eq_true_iff,
        and_assoc]
      constructor
      · exact fun h => ⟨v, rfl, h⟩
      · rintro ⟨v', hv, h⟩
        rw [Option.some_inj, Option.some_inj] at hv
        rwa [hv]
  rw [hmem, Undoes]
  constructor
  · rintro ⟨v, hrule, hN, rfl, hflags⟩
    obtain ⟨hlen, hshape⟩ := normalizeRule_eq_some_iff.mp hrule
    exact ⟨hN, hlen, hshape, hflags⟩
  · rintro ⟨hN, hlen, hshape, hflags⟩
    exact ⟨N.word, normalizeRule_eq_some_iff.mpr ⟨hlen, hshape⟩, hN, rfl, hflags⟩

/-- **A rule that is undone can be applied again**, and the other way around. -/
theorem undoes_iff : Undoes regexec w Ab N ↔
    N.flags.val ≠ [] ∧ LengthPasses w Ab ∧ denormalizeRule regexec N Ab = some (some w) := by
  rw [Undoes, denormalizeRule_eq_some_iff]
  constructor
  · rintro ⟨hlen, hshape, hflags, hflag, hmatch⟩
    refine ⟨hflags, hlen, hflag, hmatch, hshape, ?_⟩
    rw [LengthPasses] at hlen
    omega
  · rintro ⟨hflags, hlen, hflag, hmatch, hshape, -⟩
    exact ⟨hlen, hshape, hflags, hflag, hmatch⟩

end Forms

/-! ## All forms from every form -/

section AllForms

variable {regexec : CString → CString → Bool} {SLL : List UdmSpellList} {ALL : List UdmAffixList} {w : CString}
variable {L : SpellList} {Al : List UdmAffix} {N : UdmSpell}

/-- An entry of which the word is a form, as far as the lengths pass. -/
def IsBase (regexec : CString → CString → Bool) (L : SpellList) (Al : List UdmAffix) (w : CString) (N : UdmSpell) : Prop :=
  N ∈ L.items ∧ w.val.length + 1 ≤ 128 ∧ (N.word = w ∨ ∃ Ab ∈ Al, Undoes regexec w Ab N)

/-- What `UdmSpellNormalize` finds, as much as there is. -/
def allBases (regexec : CString → CString → Bool) (L : SpellList) (Al : List UdmAffix) (w : CString) : List UdmSpell :=
  if 128 < w.val.length + 1 then [] else Al.flatMap (bases regexec L w) ++ searchSorted L w

theorem mem_allBases_iff : N ∈ allBases regexec L Al w ↔ IsBase regexec L Al w N := by
  rw [allBases, IsBase]
  split_ifs with hlen
  · exact iff_of_false List.not_mem_nil fun h => by omega
  · rw [List.mem_append, List.mem_flatMap, searchSorted_eq, List.mem_filter, decide_eq_true_iff]
    constructor
    · rintro (⟨Ab, hAb, hN⟩ | ⟨hN, hword⟩)
      · exact ⟨(mem_bases_iff.mp hN).1, by omega, Or.inr ⟨Ab, hAb, (mem_bases_iff.mp hN).2⟩⟩
      · exact ⟨hN, by omega, Or.inl hword⟩
    · rintro ⟨hN, -, hword | ⟨Ab, hAb, hundo⟩⟩
      · exact Or.inr ⟨hN, hword⟩
      · exact Or.inl ⟨Ab, hAb, mem_bases_iff.mpr ⟨hN, hundo⟩⟩

theorem udmSpellNormalize_eq (L : SpellList) (Al : List UdmAffix) (w : CString) (nres : ℕ) :
    udmSpellNormalize regexec (searchSorted L) Al w nres = some ((allBases regexec L Al w).take nres) := by
  rw [udmSpellNormalize, allBases]
  split_ifs with hlen
  · rw [List.take_nil]
  · have hbuild : buildWrd [] w.val = some w :=
      (buildWrd_eq_some_iff List.not_mem_nil w.property).mpr ⟨rfl, by omega⟩
    have hflat := foldl_store nres (Al.flatMap (bases regexec L w)) []
    rw [List.nil_append, List.length_nil, Nat.sub_zero] at hflat
    rw [normalizeAffixes_eq, Option.bind_some, hbuild, Option.map_some, ← hflat, ← List.foldl_append, foldl_store]
    rfl

theorem foldlM_addForms {mres : ℕ} {Norm : List UdmSpell}
    (hfit : ∀ N ∈ Norm, ∀ Ab ∈ Al, RuleFits regexec N Ab) (Res : List CString) :
    Norm.foldlM (addForms regexec Al mres) Res =
      some ((Norm.flatMap fun N => N.word :: forms regexec Al N).foldl (store mres) Res) := by
  refine foldlM_store _ _ (fun N hN Res => ?_) Res
  rw [addForms, udmSpellDenormalize_eq (hfit N hN), Option.map_some, List.foldl_cons, foldl_store]

/-- What `UdmSpellAllForms` adds for a dictionary. -/
def formsIn (regexec : CString → CString → Bool) (w : CString) (Al : UdmAffixList) (Sl : UdmSpellList) : List CString :=
  if Matching Al Sl then
    ((allBases regexec Sl.words Al.items w).take 128).flatMap fun N => N.word :: forms regexec Al.items N
  else []

/-- The words of the dictionaries of which a word is a form fit the rules. -/
def BasesFit (regexec : CString → CString → Bool) (SLL : List UdmSpellList) (ALL : List UdmAffixList) (w : CString) : Prop :=
  ∀ Al ∈ ALL, ∀ Sl ∈ SLL, Matching Al Sl → ∀ N, IsBase regexec Sl.words Al.items w N →
    ∀ Ab ∈ Al.items, RuleFits regexec N Ab

theorem udmSpellAllForms_eq (hfit : BasesFit regexec SLL ALL w) (mres : ℕ) :
    udmSpellAllForms regexec SLL ALL w mres =
      some ((ALL.flatMap fun Al => SLL.flatMap fun Sl => formsIn regexec w Al Sl).take mres) := by
  rw [udmSpellAllForms, foldlM_store mres (fun Al => SLL.flatMap fun Sl => formsIn regexec w Al Sl) _,
    foldl_store]
  · rfl
  · intro Al hAl Res
    refine foldlM_store _ _ (fun Sl hSl Res => ?_) Res
    rw [formsIn]
    split_ifs with hmatch
    · rw [udmSpellNormalize_eq, Option.bind_some]
      exact foldlM_addForms (fun N hN => hfit Al hAl Sl hSl hmatch N (mem_allBases_iff.mp (List.mem_of_mem_take hN))) Res
    · rfl

theorem mem_forms_iff {f : CString} :
    f ∈ forms regexec Al N ↔ ∃ Ab ∈ Al, denormalizeRule regexec N Ab = some (some f) := by
  rw [forms, List.mem_flatMap]
  refine exists_congr fun Ab => and_congr_right fun _ => ?_
  rw [Option.mem_toList, Option.join_eq_some_iff]

/-- A form of an entry: the word itself, or what a rule makes of it. -/
def IsForm (regexec : CString → CString → Bool) (Al : List UdmAffix) (N : UdmSpell) (f : CString) : Prop :=
  f = N.word ∨ ∃ Ab ∈ Al, denormalizeRule regexec N Ab = some (some f)

/-- A form of which the length passes the checks of `UdmSpellNormalize`. -/
def IsShortForm (regexec : CString → CString → Bool) (Al : List UdmAffix) (N : UdmSpell) (f : CString) : Prop :=
  (f = N.word ∧ f.val.length + 1 ≤ 128) ∨ ∃ Ab ∈ Al, LengthPasses f Ab ∧ denormalizeRule regexec N Ab = some (some f)

/-- What stemming is for, at a word. -/
structure StemmingInverts (regexec : CString → CString → Bool) (SLL : List UdmSpellList) (ALL : List UdmAffixList)
    (w : CString) : Prop where
  /-- From every base form its forms are made, and the word is among them when the base form was found by a rule. -/
  denormalize : ∀ Al ∈ ALL, ∀ Sl ∈ SLL, Matching Al Sl → ∀ nres Norm,
    udmSpellNormalize regexec (searchSorted Sl.words) Al.items w nres = some Norm → ∀ N ∈ Norm, ∀ mres,
      ∃ Res, udmSpellDenormalize regexec Al.items N mres = some Res ∧
        ∀ via, normalizeAffixes regexec (searchSorted Sl.words) Al.items w nres = some via → N ∈ via →
          Res.length < mres → w ∈ Res
  /-- All forms of an entry with flags are found from each of them. -/
  allForms : ∀ mres, ∃ Res, udmSpellAllForms regexec SLL ALL w mres = some Res ∧
    (Res.length < mres → ∀ Al ∈ ALL, ∀ Sl ∈ SLL, Matching Al Sl →
      (∀ Norm, udmSpellNormalize regexec (searchSorted Sl.words) Al.items w 128 = some Norm → Norm.length < 128) →
        ∀ N ∈ Sl.words.items, N.flags.val ≠ [] → IsShortForm regexec Al.items N w →
          ∀ f, IsForm regexec Al.items N f → f ∈ Res)

theorem IsShortForm.isBase (hN : N ∈ L.items)
    (hflags : N.flags.val ≠ []) (h : IsShortForm regexec Al N w) : IsBase regexec L Al w N := by
  rcases h with ⟨rfl, hlen⟩ | ⟨Ab, hAb, hlen, hrule⟩
  · exact ⟨hN, hlen, Or.inl rfl⟩
  · refine ⟨hN, ?_, Or.inr ⟨Ab, hAb, undoes_iff.mpr ⟨hflags, hlen, hrule⟩⟩⟩
    rw [LengthPasses] at hlen
    omega

theorem mem_of_take_length_lt {α : Type} {l : List α} {m : ℕ} (h : (l.take m).length < m) : l.take m = l := by
  rw [List.length_take] at h
  exact List.take_of_length_le (by omega)

theorem BasesFit.inverts (hfit : BasesFit regexec SLL ALL w) : StemmingInverts regexec SLL ALL w where
  denormalize := by
    intro Al hAl Sl hSl hmatch nres Norm hNorm N hN mres
    rw [udmSpellNormalize_eq, Option.some_inj] at hNorm
    rw [← hNorm] at hN
    have hbase := mem_allBases_iff.mp (List.mem_of_mem_take hN)
    refine ⟨_, udmSpellDenormalize_eq (hfit Al hAl Sl hSl hmatch N hbase) mres, fun via hvia hNvia hroom => ?_⟩
    rw [normalizeAffixes_eq, Option.some_inj] at hvia
    rw [← hvia] at hNvia
    obtain ⟨Ab, hAb, hmem⟩ := List.mem_flatMap.mp (List.mem_of_mem_take hNvia)
    rw [mem_of_take_length_lt hroom, mem_forms_iff]
    exact ⟨Ab, hAb, (undoes_iff.mp (mem_bases_iff.mp hmem).2).2.2⟩
  allForms := by
    intro mres
    refine ⟨_, udmSpellAllForms_eq hfit mres, fun hroom Al hAl Sl hSl hmatch hnorm N hN hflags hshort f hf => ?_⟩
    have hbases := mem_of_take_length_lt (hnorm _ (udmSpellNormalize_eq _ _ _ _))
    rw [mem_of_take_length_lt hroom, List.mem_flatMap]
    refine ⟨Al, hAl, List.mem_flatMap.mpr ⟨Sl, hSl, ?_⟩⟩
    rw [formsIn, if_pos hmatch, hbases]
    refine List.mem_flatMap.mpr ⟨N, mem_allBases_iff.mpr (hshort.isBase hN hflags), ?_⟩
    rw [List.mem_cons, mem_forms_iff]
    exact hf

theorem StemmingInverts.basesFit (h : StemmingInverts regexec SLL ALL w) : BasesFit regexec SLL ALL w := by
  intro Al hAl Sl hSl hmatch N hbase
  have hN := mem_allBases_iff.mpr hbase
  rw [← List.take_length (l := allBases regexec Sl.words Al.items w)] at hN
  obtain ⟨Res, hRes, -⟩ := h.denormalize Al hAl Sl hSl hmatch _ _ (udmSpellNormalize_eq _ _ _ _) N hN 0
  exact isSome_udmSpellDenormalize_iff.mp (Option.isSome_iff_exists.mpr ⟨Res, hRes⟩)

/-- **Stemming is invertible** at the words whose base forms fit all the rules of their flags. -/
theorem stemmingInverts_iff (regexec : CString → CString → Bool) (SLL : List UdmSpellList) (ALL : List UdmAffixList)
    (w : CString) : StemmingInverts regexec SLL ALL w ↔ BasesFit regexec SLL ALL w :=
  ⟨StemmingInverts.basesFit, BasesFit.inverts⟩

/-- **Another rule may not fit**: a word of 119 letters with the flags `s` and `x`, of which one adds a letter and the other
twenty. -/
theorem not_forall_stemmingInverts : ¬∀ regexec SLL ALL w, StemmingInverts regexec SLL ALL w := by
  intro h
  let N : UdmSpell := ⟨CString.take (List.replicate 119 0x61), CString.take (bytes "sx")⟩
  let ruleS : UdmAffix := ⟨0x73, .s, CString.empty, CString.take (bytes "s"), CString.take (bytes ".$")⟩
  let ruleX : UdmAffix := ⟨0x78, .s, CString.empty, CString.take (List.replicate 20 0x61), CString.take (bytes ".$")⟩
  have hfrom : ∀ S ∈ [N], FromLine S := by decide +kernel
  let L : SpellList := ⟨[N], hfrom, List.pairwise_singleton _ _⟩
  have hfit := (h (fun _ _ => true) [⟨CString.empty, CString.empty, L⟩] [⟨CString.empty, CString.empty, [ruleS, ruleX]⟩]
    (CString.take (List.replicate 119 0x61 ++ bytes "s"))).basesFit
  have hundo : Undoes (fun _ _ => true) (CString.take (List.replicate 119 0x61 ++ bytes "s")) ruleS N :=
    ⟨by unfold LengthPasses; decide +kernel, ⟨List.replicate 119 0x61, by decide +kernel, by decide +kernel⟩, by decide +kernel,
      by decide +kernel, rfl⟩
  have hbase : IsBase (fun _ _ => true) L [ruleS, ruleX] (CString.take (List.replicate 119 0x61 ++ bytes "s")) N :=
    ⟨List.mem_singleton_self N, by decide +kernel, Or.inr ⟨ruleS, List.mem_cons_self, hundo⟩⟩
  have hrule := hfit _ List.mem_cons_self _ List.mem_cons_self ⟨rfl, rfl⟩ N hbase ruleX (List.mem_of_getLast? rfl)
  have hlen := (hrule (by decide +kernel)).2 List.nil_suffix rfl
  exact absurd hlen (by decide +kernel)

end AllForms

end MnoGoSearch.Spell
