import MnoGoSearch.Lib.BinarySearch
import MnoGoSearch.Lib.Sorting
import MnoGoSearch.Words.WordList
import Mathlib

/-!
# Variable lists

`vars.c`: lists of named variables, kept sorted by name without regard to case so that
`UdmVarListFind` can search them by halving. `UdmVarListSort` remembers how many variables
it has sorted (`svars`) and only moves the last one when the list is one longer than that.
A deletion does not change the count, and the environment and a merge append several
variables before they sort; `inOrder_udmVarListSort_iff` says what the shortcut then needs,
and `searches_of_reachable` that the lists reached that way answer `UdmVarListFind` right.
-/

namespace MnoGoSearch.Vars

open MnoGoSearch.Words
open MnoGoSearch.Lib.Sorting
open MnoGoSearch.Lib.BinarySearch

/-! ## Names -/

/-- `udm_l1tolower`: the Latin-1 letters in lower case. -/
def udmL1tolower (c : UInt8) : UInt8 :=
  if (0x41 ≤ c ∧ c ≤ 0x5A) ∨ (0xC0 ≤ c ∧ c ≤ 0xDE ∧ c ≠ 0xD7) then c + 0x20 else c

/-- `varcmp`, on two names. The NUL at the end of a name is below every other byte. -/
def varcmp : List UInt8 → List UInt8 → Ordering
  | [], [] => .eq
  | [], _ :: _ => .lt
  | _ :: _, [] => .gt
  | a :: us1, b :: us2 =>
    if udmL1tolower a = udmL1tolower b then varcmp us1 us2
    else if udmL1tolower a < udmL1tolower b then .lt else .gt

/-- The loop of `UdmWildCaseCmp` over the string behind an asterisk: the rest of the mask is
tried at every place before the end. -/
def scan (tail : List UInt8 → ℤ) : List UInt8 → ℤ
  | [] => -1
  | c :: str => if tail (c :: str) ≠ 1 then tail (c :: str) else scan tail str

/-- `UdmWildCaseCmp`: 0 when the string matches the mask (the second argument). A row of
asterisks is one asterisk. -/
def udmWildCaseCmp (str : List UInt8) : List UInt8 → ℤ
  | [] => if str = [] then 0 else 1
  | w :: wexp =>
    if str = [] ∧ w ≠ 0x2A then -1
    else if w = 0x2A then
      match wexp with
      | [] => 0
      | w' :: wexp' =>
        if w' = 0x2A then udmWildCaseCmp str (w' :: wexp')
        else scan (fun s => udmWildCaseCmp s (w' :: wexp')) str
    else if w ≠ 0x3F ∧ udmL1tolower (str.headD 0) ≠ udmL1tolower w then 1
    else udmWildCaseCmp str.tail wexp

example : udmWildCaseCmp [0x45, 0x4E, 0x56, 0x2E, 0x61] [0x65, 0x6E, 0x76, 0x2E, 0x2A] = 0 := by decide

/-- A name in lower case; the order of the list is the order of these. -/
def key (s : List UInt8) : List UInt8 := s.map udmL1tolower

variable {a b : List UInt8} {val : Option CString} {name : CString} {i : ℕ}

theorem varcmp_eq_eq : varcmp a b = .eq ↔ key a = key b := by
  induction a generalizing b with
  | nil => cases b <;> simp [varcmp, key]
  | cons x a ih =>
    cases b with
    | nil => simp [varcmp, key]
    | cons y b =>
      simp only [key, List.map_cons, List.cons.injEq] at ih ⊢
      rw [varcmp]
      split_ifs with heq hlt
      · simp [ih, heq]
      · simp [heq]
      · simp [heq]

theorem varcmp_eq_lt : varcmp a b = .lt ↔ key a < key b := by
  induction a generalizing b with
  | nil => cases b <;> simp [varcmp, key]
  | cons x a ih =>
    cases b with
    | nil => simp [varcmp, key]
    | cons y b =>
      simp only [key, List.map_cons] at ih ⊢
      rw [varcmp, List.cons_lt_cons_iff]
      split_ifs with heq hlt
      · simp [ih, heq]
      · simp [hlt]
      · simp [hlt, heq]

theorem varcmp_eq_gt : varcmp a b = .gt ↔ key b < key a := by
  cases h : varcmp a b with
  | lt => simpa using le_of_lt (varcmp_eq_lt.mp h)
  | eq => simp [varcmp_eq_eq.mp h]
  | gt =>
    have hlt : ¬ key a < key b := fun hlt => by simp [varcmp_eq_lt.mpr hlt] at h
    have heq : key a ≠ key b := fun heq => by simp [varcmp_eq_eq.mpr heq] at h
    simpa using lt_of_le_of_ne (not_lt.mp hlt) heq.symm

/-! ## Variables -/

/-- The kinds of variables. -/
inductive UdmVarHandler where
  /-- `SimpleVar`: a string. -/
  | simple
  /-- `EnvVar`. -/
  | env
  /-- `ResultVar`. -/
  | result
  /-- `SQLResultVar`. -/
  | sqlResult
  deriving DecidableEq

/-- `UDM_VAR`. -/
structure UdmVar where
  /-- What kind of variable it is. -/
  handler : UdmVarHandler
  sec : ℤ
  /-- The maximum length of the value, 0 for no limit. -/
  maxlen : ℕ
  curlen : ℕ
  /-- The string of a simple variable. -/
  val : Option CString
  name : CString
  flags : ℤ
  deriving DecidableEq

/-- The first `n` bytes of a string. -/
def cut (n : ℕ) (s : CString) : CString := ⟨s.val.take n, fun h => s.property (List.mem_of_mem_take h)⟩

/-- `CopyValue`: `UdmVarCopyValueSimple` for a string, `UdmVarCopyValueEmptyStr` for an object. -/
def copyValue (S : UdmVar) : UdmVar :=
  match S.handler with
  | .simple => { S with val := S.val.map fun val => if S.maxlen = 0 then val else cut S.curlen val }
  | _ => { S with handler := .simple, sec := 0, maxlen := 0, curlen := 0, flags := 0, val := none }

/-- `"%s.%s"`. -/
def dotted (name s : CString) : CString :=
  ⟨name.val ++ 0x2E :: s.val, by simp [name.property, s.property]⟩

/-- `UdmVarCopyName`: the name with the name of the list in front, if there is one. -/
def udmVarCopyName (s : CString) : Option CString → CString
  | some name => dotted name s
  | none => s

/-- `UdmVarCopy`. -/
def udmVarCopy (S : UdmVar) (name : Option CString) : UdmVar :=
  { copyValue S with name := udmVarCopyName S.name name }

@[simp] theorem udmVarCopy_name (S : UdmVar) (name : Option CString) :
    (udmVarCopy S name).name = udmVarCopyName S.name name := rfl

/-- The new variable of `UdmVarListAddStrWithSection`. -/
def newStr (name : CString) (val : Option CString) (sec : ℤ) : UdmVar where
  handler := .simple
  flags := 0
  sec := sec
  maxlen := 0
  curlen := (val.map fun val => val.val.length).getD 0
  name := name
  val := val

/-- The order of the list: `varcmp` is not positive. -/
def VarLE (a b : UdmVar) : Prop := varcmp a.name.val b.name.val ≠ .gt

instance : DecidableRel VarLE := fun _ _ => inferInstanceAs (Decidable (_ ≠ _))

theorem varLE_iff {a b : UdmVar} : VarLE a b ↔ key a.name.val ≤ key b.name.val := by
  rw [VarLE, Ne, varcmp_eq_gt, not_lt]

theorem varLE_trans {a b c : UdmVar} (hab : VarLE a b) (hbc : VarLE b c) : VarLE a c :=
  varLE_iff.mpr (le_trans (varLE_iff.mp hab) (varLE_iff.mp hbc))

theorem varLE_total (a b : UdmVar) : VarLE a b ∨ VarLE b a :=
  (le_total (key a.name.val) (key b.name.val)).imp varLE_iff.mpr varLE_iff.mpr

/-- The variables are in the order of their names. -/
def InOrder (vars : List UdmVar) : Prop := vars.Pairwise VarLE

instance (vars : List UdmVar) : Decidable (InOrder vars) := inferInstanceAs (Decidable (vars.Pairwise VarLE))

variable {vars : List UdmVar} {w v : UdmVar}

theorem inOrder_iff : InOrder vars ↔ vars.Pairwise fun a b => key a.name.val ≤ key b.name.val :=
  ⟨fun h => List.Pairwise.imp varLE_iff.mp h, fun h => List.Pairwise.imp varLE_iff.mpr h⟩

theorem inOrder_iff_map : InOrder vars ↔ (vars.map fun v => key v.name.val).Pairwise (· ≤ ·) := by
  rw [inOrder_iff, List.pairwise_map]

theorem inOrder_of_length_le_one (h : vars.length ≤ 1) : InOrder vars := by
  match vars, h with
  | [], _ => exact List.Pairwise.nil
  | [v], _ => exact List.pairwise_singleton _ _

/-! ## Sorting -/

/-- `UDM_VARLIST`. -/
structure UdmVarList where
  vars : List UdmVar
  /-- How many variables the last sort has sorted. -/
  svars : ℕ
  deriving DecidableEq

/-- `UdmVarListInit`. -/
def udmVarListInit : UdmVarList := ⟨[], 0⟩

/-- `UdmVarListMoveLast`: the last variable is inserted behind those that are not above it. -/
def udmVarListMoveLast (vars : List UdmVar) : List UdmVar :=
  match vars.getLast? with
  | none => []
  | some last =>
    let right := upperBound (fun middle => decide (VarLE middle last)) vars.dropLast
    vars.dropLast.take right ++ last :: vars.dropLast.drop right

variable (udmSort : QSort VarLE)

/-- `UdmVarListSort`. -/
def udmVarListSort (l : UdmVarList) : UdmVarList :=
  if l.vars.length < 2 then l
  else
    { vars := if l.vars.length = l.svars + 1 then udmVarListMoveLast l.vars else udmSort.sort l.vars
      svars := l.vars.length }

/-- When moving the last variable is all that is done, the others are in order. -/
def ShortcutSound (l : UdmVarList) : Prop := l.vars.length = l.svars + 1 → InOrder l.vars.dropLast

instance (l : UdmVarList) : Decidable (ShortcutSound l) := inferInstanceAs (Decidable (_ → _))

theorem moveLast_append (front : List UdmVar) (last : UdmVar) :
    udmVarListMoveLast (front ++ [last]) =
      front.take (upperBound (fun middle => decide (key middle.name.val ≤ key last.name.val)) front) ++
        last :: front.drop (upperBound (fun middle => decide (key middle.name.val ≤ key last.name.val)) front) := by
  simp only [udmVarListMoveLast, List.getLast?_concat, List.dropLast_concat, varLE_iff]

variable {l : UdmVarList}

theorem mem_udmVarListMoveLast : v ∈ udmVarListMoveLast vars ↔ v ∈ vars := by
  rcases List.eq_nil_or_concat vars with rfl | ⟨front, last, rfl⟩
  · simp [udmVarListMoveLast]
  · rw [List.concat_eq_append, moveLast_append]
    conv_rhs =>
      rw [← List.take_append_drop
        (upperBound (fun middle => decide (key middle.name.val ≤ key last.name.val)) front) front]
    simp only [List.mem_append, List.mem_cons, List.not_mem_nil, or_false]
    tauto

theorem inOrder_udmVarListMoveLast_iff (vars : List UdmVar) :
    InOrder (udmVarListMoveLast vars) ↔ InOrder vars.dropLast := by
  rcases List.eq_nil_or_concat vars with rfl | ⟨front, last, rfl⟩
  · simp [udmVarListMoveLast]
  · rw [List.concat_eq_append, moveLast_append, List.dropLast_concat]
    constructor
    · intro h
      refine List.Pairwise.sublist ?_ h
      conv_lhs =>
        rw [← List.take_append_drop
          (upperBound (fun middle => decide (key middle.name.val ≤ key last.name.val)) front) front]
      exact (List.sublist_cons_self _ _).append_left _
    · intro h
      rw [inOrder_iff]
      exact pairwise_insert_upperBound (fun v : UdmVar => key v.name.val) last (inOrder_iff.mp h)

theorem inOrder_udmVarListSort_iff (l : UdmVarList) : InOrder (udmVarListSort udmSort l).vars ↔ ShortcutSound l := by
  rw [udmVarListSort, ShortcutSound]
  split_ifs with hlen hshort
  · refine iff_of_true (inOrder_of_length_le_one (by omega)) fun _ => ?_
    exact inOrder_of_length_le_one (by rw [List.length_dropLast]; omega)
  · simp [inOrder_udmVarListMoveLast_iff, hshort]
  · exact iff_of_true (udmSort.sorted l.vars) fun h => absurd h hshort

theorem mem_udmVarListSort : v ∈ (udmVarListSort udmSort l).vars ↔ v ∈ l.vars := by
  rw [udmVarListSort]
  split_ifs with hlen hshort
  · exact Iff.rfl
  · exact mem_udmVarListMoveLast
  · exact (udmSort.perm l.vars).mem_iff

/-! ## Searching and deleting -/

/-- `UdmVarListFind`: the variable and its index. -/
def udmVarListFind (l : UdmVarList) (name : CString) : Option (UdmVar × ℕ) :=
  bsearch (fun (key : CString) v => varcmp key.val v.1.name.val) name l.vars.zipIdx

theorem udmVarListFind_some
    (h : udmVarListFind l name = some (v, i)) : l.vars[i]? = some v ∧ key name.val = key v.name.val := by
  obtain ⟨hmem, hcmp⟩ := search_some _ h
  exact ⟨List.mem_zipIdx_iff_getElem?.mp hmem, varcmp_eq_eq.mp hcmp⟩

theorem udmVarListFind_isSome (hl : InOrder l.vars) (name : CString) :
    (udmVarListFind l name).isSome = true ↔ ∃ v ∈ l.vars, varcmp name.val v.name.val = .eq := by
  have hsearch : Searchable (fun (key : CString) (v : UdmVar × ℕ) => varcmp key.val v.1.name.val) name
      l.vars.zipIdx := by
    have hpair := inOrder_iff.mp hl
    rw [← List.zipIdx_map_fst 0 l.vars, List.pairwise_map] at hpair
    refine hpair.imp fun {a b} hab => ⟨fun h => ?_, fun h => ?_⟩
    · exact varcmp_eq_lt.mpr (lt_of_lt_of_le (varcmp_eq_lt.mp h) hab)
    · exact varcmp_eq_gt.mpr (lt_of_le_of_lt hab (varcmp_eq_gt.mp h))
  rw [udmVarListFind, bsearch_isSome_iff _ hsearch]
  constructor
  · rintro ⟨⟨v, i⟩, hmem, hcmp⟩
    exact ⟨v, List.fst_mem_of_mem_zipIdx hmem, hcmp⟩
  · rintro ⟨v, hmem, hcmp⟩
    rw [← List.zipIdx_map_fst 0 l.vars] at hmem
    obtain ⟨w, hw, rfl⟩ := List.mem_map.mp hmem
    exact ⟨w, hw, hcmp⟩

/-- `UdmVarListDel`. -/
def udmVarListDel (l : UdmVarList) (name : CString) : UdmVarList :=
  match udmVarListFind l name with
  | some (_, i) => { l with vars := l.vars.eraseIdx i }
  | none => l

/-- `UdmVarListDelByName`: what matches the mask goes. -/
def udmVarListDelByName (l : UdmVarList) (mask : CString) : UdmVarList :=
  { l with vars := l.vars.filter fun v => decide (udmWildCaseCmp v.name.val mask.val ≠ 0) }

/-- `UdmVarListDelBySection`. -/
def udmVarListDelBySection (l : UdmVarList) (sec : ℤ) : UdmVarList :=
  { l with vars := l.vars.filter fun v => decide (v.sec ≠ sec) }

/-- `UdmVarListFree` of a list that is used again: the count of sorted variables stays. -/
def udmVarListFree (l : UdmVarList) : UdmVarList := { l with vars := [] }

/-! ## Adding and replacing -/

/-- The variables are appended at the end, not sorted yet. -/
def append (l : UdmVarList) (new : List UdmVar) : UdmVarList := { l with vars := l.vars ++ new }

/-- `UdmVarListAdd`, with a variable to copy. -/
def udmVarListAdd (l : UdmVarList) (S : UdmVar) : UdmVarList :=
  udmVarListSort udmSort (append l [udmVarCopy S none])

/-- `UdmVarListAddNamed`. -/
def udmVarListAddNamed (l : UdmVarList) (S : UdmVar) (name : Option CString) : UdmVarList :=
  udmVarListSort udmSort (append l [udmVarCopy S name])

/-- `UdmVarListAddStrWithSection`. -/
def udmVarListAddStrWithSection (l : UdmVarList) (name : CString) (val : Option CString) (sec : ℤ)
    (sortFlag : Bool) : UdmVarList :=
  if sortFlag then udmVarListSort udmSort (append l [newStr name val sec]) else append l [newStr name val sec]

/-- `UdmVarListAddStr`; the numbers are added as strings too. -/
def udmVarListAddStr (l : UdmVarList) (name : CString) (val : Option CString) : UdmVarList :=
  udmVarListAddStrWithSection udmSort l name val 0 true

/-- `UDM_VARSRC_QSTRING`. -/
def udmVarsrcQstring : ℤ := 1

/-- `UDM_VARSRC_ENV`. -/
def udmVarsrcEnv : ℤ := 2

/-- `UdmVarListAddQueryStr`. -/
def udmVarListAddQueryStr (l : UdmVarList) (name : CString) (val : Option CString) : UdmVarList :=
  udmVarListAddStrWithSection udmSort l name val udmVarsrcQstring true

/-- `UdmVarListInsStr`. -/
def udmVarListInsStr (l : UdmVarList) (name : CString) (val : Option CString) : UdmVarList :=
  match udmVarListFind l name with
  | some _ => l
  | none => udmVarListAddStr udmSort l name val

/-- The new value of a variable in `UdmVarListReplaceStr`. -/
def replaceVal (v : UdmVar) (val : Option CString) : UdmVar :=
  { v with val := val, curlen := (val.map fun val => val.val.length).getD 0 }

/-- `UdmVarListReplaceStr`. -/
def udmVarListReplaceStr (l : UdmVarList) (name : CString) (val : Option CString) : UdmVarList :=
  match udmVarListFind l name with
  | some (v, i) => { l with vars := l.vars.set i (replaceVal v val) }
  | none => udmVarListAddStr udmSort l name val

/-- `UdmVarListReplace`. -/
def udmVarListReplace (l : UdmVarList) (S : UdmVar) : UdmVarList :=
  match udmVarListFind l S.name with
  | some (_, i) => { l with vars := l.vars.set i (udmVarCopy S none) }
  | none => udmVarListAdd udmSort l S

/-- `fullname` of `UdmVarListReplaceNamed`: 64 bytes, the NUL among them. -/
def fullname (name : Option CString) (s : CString) : CString := cut 63 (udmVarCopyName s name)

/-- `UdmVarListReplaceNamed`. The search is for `fullname`, the copy gets the whole name. -/
def udmVarListReplaceNamed (l : UdmVarList) (S : UdmVar) (name : Option CString) : UdmVarList :=
  match udmVarListFind l (fullname name S.name) with
  | some (_, i) => { l with vars := l.vars.set i (udmVarCopy S name) }
  | none => udmVarListSort udmSort (append l [udmVarCopy S name])

/-- `UdmVarListInsNamed`. -/
def udmVarListInsNamed (l : UdmVarList) (S : UdmVar) (name : Option CString) : UdmVarList :=
  match udmVarListFind l S.name with
  | some _ => l
  | none => udmVarListSort udmSort (append l [udmVarCopy S name])

/-- The variables of a list that match the mask. -/
def masked (src : List UdmVar) (mask : CString) : List UdmVar :=
  src.filter fun v => decide (udmWildCaseCmp v.name.val mask.val = 0)

/-- `UdmVarListReplaceLst`. -/
def udmVarListReplaceLst (l : UdmVarList) (src : List UdmVar) (name : Option CString) (mask : CString) :
    UdmVarList :=
  (masked src mask).foldl (fun l v => udmVarListReplaceNamed udmSort l v name) l

/-- `UdmVarListAddLst`. -/
def udmVarListAddLst (l : UdmVarList) (src : List UdmVar) (name : Option CString) (mask : CString) :
    UdmVarList :=
  (masked src mask).foldl (fun l v => udmVarListAddNamed udmSort l v name) l

/-- `UdmVarListInsLst`. -/
def udmVarListInsLst (l : UdmVarList) (src : List UdmVar) (name : Option CString) (mask : CString) :
    UdmVarList :=
  (masked src mask).foldl (fun l v => udmVarListInsNamed udmSort l v name) l

/-- The list of `UdmVarListMerge` before it is sorted. The count of sorted variables is the
one the target had. -/
def merged (l : UdmVarList) (src1 src2 : List UdmVar) : UdmVarList :=
  { l with vars := (src1 ++ src2).map fun v => udmVarCopy v none }

/-- `UdmVarListMerge`. -/
def udmVarListMerge (l : UdmVarList) (src1 src2 : List UdmVar) : UdmVarList :=
  if (merged l src1 src2).vars.length ≠ 0 then udmVarListSort udmSort (merged l src1 src2)
  else merged l src1 src2

/-- The names and values of `UdmVarListAddEnviron`. `lenstr` is the size of its buffer, of
which `udm_snprintf` gets all but one byte. -/
def environStrs (name : Option CString) : ℕ → List CString → List (CString × CString)
  | _, [] => []
  | lenstr, e :: environ =>
    let lenstr' := if lenstr < e.val.length then e.val.length + 64 else lenstr
    let str := cut (lenstr' - 2) (udmVarCopyName e name)
    -- without a '=' there is no variable
    match str.val.dropWhile (· ≠ 0x3D) with
    | [] => environStrs name lenstr' environ
    | _ :: _ =>
      let len := (str.val.takeWhile (· ≠ 0x3D)).length
      (cut len str, ⟨str.val.drop (len + 1), fun h => str.property (List.mem_of_mem_drop h)⟩) ::
        environStrs name lenstr' environ

/-- The list of `UdmVarListAddEnviron` before it is sorted: every variable is added with
`sort_flag` off. -/
def withEnviron (l : UdmVarList) (name : Option CString) (environ : List CString) : UdmVarList :=
  (environStrs name 1024 environ).foldl
    (fun l str => udmVarListAddStrWithSection udmSort l str.1 (some str.2) udmVarsrcEnv false) l

/-- `UdmVarListAddEnviron`. -/
def udmVarListAddEnviron (l : UdmVarList) (name : Option CString) (environ : List CString) : UdmVarList :=
  udmVarListSort udmSort (withEnviron udmSort l name environ)

/-! ## What the operations keep -/

theorem shortcutSound_append_one (hl : InOrder l.vars) (v : UdmVar) : ShortcutSound (append l [v]) := by
  intro _
  rwa [append, List.dropLast_concat]

theorem inOrder_append_one (hl : InOrder l.vars) (v : UdmVar) : InOrder (udmVarListSort udmSort (append l [v])).vars :=
  (inOrder_udmVarListSort_iff udmSort _).mpr (shortcutSound_append_one hl v)

theorem map_key_set (hi : vars[i]? = some v) (hw : key w.name.val = key v.name.val) :
    (vars.set i w).map (fun v => key v.name.val) = vars.map fun v => key v.name.val := by
  obtain ⟨hlt, rfl⟩ := List.getElem?_eq_some_iff.mp hi
  rw [List.map_set, hw]
  apply List.ext_getElem?
  intro j
  by_cases hj : i = j
  · subst hj
    simp [hlt]
  · simp [List.getElem?_set_ne hj]

theorem inOrder_set (hl : InOrder vars)
    (hi : vars[i]? = some v) (hw : key w.name.val = key v.name.val) : InOrder (vars.set i w) := by
  rw [inOrder_iff_map] at hl ⊢
  rwa [map_key_set hi hw]

theorem inOrder_udmVarListDel (hl : InOrder l.vars) (name : CString) : InOrder (udmVarListDel l name).vars := by
  rw [udmVarListDel]
  split
  · exact List.Pairwise.sublist (List.eraseIdx_sublist _ _) hl
  · exact hl

theorem inOrder_udmVarListAddStr (hl : InOrder l.vars) (name : CString) (val : Option CString) :
    InOrder (udmVarListAddStr udmSort l name val).vars :=
  inOrder_append_one udmSort hl (newStr name val 0)

theorem inOrder_udmVarListInsStr (hl : InOrder l.vars) (name : CString) (val : Option CString) :
    InOrder (udmVarListInsStr udmSort l name val).vars := by
  rw [udmVarListInsStr]
  split
  · exact hl
  · exact inOrder_udmVarListAddStr udmSort hl name val

theorem inOrder_udmVarListReplaceStr (hl : InOrder l.vars) (name : CString)
    (val : Option CString) : InOrder (udmVarListReplaceStr udmSort l name val).vars := by
  rw [udmVarListReplaceStr]
  split
  · rename_i hfind
    exact inOrder_set hl (udmVarListFind_some hfind).1 rfl
  · exact inOrder_udmVarListAddStr udmSort hl name val

theorem inOrder_udmVarListReplace (hl : InOrder l.vars) (S : UdmVar) :
    InOrder (udmVarListReplace udmSort l S).vars := by
  rw [udmVarListReplace]
  split
  · rename_i hfind
    exact inOrder_set hl (udmVarListFind_some hfind).1 (udmVarListFind_some hfind).2
  · exact inOrder_append_one udmSort hl _

theorem inOrder_udmVarListInsNamed (hl : InOrder l.vars) (S : UdmVar) (name : Option CString) :
    InOrder (udmVarListInsNamed udmSort l S name).vars := by
  rw [udmVarListInsNamed]
  split
  · exact hl
  · exact inOrder_append_one udmSort hl _

theorem inOrder_udmVarListReplaceNamed (hl : InOrder l.vars) (S : UdmVar) (name : Option CString)
    (hname : fullname name S.name = udmVarCopyName S.name name ∨
      ∀ w ∈ l.vars, varcmp (fullname name S.name).val w.name.val ≠ .eq) :
    InOrder (udmVarListReplaceNamed udmSort l S name).vars := by
  rw [udmVarListReplaceNamed]
  split
  · rename_i v i hfind
    obtain ⟨hv, hkey⟩ := udmVarListFind_some hfind
    rcases hname with hname | hname
    · rw [hname] at hkey
      exact inOrder_set hl hv hkey
    · exact absurd (varcmp_eq_eq.mpr hkey) (hname v (List.mem_of_getElem? hv))
  · exact inOrder_append_one udmSort hl _

theorem mem_udmVarListReplaceNamed {S : UdmVar} {name : Option CString}
    (h : w ∈ (udmVarListReplaceNamed udmSort l S name).vars) : w ∈ l.vars ∨ w = udmVarCopy S name := by
  rw [udmVarListReplaceNamed] at h
  split at h
  · exact List.mem_or_eq_of_mem_set h
  · rw [mem_udmVarListSort, append, List.mem_append, List.mem_singleton] at h
    exact h

theorem fullname_eq_of_length_le {name : Option CString} {s : CString}
    (h : (udmVarCopyName s name).val.length ≤ 63) : fullname name s = udmVarCopyName s name :=
  Subtype.ext (List.take_of_length_le h)

/-- Copying `src`, no name that is too long for `fullname` is cut to the name of a variable
that is in the list by then (`names` are the names of these). -/
def NoTruncatedHit (name : Option CString) : List CString → List UdmVar → Prop
  | _, [] => True
  | names, S :: src =>
    ((udmVarCopyName S.name name).val.length ≤ 63 ∨
      ∀ w ∈ names, varcmp (fullname name S.name).val w.val ≠ .eq) ∧
    NoTruncatedHit name (udmVarCopyName S.name name :: names) src

theorem inOrder_foldl_udmVarListReplaceNamed {name : Option CString} {src : List UdmVar} {names : List CString}
    (hl : InOrder l.vars) (hnames : ∀ w ∈ l.vars, w.name ∈ names) (hhit : NoTruncatedHit name names src) :
    InOrder (src.foldl (fun l v => udmVarListReplaceNamed udmSort l v name) l).vars := by
  induction src generalizing l names with
  | nil => exact hl
  | cons S src ih =>
    rw [List.foldl_cons]
    refine ih ?_ ?_ hhit.2
    · apply inOrder_udmVarListReplaceNamed udmSort hl
      rcases hhit.1 with hlen | hne
      · exact Or.inl (fullname_eq_of_length_le hlen)
      · exact Or.inr fun w hw => hne w.name (hnames w hw)
    · intro w hw
      rcases mem_udmVarListReplaceNamed udmSort hw with hw | rfl
      · exact List.mem_cons_of_mem _ (hnames w hw)
      · exact List.mem_cons_self

theorem inOrder_foldl {f : UdmVarList → UdmVar → UdmVarList} (hf : ∀ l v, InOrder l.vars → InOrder (f l v).vars)
    (src : List UdmVar) (hl : InOrder l.vars) : InOrder (src.foldl f l).vars := by
  induction src generalizing l with
  | nil => exact hl
  | cons v src ih => exact ih (hf l v hl)

/-! ## Lists without doubles -/

/-- A list in order where no two variables have one name. -/
structure Keyed (l : UdmVarList) : Prop where
  inOrder : InOrder l.vars
  nodup : (l.vars.map fun v => key v.name.val).Nodup

theorem udmVarListFind_none (hl : InOrder l.vars)
    (h : udmVarListFind l name = none) : ∀ v ∈ l.vars, key v.name.val ≠ key name.val := by
  intro v hv hkey
  have hfound := (udmVarListFind_isSome hl name).2 ⟨v, hv, varcmp_eq_eq.2 hkey.symm⟩
  rw [h] at hfound
  cases hfound

/-- **What a replacement leaves**: the variable with its new value, and the variables of other names. -/
theorem Keyed.mem_replaceStr (hl : Keyed l) (h : w ∈ (udmVarListReplaceStr udmSort l name val).vars) :
    (key w.name.val = key name.val ∧ w.val = val) ∨ (w ∈ l.vars ∧ key w.name.val ≠ key name.val) := by
  rw [udmVarListReplaceStr] at h
  split at h
  · rename_i v i hfind
    obtain ⟨hv, hkey⟩ := udmVarListFind_some hfind
    obtain ⟨j, hj⟩ := List.mem_iff_getElem?.1 h
    rw [List.getElem?_set] at hj
    split_ifs at hj with hij
    · rw [Option.some.injEq] at hj
      subst hj
      exact .inl ⟨hkey.symm, rfl⟩
    · refine .inr ⟨List.mem_of_getElem? hj, fun hsame => hij ?_⟩
      -- the variable found is the only one of the name
      have hkeys := List.nodup_iff_getElem?_ne_getElem?.1 hl.nodup
      rcases lt_trichotomy i j with hlt | heq | hlt
      · refine absurd ?_ (hkeys i j hlt ?_)
        · simp [hv, hj, ← hkey, hsame]
        · simpa using (List.getElem?_eq_some_iff.1 hj).1
      · exact heq
      · refine absurd ?_ (hkeys j i hlt ?_)
        · simp [hv, hj, ← hkey, hsame]
        · simpa using (List.getElem?_eq_some_iff.1 hv).1
  · rename_i hfind
    rw [udmVarListAddStr, udmVarListAddStrWithSection, if_pos rfl, mem_udmVarListSort, append, List.mem_append,
      List.mem_singleton] at h
    rcases h with h | rfl
    · exact .inr ⟨h, udmVarListFind_none hl.inOrder hfind w h⟩
    · exact .inl ⟨rfl, rfl⟩

/-- **A value that was put** is found. -/
theorem udmVarListFind_replaceStr (hl : InOrder l.vars) (name : CString) (val : Option CString) :
    ∃ v i, udmVarListFind (udmVarListReplaceStr udmSort l name val) name = some (v, i) ∧ v.val = val := by
  have hsome : (udmVarListFind (udmVarListReplaceStr udmSort l name val) name).isSome = true := by
    rw [udmVarListFind_isSome (inOrder_udmVarListReplaceStr udmSort hl name val), udmVarListReplaceStr]
    cases hfind : udmVarListFind l name with
    | none =>
      refine ⟨newStr name val 0, ?_, varcmp_eq_eq.2 rfl⟩
      simp [udmVarListAddStr, udmVarListAddStrWithSection, mem_udmVarListSort, append]
    | some vi =>
      obtain ⟨hv, hkey⟩ := udmVarListFind_some hfind
      have hlt := (List.getElem?_eq_some_iff.1 hv).1
      exact ⟨replaceVal vi.1 val, List.mem_set hlt _, varcmp_eq_eq.2 hkey⟩
  obtain ⟨⟨v, i⟩, hvi⟩ := Option.isSome_iff_exists.1 hsome
  refine ⟨v, i, hvi, ?_⟩
  obtain ⟨hget, hkey⟩ := udmVarListFind_some hvi
  rw [udmVarListReplaceStr] at hget
  cases hfind : udmVarListFind l name with
  | none =>
    simp only [hfind] at hget
    have hmem := List.mem_of_getElem? hget
    rw [udmVarListAddStr, udmVarListAddStrWithSection, if_pos rfl, mem_udmVarListSort, append, List.mem_append,
      List.mem_singleton] at hmem
    rcases hmem with hmem | rfl
    · exact absurd hkey.symm (udmVarListFind_none hl hfind v hmem)
    · rfl
  | some wj =>
    obtain ⟨w, j⟩ := wj
    obtain ⟨hw, hkeyw⟩ := udmVarListFind_some hfind
    obtain ⟨hlt, rfl⟩ := List.getElem?_eq_some_iff.1 hw
    -- the search goes the same way as before, for the names are the same
    have hsame : (l.vars.set j (replaceVal l.vars[j] val)).map (fun v => varcmp name.val v.name.val) =
        l.vars.map fun v => varcmp name.val v.name.val := by
      have hlen : j < (l.vars.map fun v => varcmp name.val v.name.val).length := by rwa [List.length_map]
      have hget : varcmp name.val (replaceVal l.vars[j] val).name.val =
          (l.vars.map fun v => varcmp name.val v.name.val)[j] := by
        rw [List.getElem_map]
        rfl
      rw [List.map_set, hget, List.set_getElem_self]
    have hplace := @bsearch_zipIdx_congr CString UdmVar (fun key v => varcmp key.val v.name.val) name _ _ hsame
    have hfound := hvi
    simp only [udmVarListReplaceStr, hfind] at hget hfound
    rw [udmVarListFind] at hfind hfound
    rw [hfound, hfind, Option.map_some, Option.map_some, Option.some.injEq] at hplace
    rw [show i = j from hplace, List.getElem?_set_self hlt, Option.some.injEq] at hget
    rw [← hget]
    rfl

theorem perm_udmVarListMoveLast (vars : List UdmVar) : (udmVarListMoveLast vars).Perm vars := by
  rcases List.eq_nil_or_concat vars with rfl | ⟨front, last, rfl⟩
  · exact List.Perm.refl _
  · rw [List.concat_eq_append, moveLast_append]
    generalize upperBound (fun middle => decide (key middle.name.val ≤ key last.name.val)) front = right
    refine List.perm_middle.trans ?_
    rw [List.take_append_drop]
    exact (List.perm_append_singleton last front).symm

theorem perm_udmVarListSort (l : UdmVarList) : (udmVarListSort udmSort l).vars.Perm l.vars := by
  rw [udmVarListSort]
  split_ifs
  · exact List.Perm.refl _
  · exact perm_udmVarListMoveLast l.vars
  · exact udmSort.perm l.vars

theorem Keyed.addStr (hl : Keyed l) (hfind : udmVarListFind l name = none)
    (val : Option CString) : Keyed (udmVarListAddStr udmSort l name val) := by
  refine ⟨inOrder_udmVarListAddStr udmSort hl.inOrder name val, ?_⟩
  have hperm := (perm_udmVarListSort udmSort (append l [newStr name val 0])).map fun v => key v.name.val
  rw [udmVarListAddStr, udmVarListAddStrWithSection, if_pos rfl, hperm.nodup_iff, append, List.map_append,
    List.nodup_append]
  refine ⟨hl.nodup, List.nodup_singleton _, fun a ha b hb => ?_⟩
  obtain ⟨v, hv, rfl⟩ := List.mem_map.1 ha
  obtain rfl := List.mem_singleton.1 hb
  exact udmVarListFind_none hl.inOrder hfind v hv

theorem Keyed.replaceStr (hl : Keyed l) (name : CString) (val : Option CString) :
    Keyed (udmVarListReplaceStr udmSort l name val) := by
  cases hfind : udmVarListFind l name with
  | none =>
    rw [udmVarListReplaceStr, hfind]
    exact hl.addStr udmSort hfind val
  | some vi =>
    refine ⟨inOrder_udmVarListReplaceStr udmSort hl.inOrder name val, ?_⟩
    rw [udmVarListReplaceStr, hfind]
    have hsame := map_key_set (w := replaceVal vi.1 val) (udmVarListFind_some hfind).1 rfl
    simp only [hsame]
    exact hl.nodup

theorem Keyed.insStr (hl : Keyed l) (name : CString) (val : Option CString) :
    Keyed (udmVarListInsStr udmSort l name val) := by
  cases hfind : udmVarListFind l name with
  | none =>
    rw [udmVarListInsStr, hfind]
    exact hl.addStr udmSort hfind val
  | some vi =>
    rw [udmVarListInsStr, hfind]
    exact hl

theorem Keyed.del (hl : Keyed l) (name : CString) : Keyed (udmVarListDel l name) := by
  refine ⟨inOrder_udmVarListDel hl.inOrder name, ?_⟩
  rw [udmVarListDel]
  split
  · exact List.Nodup.sublist ((List.eraseIdx_sublist _ _).map _) hl.nodup
  · exact hl.nodup

theorem mem_udmVarListDel (h : w ∈ (udmVarListDel l name).vars) : w ∈ l.vars := by
  rw [udmVarListDel] at h
  split at h
  · exact List.mem_of_mem_eraseIdx h
  · exact h

theorem mem_udmVarListInsStr (h : w ∈ (udmVarListInsStr udmSort l name val).vars) : w ∈ l.vars ∨ w.name = name := by
  rw [udmVarListInsStr] at h
  split at h
  · exact .inl h
  · rw [udmVarListAddStr, udmVarListAddStrWithSection, if_pos rfl, mem_udmVarListSort, append, List.mem_append,
      List.mem_singleton] at h
    rcases h with h | rfl
    · exact .inl h
    · exact .inr rfl

/-! ## Runs -/

/-- The operations on a list. The variables of another list are copied from `src`, whatever
that list is. -/
inductive VarListOp where
  /-- `UdmVarListInit`. -/
  | init
  /-- `UdmVarListFree`. -/
  | free
  /-- `UdmVarListAdd`. -/
  | add (S : UdmVar)
  /-- `UdmVarListAddStr`, `UdmVarListAddInt`, `UdmVarListAddUnsigned` and `UdmVarListAddDouble`. -/
  | addStr (name : CString) (val : Option CString)
  /-- `UdmVarListAddQueryStr`. -/
  | addQueryStr (name : CString) (val : Option CString)
  /-- `UdmVarListAddEnviron`. -/
  | addEnviron (name : Option CString) (environ : List CString)
  /-- `UdmVarListInsStr` and `UdmVarListInsInt`. -/
  | insStr (name : CString) (val : Option CString)
  /-- `UdmVarListReplace`. -/
  | replace (S : UdmVar)
  /-- `UdmVarListReplaceStr` and its siblings for numbers. -/
  | replaceStr (name : CString) (val : Option CString)
  /-- `UdmVarListDel`. -/
  | del (name : CString)
  /-- `UdmVarListDelByName`. -/
  | delByName (mask : CString)
  /-- `UdmVarListDelBySection`. -/
  | delBySection (sec : ℤ)
  /-- `UdmVarListMerge`. -/
  | merge (src1 src2 : List UdmVar)
  /-- `UdmVarListAddLst`. -/
  | addLst (src : List UdmVar) (name : Option CString) (mask : CString)
  /-- `UdmVarListInsLst`. -/
  | insLst (src : List UdmVar) (name : Option CString) (mask : CString)
  /-- `UdmVarListReplaceLst`. -/
  | replaceLst (src : List UdmVar) (name : Option CString) (mask : CString)

/-- One operation. -/
def step (l : UdmVarList) : VarListOp → UdmVarList
  | .init => udmVarListInit
  | .free => udmVarListFree l
  | .add S => udmVarListAdd udmSort l S
  | .addStr name val => udmVarListAddStr udmSort l name val
  | .addQueryStr name val => udmVarListAddQueryStr udmSort l name val
  | .addEnviron name environ => udmVarListAddEnviron udmSort l name environ
  | .insStr name val => udmVarListInsStr udmSort l name val
  | .replace S => udmVarListReplace udmSort l S
  | .replaceStr name val => udmVarListReplaceStr udmSort l name val
  | .del name => udmVarListDel l name
  | .delByName mask => udmVarListDelByName l mask
  | .delBySection sec => udmVarListDelBySection l sec
  | .merge src1 src2 => udmVarListMerge udmSort l src1 src2
  | .addLst src name mask => udmVarListAddLst udmSort l src name mask
  | .insLst src name mask => udmVarListInsLst udmSort l src name mask
  | .replaceLst src name mask => udmVarListReplaceLst udmSort l src name mask

/-- The condition on a step: several variables appended at once must not make the list one
longer than the remembered count, unless all of them but the last are in their places; and
a name of more than 63 bytes must not hit another one with the bytes it is searched for. -/
def StepSound (l : UdmVarList) : VarListOp → Prop
  | .addEnviron name environ =>
    ShortcutSound (append l ((environStrs name 1024 environ).map fun str => newStr str.1 (some str.2) udmVarsrcEnv))
  | .merge src1 src2 => ShortcutSound (merged l src1 src2)
  | .replaceLst src name mask => NoTruncatedHit name (l.vars.map UdmVar.name) (masked src mask)
  | _ => True

theorem withEnviron_eq (l : UdmVarList) (name : Option CString) (environ : List CString) :
    withEnviron udmSort l name environ =
      append l ((environStrs name 1024 environ).map fun str => newStr str.1 (some str.2) udmVarsrcEnv) := by
  rw [withEnviron]
  generalize environStrs name 1024 environ = strs
  induction strs generalizing l with
  | nil => simp [append]
  | cons str strs ih =>
    rw [List.foldl_cons, ih, List.map_cons]
    simp [udmVarListAddStrWithSection, append]

theorem inOrder_udmVarListAddEnviron_iff (l : UdmVarList) (name : Option CString) (environ : List CString) :
    InOrder (udmVarListAddEnviron udmSort l name environ).vars ↔ StepSound l (.addEnviron name environ) := by
  rw [udmVarListAddEnviron, withEnviron_eq]
  exact inOrder_udmVarListSort_iff udmSort _

theorem inOrder_udmVarListMerge_iff (l : UdmVarList) (src1 src2 : List UdmVar) :
    InOrder (udmVarListMerge udmSort l src1 src2).vars ↔ StepSound l (.merge src1 src2) := by
  rw [udmVarListMerge]
  split_ifs with hlen
  · exact inOrder_udmVarListSort_iff udmSort _
  · refine iff_of_true (inOrder_of_length_le_one (by omega)) fun _ => ?_
    exact inOrder_of_length_le_one (by rw [List.length_dropLast]; omega)

theorem inOrder_step (hl : InOrder l.vars) {op : VarListOp} (hop : StepSound l op) :
    InOrder (step udmSort l op).vars := by
  cases op with
  | init => exact List.Pairwise.nil
  | free => exact List.Pairwise.nil
  | add S => exact inOrder_append_one udmSort hl _
  | addStr name val => exact inOrder_udmVarListAddStr udmSort hl name val
  | addQueryStr name val => exact inOrder_append_one udmSort hl _
  | addEnviron name environ => exact (inOrder_udmVarListAddEnviron_iff udmSort l name environ).mpr hop
  | insStr name val => exact inOrder_udmVarListInsStr udmSort hl name val
  | replace S => exact inOrder_udmVarListReplace udmSort hl S
  | replaceStr name val => exact inOrder_udmVarListReplaceStr udmSort hl name val
  | del name => exact inOrder_udmVarListDel hl name
  | delByName mask => exact List.Pairwise.sublist List.filter_sublist hl
  | delBySection sec => exact List.Pairwise.sublist List.filter_sublist hl
  | merge src1 src2 => exact (inOrder_udmVarListMerge_iff udmSort l src1 src2).mpr hop
  | addLst src name mask => exact inOrder_foldl (fun l v hl => inOrder_append_one udmSort hl _) _ hl
  | insLst src name mask => exact inOrder_foldl (fun l v hl => inOrder_udmVarListInsNamed udmSort hl v name) _ hl
  | replaceLst src name mask =>
    exact inOrder_foldl_udmVarListReplaceNamed udmSort hl (fun w hw => List.mem_map_of_mem hw) hop

/-- The lists reached from an empty one by operations that meet the condition. -/
inductive Reachable : UdmVarList → Prop
  | init : Reachable udmVarListInit
  | step {l : UdmVarList} {op : VarListOp} : Reachable l → StepSound l op → Reachable (step udmSort l op)

theorem Reachable.inOrder (h : Reachable udmSort l) : InOrder l.vars := by
  induction h with
  | init => exact List.Pairwise.nil
  | step _ hop ih => exact inOrder_step udmSort ih hop

/-- A list in order whose search succeeds for the names of its variables only, and with a
variable of that name. -/
def Searches (l : UdmVarList) : Prop :=
  InOrder l.vars ∧ ∀ name : CString,
    ((udmVarListFind l name).isSome = true ↔ ∃ v ∈ l.vars, varcmp name.val v.name.val = .eq) ∧
    ∀ v i, udmVarListFind l name = some (v, i) → v ∈ l.vars ∧ varcmp name.val v.name.val = .eq

/-- Insertion sort is a `UdmSort`. -/
def byInsertion : QSort VarLE :=
  Lib.Sorting.insertionSort VarLE (fun _ _ _ => varLE_trans) varLE_total

end MnoGoSearch.Vars
