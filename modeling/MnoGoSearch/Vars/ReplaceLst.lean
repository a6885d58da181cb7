import MnoGoSearch.Vars.VarList
import Mathlib

/-!
# Replacing the variables of a list

`UdmVarListReplaceLst` (`vars.c`) puts the variables of one list into another, each in the place of the one
that has its name. It looks for 63 bytes of the name and stores the whole of it. `replacedRight_iff` says
when the names stay distinct and every variable has arrived: where no longer name is stored twice, or in
the place of a variable that is wanted.

A longer name in the place of its first 63 bytes can leave the list out of order. `Before` is what is left
of the order: no name of up to 63 bytes is between two variables that stand the other way round, so that
every later search finds what is there.
-/

namespace MnoGoSearch.Vars

open MnoGoSearch.Words MnoGoSearch.Lib.Sorting MnoGoSearch.Lib.BinarySearch

/-! ## Names -/

/-- The name that a variable gets, without regard to case. -/
def storedKey (name : Option CString) (S : UdmVar) : List UInt8 := key (udmVarCopyName S.name name).val

/-- The name that is looked for. -/
def searchedKey (name : Option CString) (S : UdmVar) : List UInt8 := key (fullname name S.name).val

theorem searchedKey_eq (name : Option CString) (S : UdmVar) : searchedKey name S = (storedKey name S).take 63 := by
  rw [searchedKey, storedKey, fullname, cut, key, key, List.map_take]

theorem length_searchedKey (name : Option CString) (S : UdmVar) : (searchedKey name S).length ≤ 63 := by
  rw [searchedKey_eq, List.length_take]
  omega

variable {name : Option CString} {S w : UdmVar} {vars' src vars : List UdmVar} {k t : List UInt8}
variable {l : UdmVarList}

theorem searchedKey_of_length_le (h : (storedKey name S).length ≤ 63) : searchedKey name S = storedKey name S := by
  rw [searchedKey_eq, List.take_of_length_le h]

theorem le_take_iff {n : ℕ} {s : List UInt8} (ht : t.length ≤ n) : t ≤ s.take n ↔ t ≤ s := by
  rw [← not_lt, ← not_lt, not_iff_not]
  induction t generalizing n s with
  | nil => exact iff_of_false (List.not_lt_nil _) (List.not_lt_nil _)
  | cons a t ih =>
    obtain ⟨n, rfl⟩ := Nat.exists_eq_add_of_le' (Nat.lt_of_lt_of_le (Nat.succ_pos _) ht)
    cases s with
    | nil => rfl
    | cons b s =>
      rw [List.length_cons] at ht
      rw [List.take_succ_cons, List.cons_lt_cons_iff, List.cons_lt_cons_iff, ih (Nat.le_of_succ_le_succ ht)]

/-! ## What is left of the order -/

/-- Where one variable is not below a name of up to 63 bytes, the next is above it. -/
def Before (a b : UdmVar) : Prop := ∀ t : List UInt8, t.length ≤ 63 → t ≤ key a.name.val → t < key b.name.val

theorem before_of_lt {a b : UdmVar} (h : key a.name.val < key b.name.val) : Before a b := fun _ _ hle => lt_of_le_of_lt hle h

theorem Before.ne {a b : UdmVar} (h : Before a b) (ht : t.length ≤ 63) (ha : key a.name.val = t) :
    key b.name.val ≠ t := fun hb => lt_irrefl t (by simpa only [hb] using h t ht ha.ge)

theorem pairwise_before (hl : Keyed l) : l.vars.Pairwise Before := by
  have hlt := (inOrder_iff_map.mp hl.inOrder).and hl.nodup
  rw [List.pairwise_map] at hlt
  exact hlt.imp fun {a b} hab => before_of_lt (lt_of_le_of_ne hab.1 hab.2)

variable (udmSort : QSort VarLE)

/-- **A search for up to 63 bytes finds what is there.** -/
theorem udmVarListFind_isSome_of_before (hl : l.vars.Pairwise Before) {t : CString}
    (ht : t.val.length ≤ 63) : (udmVarListFind l t).isSome = true ↔ ∃ v ∈ l.vars, key v.name.val = key t.val := by
  have hkey : (key t.val).length ≤ 63 := by rwa [key, List.length_map]
  have hsearch : Searchable (fun (key : CString) (v : UdmVar × ℕ) => varcmp key.val v.1.name.val) t l.vars.zipIdx := by
    have hpair := hl
    rw [← List.zipIdx_map_fst 0 l.vars, List.pairwise_map] at hpair
    refine hpair.imp fun {a b} hab => ⟨fun h => ?_, fun h => ?_⟩
    · exact varcmp_eq_lt.mpr (hab _ hkey (varcmp_eq_lt.mp h).le)
    · refine varcmp_eq_gt.mpr (lt_of_not_ge fun hle => ?_)
      exact lt_asymm (varcmp_eq_gt.mp h) (hab _ hkey hle)
  rw [udmVarListFind, bsearch_isSome_iff _ hsearch]
  constructor
  · rintro ⟨⟨v, i⟩, hmem, hcmp⟩
    exact ⟨v, List.fst_mem_of_mem_zipIdx hmem, (varcmp_eq_eq.mp hcmp).symm⟩
  · rintro ⟨v, hmem, hcmp⟩
    rw [← List.zipIdx_map_fst 0 l.vars] at hmem
    obtain ⟨w, hw, rfl⟩ := List.mem_map.mp hmem
    exact ⟨w, hw, varcmp_eq_eq.mpr hcmp.symm⟩

theorem pairwise_before_set {A B : List UdmVar} {v : UdmVar} (h : (A ++ v :: B).Pairwise Before)
    (hkey : key v.name.val = (key w.name.val).take 63) : (A ++ w :: B).Pairwise Before := by
  rw [List.pairwise_append, List.pairwise_cons] at h ⊢
  obtain ⟨hA, ⟨hv, hB⟩, hAB⟩ := h
  refine ⟨hA, ⟨fun b hb t ht hle => ?_, hB⟩, fun a ha b hb => ?_⟩
  · apply hv b hb t ht
    rwa [hkey, le_take_iff ht]
  · rcases List.mem_cons.mp hb with rfl | hb
    · intro t ht hle
      have hlt := hAB a ha v List.mem_cons_self t ht hle
      rw [hkey] at hlt
      exact lt_of_lt_of_le hlt ((le_take_iff (List.length_take_le _ _)).mp le_rfl)
    · exact hAB a ha b (List.mem_cons_of_mem _ hb)

theorem pairwise_before_moveLast {front : List UdmVar} (h : front.Pairwise Before)
    (hnew : ∀ v ∈ front, key v.name.val ≠ (key w.name.val).take 63) :
    (udmVarListMoveLast (front ++ [w])).Pairwise Before := by
  rw [moveLast_append]
  have hr := partitionPoint_le (fun middle : UdmVar => decide (key middle.name.val ≤ key w.name.val)) front.length front
  obtain ⟨hbefore, hbehind⟩ := @partitionPoint_between _
    (fun middle : UdmVar => decide (key middle.name.val ≤ key w.name.val)) front.length front le_rfl
  change (front.take (partitionPoint _ front.length front) ++ w :: front.drop (partitionPoint _ front.length front)).Pairwise
    Before
  generalize partitionPoint (fun middle : UdmVar => decide (key middle.name.val ≤ key w.name.val)) front.length front = r
    at hr hbefore hbehind ⊢
  have hpair := List.pairwise_iff_getElem.mp h
  -- up to the place, a variable is not above the one before the place, which is not above the new one
  have hbelow : ∀ a ∈ front.take r, Before a w := by
    intro a ha t ht hle
    obtain ⟨i, hi⟩ := List.mem_iff_getElem?.mp ha
    rw [List.getElem?_take] at hi
    split_ifs at hi with hir
    obtain ⟨hlt, rfl⟩ := List.getElem?_eq_some_iff.mp hi
    have hstop : r - 1 < front.length := by omega
    have hlast := hbefore (r - 1) front[r - 1] (by omega) (List.getElem?_eq_getElem hstop)
    have hlast : key front[r - 1].name.val ≤ key w.name.val := by simpa using hlast
    rcases Nat.lt_or_eq_of_le (Nat.le_sub_one_of_lt hir) with hlt' | heq
    · exact lt_of_lt_of_le (hpair i (r - 1) hlt hstop hlt' t ht hle) hlast
    · have hle' : t ≤ key w.name.val := le_trans hle (by simpa only [heq] using hlast)
      refine lt_of_le_of_ne hle' fun heq' => ?_
      subst heq'
      refine hnew front[i] (List.getElem_mem hlt) ?_
      rw [List.take_of_length_le ht]
      exact le_antisymm (by simpa only [heq] using hlast) hle
  have habove : ∀ b ∈ front.drop r, Before w b := by
    intro b hb t ht hle
    obtain ⟨i, hi⟩ := List.mem_iff_getElem?.mp hb
    rw [List.getElem?_drop] at hi
    obtain ⟨hlt, rfl⟩ := List.getElem?_eq_some_iff.mp hi
    have hstop : r < front.length := by omega
    have hfirst := hbehind front[r] (List.getElem?_eq_getElem hstop)
    have hfirst : key w.name.val < key front[r].name.val := by simpa using hfirst
    have htr := lt_of_le_of_lt hle hfirst
    rcases Nat.eq_zero_or_pos i with rfl | hpos
    · exact htr
    · exact hpair r (r + i) hstop hlt (by omega) t ht htr.le
  have hsplit := h
  rw [← List.take_append_drop r front, List.pairwise_append] at hsplit
  obtain ⟨htake, hdrop, hcross⟩ := hsplit
  rw [List.pairwise_append, List.pairwise_cons]
  refine ⟨htake, ⟨habove, hdrop⟩, fun a ha b hb => ?_⟩
  rcases List.mem_cons.mp hb with rfl | hb
  · exact hbelow a ha
  · exact hcross a ha b hb

theorem pairwise_before_sort {sorted : List UdmVar} (hperm : sorted.Perm vars) (horder : InOrder sorted)
    (hne : vars.Pairwise fun a b => key a.name.val = key b.name.val → 63 < (key a.name.val).length) :
    sorted.Pairwise Before := by
  have hsymm : ∀ {a b : UdmVar}, (key a.name.val = key b.name.val → 63 < (key a.name.val).length) →
      key b.name.val = key a.name.val → 63 < (key b.name.val).length := fun h heq => by
    rw [heq]
    exact h heq.symm
  have hne := (hperm.pairwise_iff hsymm).mpr hne
  refine ((inOrder_iff.mp horder).and hne).imp fun {a b} hab t ht hle => ?_
  refine lt_of_le_of_ne (hle.trans hab.1) fun heq => ?_
  subst heq
  have hlong := hab.2 (le_antisymm hab.1 hle)
  rw [le_antisymm hab.1 hle] at hlong
  omega

/-- **A replacement keeps what is left of the order.** -/
theorem pairwise_before_udmVarListReplaceNamed (hl : l.vars.Pairwise Before) (S : UdmVar)
    (name : Option CString) : (udmVarListReplaceNamed udmSort l S name).vars.Pairwise Before := by
  have hlen : (fullname name S.name).val.length ≤ 63 := List.length_take_le _ _
  have htake : key (fullname name S.name).val = (key (udmVarCopy S name).name.val).take 63 := searchedKey_eq name S
  have hfound := udmVarListFind_isSome_of_before hl hlen
  rw [udmVarListReplaceNamed]
  cases hfind : udmVarListFind l (fullname name S.name) with
  | some vi =>
    obtain ⟨hv, hkey⟩ := udmVarListFind_some hfind
    obtain ⟨hlt, hvi⟩ := List.getElem?_eq_some_iff.mp hv
    have hsplit := hl
    rw [← List.take_append_drop vi.2 l.vars, List.drop_eq_getElem_cons hlt, hvi] at hsplit
    dsimp only
    rw [List.set_eq_take_append_cons_drop, if_pos hlt]
    exact pairwise_before_set hsplit (hkey.symm.trans htake)
  | none =>
    rw [hfind] at hfound
    have hnew : ∀ v ∈ l.vars, key v.name.val ≠ (key (udmVarCopy S name).name.val).take 63 := by
      intro v hv hsame
      exact absurd (hfound.mpr ⟨v, hv, hsame.trans htake.symm⟩) Bool.false_ne_true
    dsimp only
    rw [udmVarListSort]
    split_ifs with hone hlast
    · simp only [append, List.length_append, List.length_singleton] at hone ⊢
      have hnil : l.vars = [] := List.length_eq_zero_iff.mp (by omega)
      rw [hnil]
      exact List.pairwise_singleton _ _
    · exact pairwise_before_moveLast hl hnew
    · refine pairwise_before_sort (udmSort.perm _) (udmSort.sorted _) ?_
      rw [append, List.pairwise_append]
      refine ⟨?_, List.pairwise_singleton _ _, fun a ha b hb hsame => ?_⟩
      · refine hl.imp fun {a b} hab hsame => Nat.lt_of_not_le fun hle => ?_
        exact hab.ne hle rfl hsame.symm
      · obtain rfl := List.mem_singleton.mp hb
        refine Nat.lt_of_not_le fun hle => hnew a ha ?_
        rw [hsame] at hle
        rw [List.take_of_length_le hle, hsame]

/-! ## What is in the list -/

/-- What the replacements leave, whatever its order: every variable takes away the one that it is searched by. -/
def contents (name : Option CString) (vars src : List UdmVar) : List UdmVar :=
  src.foldl (fun vars S => udmVarCopy S name :: vars.filter fun v => key v.name.val ≠ searchedKey name S) vars

theorem perm_udmVarListReplaceNamed (hl : l.vars.Pairwise Before) (S : UdmVar) (name : Option CString) :
    (udmVarListReplaceNamed udmSort l S name).vars.Perm
      (udmVarCopy S name :: l.vars.filter fun v => key v.name.val ≠ searchedKey name S) := by
  have hlen : (fullname name S.name).val.length ≤ 63 := List.length_take_le _ _
  have hfound := udmVarListFind_isSome_of_before hl hlen
  rw [udmVarListReplaceNamed]
  cases hfind : udmVarListFind l (fullname name S.name) with
  | some vi =>
    obtain ⟨hv, hkey⟩ := udmVarListFind_some hfind
    have hkey : key vi.1.name.val = searchedKey name S := hkey.symm
    obtain ⟨hlt, hvi⟩ := List.getElem?_eq_some_iff.mp hv
    have hvars : l.vars = l.vars.take vi.2 ++ vi.1 :: l.vars.drop (vi.2 + 1) := by
      rw [← hvi, ← List.drop_eq_getElem_cons hlt, List.take_append_drop]
    have hsplit := hl
    rw [hvars, List.pairwise_append, List.pairwise_cons] at hsplit
    obtain ⟨-, ⟨hbehind, -⟩, hfront⟩ := hsplit
    -- no other variable has the name
    have hkeep : ∀ v, v ∈ l.vars.take vi.2 ∨ v ∈ l.vars.drop (vi.2 + 1) → key v.name.val ≠ searchedKey name S := by
      rintro v (hmem | hmem) hsame
      · exact (hfront v hmem vi.1 List.mem_cons_self).ne (length_searchedKey name S) hsame hkey
      · exact (hbehind v hmem).ne (length_searchedKey name S) hkey hsame
    have hfilter : (l.vars.filter fun v => key v.name.val ≠ searchedKey name S) =
        l.vars.take vi.2 ++ l.vars.drop (vi.2 + 1) := by
      conv_lhs => rw [hvars]
      rw [List.filter_append, List.filter_cons_of_neg (by simpa using hkey),
        List.filter_eq_self.mpr fun v hmem => by simpa using hkeep v (Or.inl hmem),
        List.filter_eq_self.mpr fun v hmem => by simpa using hkeep v (Or.inr hmem)]
    dsimp only
    rw [hfilter, List.set_eq_take_append_cons_drop, if_pos hlt]
    exact List.perm_middle
  | none =>
    rw [hfind] at hfound
    have hfilter : (l.vars.filter fun v => key v.name.val ≠ searchedKey name S) = l.vars := by
      refine List.filter_eq_self.mpr fun v hv => ?_
      simp only [ne_eq, decide_not, Bool.not_eq_true', decide_eq_false_iff_not]
      exact fun hsame => absurd (hfound.mpr ⟨v, hv, hsame⟩) Bool.false_ne_true
    dsimp only
    rw [hfilter]
    refine (perm_udmVarListSort udmSort _).trans ?_
    exact List.perm_append_singleton _ _

/-- **What a run of replacements leaves.** -/
theorem perm_contents (src : List UdmVar) (hl : l.vars.Pairwise Before) (hperm : l.vars.Perm vars) :
    (src.foldl (fun l v => udmVarListReplaceNamed udmSort l v name) l).vars.Perm (contents name vars src) := by
  induction src generalizing l vars with
  | nil => exact hperm
  | cons S src ih =>
    rw [List.foldl_cons, contents, List.foldl_cons]
    refine ih (pairwise_before_udmVarListReplaceNamed udmSort hl S name) ?_
    exact (perm_udmVarListReplaceNamed udmSort hl S name).trans ((hperm.filter _).cons _)

theorem mem_contents (h : w ∈ contents name vars src) : w ∈ vars ∨ ∃ S ∈ src, w = udmVarCopy S name := by
  induction src generalizing vars with
  | nil => exact Or.inl h
  | cons S src ih =>
    rcases ih h with hmem | ⟨S', hS', rfl⟩
    · rcases List.mem_cons.mp hmem with rfl | hmem
      · exact Or.inr ⟨S, List.mem_cons_self, rfl⟩
      · exact Or.inl (List.mem_filter.mp hmem).1
    · exact Or.inr ⟨S', List.mem_cons_of_mem _ hS', rfl⟩

theorem mem_udmVarListReplaceLst (hl : l.vars.Pairwise Before)
    {mask : CString} (h : w ∈ (udmVarListReplaceLst udmSort l src name mask).vars) :
    w ∈ l.vars ∨ ∃ S ∈ masked src mask, w = udmVarCopy S name :=
  mem_contents ((perm_contents udmSort (masked src mask) hl (List.Perm.refl _)).subset h)

/-- The variables of one name. -/
def named (k : List UInt8) (vars : List UdmVar) : List UdmVar := vars.filter fun v => key v.name.val = k

theorem named_cons_of_eq {k : List UInt8} {v : UdmVar} (h : key v.name.val = k) (vars : List UdmVar) :
    named k (v :: vars) = v :: named k vars := List.filter_cons_of_pos (by simpa using h)

theorem named_cons_of_ne {k : List UInt8} {v : UdmVar} (h : key v.name.val ≠ k) (vars : List UdmVar) :
    named k (v :: vars) = named k vars := List.filter_cons_of_neg (by simpa using h)

theorem named_filter_ne (h : k ≠ t) (vars : List UdmVar) :
    named k (vars.filter fun v => key v.name.val ≠ t) = named k vars := by
  rw [named, named, List.filter_filter]
  refine List.filter_congr fun v _ => ?_
  by_cases hv : key v.name.val = k
  · simp [hv, h]
  · simp [hv]

theorem nodup_keys_iff : (vars.map fun v => key v.name.val).Nodup ↔ ∀ k, (named k vars).length ≤ 1 := by
  rw [List.nodup_iff_count_le_one]
  refine forall_congr' fun k => ?_
  rw [named, List.count, List.countP_map, List.countP_eq_length_filter]
  refine iff_of_eq (congrArg (List.length · ≤ 1) (List.filter_congr fun v _ => ?_))
  by_cases hv : key v.name.val = k
  · simp [hv]
  · simp [hv]

theorem contents_concat (name : Option CString) (vars src : List UdmVar) (S : UdmVar) :
    contents name vars (src ++ [S]) =
      udmVarCopy S name :: (contents name vars src).filter fun v => key v.name.val ≠ searchedKey name S := by
  rw [contents, List.foldl_append]
  rfl

theorem named_contents_of_long (hk : 63 < k.length) :
    named k (contents name vars src) =
      ((src.filter fun S => storedKey name S = k).map (udmVarCopy · name)).reverse ++ named k vars := by
  induction src using List.reverseRecOn with
  | nil => rfl
  | append_singleton src S ih =>
    have hne : k ≠ searchedKey name S := fun h => by
      have := length_searchedKey name S
      rw [← h] at this
      omega
    rw [contents_concat, List.filter_append]
    by_cases hS : storedKey name S = k
    · rw [@named_cons_of_eq k (udmVarCopy S name) hS, named_filter_ne hne, ih, List.filter_cons_of_pos (by simpa using hS)]
      simp
    · rw [@named_cons_of_ne k (udmVarCopy S name) hS, named_filter_ne hne, ih, List.filter_cons_of_neg (by simpa using hS)]
      simp

theorem named_contents_of_short (hk : k.length ≤ 63) :
    named k (contents name vars src) =
      match (src.filter fun S => searchedKey name S = k).getLast? with
      | none => named k vars
      | some S => if storedKey name S = k then [udmVarCopy S name] else [] := by
  induction src using List.reverseRecOn with
  | nil => rfl
  | append_singleton src S ih =>
    rw [contents_concat, List.filter_append]
    by_cases hS : searchedKey name S = k
    · have hnone : named k ((contents name vars src).filter fun v => key v.name.val ≠ searchedKey name S) = [] := by
        rw [named, List.filter_filter, List.filter_eq_nil_iff]
        intro v _
        simp [hS]
      rw [List.filter_cons_of_pos (by simpa using hS), List.filter_nil, List.getLast?_concat]
      dsimp only
      split_ifs with hstored
      · rw [@named_cons_of_eq k (udmVarCopy S name) hstored, hnone]
      · rw [@named_cons_of_ne k (udmVarCopy S name) hstored, hnone]
    · have hne : storedKey name S ≠ k := fun h => hS (by rw [searchedKey_of_length_le (by rwa [h]), h])
      rw [List.filter_cons_of_neg (by simpa using hS), List.filter_nil, List.append_nil, @named_cons_of_ne k (udmVarCopy S name) hne,
        named_filter_ne (Ne.symm hS), ih]

/-! ## When all variables arrive -/

/-- Exactly one variable has the name of the source variable, and it has its value. -/
def HoldsOnce (name : Option CString) (vars : List UdmVar) (S : UdmVar) : Prop :=
  ∃ w, named (storedKey name S) vars = [w] ∧ w.val = (copyValue S).val

/-- What a replacement is for: the names are distinct, and every source variable has arrived. -/
structure ReplacedRight (name : Option CString) (vars src : List UdmVar) : Prop where
  /-- The names are distinct, without regard to case. -/
  distinct : (vars.map fun v => key v.name.val).Nodup
  /-- Every source variable is there once, with its value. -/
  holds : ∀ S ∈ src, HoldsOnce name vars S

/-- No name of more than 63 bytes does harm, and variables of one name agree. -/
structure NamesFit (name : Option CString) (vars src : List UdmVar) : Prop where
  /-- A long name is not in the list. -/
  fresh : ∀ S ∈ src, 63 < (storedKey name S).length → ∀ v ∈ vars, key v.name.val ≠ storedKey name S
  /-- A long name comes once, and two variables of one short name have one value. -/
  once : src.Pairwise fun S S' => storedKey name S = storedKey name S' →
    (storedKey name S).length ≤ 63 ∧ (copyValue S).val = (copyValue S').val
  /-- Of the variables that search for a short name that is wanted, the last one has that name. -/
  kept : ∀ S ∈ src, (storedKey name S).length ≤ 63 →
    ∀ S' ∈ (src.filter fun S' => searchedKey name S' = storedKey name S).getLast?, storedKey name S' = storedKey name S

theorem HoldsOnce.congr (hperm : vars.Perm vars')
    (h : HoldsOnce name vars S) : HoldsOnce name vars' S := by
  obtain ⟨w, hw, hval⟩ := h
  refine ⟨w, ?_, hval⟩
  have hnamed : (named (storedKey name S) vars).Perm (named (storedKey name S) vars') := hperm.filter _
  rw [hw] at hnamed
  exact List.perm_singleton.mp hnamed.symm

theorem replacedRight_congr (hperm : vars.Perm vars') :
    ReplacedRight name vars src ↔ ReplacedRight name vars' src :=
  ⟨fun h => ⟨(hperm.map _).nodup_iff.mp h.distinct, fun S hS => (h.holds S hS).congr hperm⟩,
    fun h => ⟨(hperm.map _).nodup_iff.mpr h.distinct, fun S hS => (h.holds S hS).congr hperm.symm⟩⟩

section Contents

variable {name : Option CString} {vars src : List UdmVar}

theorem exists_getLast (hS : S ∈ src) (hshort : (storedKey name S).length ≤ 63) :
    ∃ S' ∈ src, (src.filter fun S' => searchedKey name S' = storedKey name S).getLast? = some S' := by
  have hmem : S ∈ src.filter fun S' => searchedKey name S' = storedKey name S :=
    List.mem_filter.mpr ⟨hS, by simpa using searchedKey_of_length_le hshort⟩
  have hne := List.ne_nil_of_mem hmem
  exact ⟨_, (List.mem_filter.mp (List.getLast_mem hne)).1, List.getLast?_eq_some_getLast hne⟩

theorem namesFit_of_replacedRight (h : ReplacedRight name (contents name vars src) src) : NamesFit name vars src := by
  -- the variables of a long name, all of them
  have hlong : ∀ S ∈ src, 63 < (storedKey name S).length →
      (src.filter fun S' => storedKey name S' = storedKey name S).length = 1 ∧ named (storedKey name S) vars = [] := by
    intro S hS hlen
    obtain ⟨w, hw, -⟩ := h.holds S hS
    rw [named_contents_of_long hlen] at hw
    have hcount := congrArg List.length hw
    rw [List.length_append, List.length_reverse, List.length_map, List.length_singleton] at hcount
    have hpos := List.length_pos_of_mem
      (List.mem_filter.mpr ⟨hS, by simp⟩ : S ∈ src.filter fun S' => storedKey name S' = storedKey name S)
    exact ⟨by omega, List.length_eq_zero_iff.mp (by omega)⟩
  refine ⟨fun S hS hlen v hv hsame => ?_, ?_, fun S hS hshort S' hS' => ?_⟩
  · have hnil := (hlong S hS hlen).2
    rw [named, List.filter_eq_nil_iff] at hnil
    exact hnil v hv (by simpa using hsame)
  · rw [List.pairwise_iff_forall_sublist]
    intro S S' hsub hsame
    have hS : S ∈ src := hsub.subset List.mem_cons_self
    have hS' : S' ∈ src := hsub.subset (List.mem_cons_of_mem _ List.mem_cons_self)
    constructor
    · by_contra hlen
      have hone := (hlong S hS (Nat.lt_of_not_le hlen)).1
      have htwo := (hsub.filter fun S' => decide (storedKey name S' = storedKey name S)).length_le
      rw [hone] at htwo
      simp [hsame] at htwo
    · obtain ⟨w, hw, hval⟩ := h.holds S hS
      obtain ⟨w', hw', hval'⟩ := h.holds S' hS'
      rw [← hsame, hw] at hw'
      cases hw'
      exact hval.symm.trans hval'
  · obtain ⟨w, hw, -⟩ := h.holds S hS
    rw [named_contents_of_short hshort, hS'] at hw
    dsimp only at hw
    split_ifs at hw with hsame
    exact hsame

theorem replacedRight_of_namesFit (hvars : (vars.map fun v => key v.name.val).Nodup) (h : NamesFit name vars src) :
    ReplacedRight name (contents name vars src) src := by
  -- the variables of a long name that come
  have hlong : ∀ k, 63 < k.length → (src.filter fun S => storedKey name S = k).length ≤ 1 := by
    intro k hk
    have hpair := (h.once.filter fun S => decide (storedKey name S = k))
    rcases hsrc : src.filter fun S => storedKey name S = k with _ | ⟨S, _ | ⟨S', rest⟩⟩
    · exact Nat.zero_le _
    · exact le_rfl
    · rw [hsrc, List.pairwise_cons] at hpair
      have hmem : S ∈ src.filter fun S => storedKey name S = k := by rw [hsrc]; exact List.mem_cons_self
      have hmem' : S' ∈ src.filter fun S => storedKey name S = k := by
        rw [hsrc]
        exact List.mem_cons_of_mem _ List.mem_cons_self
      have hS : storedKey name S = k := by simpa using (List.mem_filter.mp hmem).2
      have hS' : storedKey name S' = k := by simpa using (List.mem_filter.mp hmem').2
      have hshort := (hpair.1 S' List.mem_cons_self (hS.trans hS'.symm)).1
      rw [hS] at hshort
      omega
  refine ⟨nodup_keys_iff.mpr fun k => ?_, fun S hS => ?_⟩
  · by_cases hk : k.length ≤ 63
    · rw [named_contents_of_short hk]
      split
      · exact nodup_keys_iff.mp hvars k
      · split_ifs
        · exact le_rfl
        · exact Nat.zero_le _
    · have hk := Nat.lt_of_not_le hk
      rw [named_contents_of_long hk, List.length_append, List.length_reverse, List.length_map]
      rcases hsrc : src.filter fun S => storedKey name S = k with _ | ⟨S, rest⟩
      · rw [List.length_nil, Nat.zero_add]
        exact nodup_keys_iff.mp hvars k
      · have hmem : S ∈ src.filter fun S => storedKey name S = k := by rw [hsrc]; exact List.mem_cons_self
        obtain ⟨hS, hname⟩ := List.mem_filter.mp hmem
        have hname : storedKey name S = k := by simpa using hname
        have hnil : named k vars = [] := by
          rw [named, List.filter_eq_nil_iff]
          intro v hv hsame
          exact h.fresh S hS (by rwa [hname]) v hv (by simpa [hname] using hsame)
        have := hlong k hk
        rw [hsrc] at this
        rw [hnil, List.length_nil, Nat.add_zero]
        exact this
  · by_cases hshort : (storedKey name S).length ≤ 63
    · obtain ⟨S', hS', hlast⟩ := exists_getLast hS hshort
      have hsame := h.kept S hS hshort S' hlast
      refine ⟨udmVarCopy S' name, ?_, ?_⟩
      · rw [named_contents_of_short hshort, hlast]
        dsimp only
        rw [if_pos hsame]
      · -- two variables of one name have one value
        by_cases heq : S' = S
        · rw [heq]
          rfl
        · have hsymm : Std.Symm fun A B : UdmVar => storedKey name A = storedKey name B →
              (storedKey name A).length ≤ 63 ∧ (copyValue A).val = (copyValue B).val := by
            refine ⟨fun A B hAB hBA => ?_⟩
            obtain ⟨hlen, hval⟩ := hAB hBA.symm
            exact ⟨by rwa [hBA], hval.symm⟩
          exact (h.once.forall hS' hS heq hsame).2
    · have hlen := Nat.lt_of_not_le hshort
      have hone := hlong _ hlen
      have hmem : S ∈ src.filter fun S' => storedKey name S' = storedKey name S := List.mem_filter.mpr ⟨hS, by simp⟩
      have hnil : named (storedKey name S) vars = [] := by
        rw [named, List.filter_eq_nil_iff]
        intro v hv hsame
        exact h.fresh S hS hlen v hv (by simpa using hsame)
      refine ⟨udmVarCopy S name, ?_, rfl⟩
      rw [named_contents_of_long hlen, hnil]
      rcases hsrc : src.filter fun S' => storedKey name S' = storedKey name S with _ | ⟨S', _ | ⟨S'', rest⟩⟩
      · rw [hsrc] at hmem
        cases hmem
      · rw [hsrc] at hmem
        rw [List.mem_singleton.mp hmem]
        rfl
      · rw [hsrc] at hone
        simp at hone

end Contents

theorem replacedRight_iff_of_before (hl : l.vars.Pairwise Before)
    (hnodup : (l.vars.map fun v => key v.name.val).Nodup) (src : List UdmVar) (name : Option CString) (mask : CString) :
    ReplacedRight name (udmVarListReplaceLst udmSort l src name mask).vars (masked src mask) ↔
      NamesFit name l.vars (masked src mask) := by
  rw [udmVarListReplaceLst, replacedRight_congr (perm_contents udmSort (masked src mask) hl (List.Perm.refl _))]
  exact ⟨namesFit_of_replacedRight, replacedRight_of_namesFit hnodup⟩

/-- **`UdmVarListReplaceLst` keeps the names distinct and brings every variable exactly where the names fit.** -/
theorem replacedRight_iff {l : UdmVarList} (hl : Keyed l) (src : List UdmVar) (name : Option CString) (mask : CString) :
    ReplacedRight name (udmVarListReplaceLst udmSort l src name mask).vars (masked src mask) ↔
      NamesFit name l.vars (masked src mask) :=
  replacedRight_iff_of_before udmSort (pairwise_before hl) hl.nodup src name mask

/-- A string variable. -/
def strVar (name : List UInt8) (h : (0 : UInt8) ∉ name) : UdmVar := newStr ⟨name, h⟩ (some ⟨[0x31], by decide⟩) 0

/-- The mask that all names match. -/
def star : CString := ⟨[0x2A], zero_notMem_star⟩

/-- `b` and `c` come to `a.b`, with the name `a`. -/
theorem replacedRight_iff_two :
    ReplacedRight (some ⟨[0x61], by decide⟩)
      (udmVarListReplaceLst byInsertion ⟨[strVar [0x61, 0x2E, 0x62] (by decide)], 1⟩
        [strVar [0x62] (by decide), strVar [0x63] (by decide)] (some ⟨[0x61], by decide⟩) star).vars
      (masked [strVar [0x62] (by decide), strVar [0x63] (by decide)] star) := by
  have hl : Keyed ⟨[strVar [0x61, 0x2E, 0x62] (by decide)], 1⟩ := ⟨List.pairwise_singleton _ _, List.nodup_singleton _⟩
  refine (replacedRight_iff byInsertion hl _ _ _).mpr ⟨?_, ?_, ?_⟩
  · decide
  · decide
  · decide

/-- A name of 64 bytes is not found, and comes twice. -/
theorem not_forall_replacedRight :
    ¬ ∀ (udmSort : QSort VarLE) (l : UdmVarList) (src : List UdmVar) (name : Option CString) (mask : CString),
      Keyed l → ReplacedRight name (udmVarListReplaceLst udmSort l src name mask).vars (masked src mask) := by
  intro hall
  have hright := hall byInsertion ⟨[strVar (List.replicate 64 0x61) (by decide)], 1⟩
    [strVar (List.replicate 64 0x61) (by decide)] none star ⟨List.pairwise_singleton _ _, List.nodup_singleton _⟩
  exact absurd hright.distinct (by decide +kernel)

/-! ## One call after another -/

/-- A call of `UdmVarListReplaceLst`. -/
structure ReplaceCall where
  src : List UdmVar
  name : Option CString
  mask : CString

/-- The list after a call. -/
def ReplaceCall.run (call : ReplaceCall) (l : UdmVarList) : UdmVarList :=
  udmVarListReplaceLst udmSort l call.src call.name call.mask

/-- Every call meets names that fit. -/
def AllFit : UdmVarList → List ReplaceCall → Prop
  | _, [] => True
  | l, call :: calls => NamesFit call.name l.vars (masked call.src call.mask) ∧ AllFit (call.run udmSort l) calls

theorem pairwise_before_run (hl : l.vars.Pairwise Before) (call : ReplaceCall) :
    (call.run udmSort l).vars.Pairwise Before := by
  rw [ReplaceCall.run, udmVarListReplaceLst]
  generalize masked call.src call.mask = src
  induction src generalizing l with
  | nil => exact hl
  | cons S src ih => exact ih (pairwise_before_udmVarListReplaceNamed udmSort hl S call.name)

end MnoGoSearch.Vars
