import MnoGoSearch.Hrefs.HrefList
import MnoGoSearch.Vars.ReplaceLst
import Mathlib

/-!
# The list of links as a set

A run of `UdmHrefListAdd` on an empty list (`hrefs.c`). Each address is in the list once, as it was added
the last time (`SetInv`): the search in the sorted part and the one behind it find what is there, and both
go on to do so when the list has been sorted. `linkSet_iff` says when the link also has all the variables
of its last addition: where their names suit `UdmVarListReplaceLst`, by which they are copied.
-/

namespace MnoGoSearch.Hrefs

open Lib.Sorting Words Vars

/-! ## A run of additions -/

/-- What `UdmHrefListAdd` returns. -/
def udmHrefListAddRet (canonize : Url → Url) (HrefList : UdmHrefList) (Href : UdmHref) : ℕ :=
  if Href.url = CString.empty then 0
  else
    match findHref HrefList (canonize Href.url) with
    | some _ => 0
    | none => 1

/-- The list after some additions to the empty one. -/
def addAll (P : SortProc) (canonize : Url → Url) (adds : List UdmHref) : UdmHrefList :=
  adds.foldl (udmHrefListAdd P canonize) ⟨0, 0, []⟩

/-- The link is added, and under this address. -/
def AddedAs (canonize : Url → Url) (u : Url) (Href : UdmHref) : Prop := Href.url ≠ CString.empty ∧ canonize Href.url = u

instance (canonize : Url → Url) (u : Url) (Href : UdmHref) : Decidable (AddedAs canonize u Href) :=
  inferInstanceAs (Decidable (_ ∧ _))

/-- The last addition of an address. -/
def lastAdded (canonize : Url → Url) (adds : List UdmHref) (u : Url) : Option UdmHref :=
  (adds.filter fun Href => AddedAs canonize u Href).getLast?

theorem lastAdded_concat (canonize : Url → Url) (adds : List UdmHref) (Href : UdmHref) (u : Url) :
    lastAdded canonize (adds ++ [Href]) u = if AddedAs canonize u Href then some Href else lastAdded canonize adds u := by
  rw [lastAdded, List.filter_append]
  split_ifs with h
  · rw [List.filter_cons_of_pos (by simpa using h), List.filter_nil, List.getLast?_concat]
  · rw [List.filter_cons_of_neg (by simpa using h), List.filter_nil, List.append_nil, lastAdded]

variable {u ehref : Url} {Href : UdmHref} {P : SortProc} {canonize : Url → Url} {adds href : List UdmHref}
variable {L : UdmHrefList} {i : ℕ}

theorem lastAdded_eq_none_iff {canonize : Url → Url} {adds : List UdmHref} :
    lastAdded canonize adds u = none ↔ ∀ Href ∈ adds, ¬ AddedAs canonize u Href := by
  rw [lastAdded, List.getLast?_eq_none_iff, List.filter_eq_nil_iff]
  simp

/-! ## Finding what is there -/

theorem findSorted_none {s : ℕ}
    (horder : ∀ i j, i < j → j < s → urlAt href i ≤ urlAt href j) {fuel l r : ℕ} (hr : r ≤ s) (hfuel : r ≤ l + fuel)
    (h : findSorted href ehref fuel l r = none) (hl : l ≤ i) (hi : i < r) : urlAt href i ≠ ehref := by
  induction fuel generalizing l r with
  | zero => omega
  | succ fuel ih =>
    rw [findSorted, if_pos (by omega)] at h
    dsimp only at h
    have hmiddle : l ≤ (l + (r - 1)) / 2 ∧ (l + (r - 1)) / 2 < r := by omega
    generalize (l + (r - 1)) / 2 = c at h hmiddle
    cases hcmp : strcmp (urlAt href c) ehref with
    | eq =>
      rw [hcmp] at h
      cases h
    | lt =>
      rw [hcmp] at h
      have hbelow := strcmp_eq_lt.mp hcmp
      rcases Nat.lt_trichotomy i c with hlt | rfl | hlt
      · exact ne_of_lt (lt_of_le_of_lt (horder i c hlt (by omega)) hbelow)
      · exact ne_of_lt hbelow
      · exact ih hr (by omega) h hlt hi
    | gt =>
      rw [hcmp] at h
      have habove : ehref < urlAt href c := by
        refine lt_of_not_ge fun hle => ?_
        rcases lt_or_eq_of_le hle with hlt | heq
        · rw [strcmp_eq_lt.mpr hlt] at hcmp
          cases hcmp
        · rw [strcmp_eq_eq.mpr heq] at hcmp
          cases hcmp
      rcases Nat.lt_trichotomy i c with hlt | rfl | hlt
      · exact ih (by omega) (by omega) h hl hlt
      · exact ne_of_gt habove
      · exact ne_of_gt (lt_of_lt_of_le habove (horder c i hlt (by omega)))

/-- The first links are in order. -/
def SortedPart (L : UdmHrefList) : Prop := (L.href.take L.shrefs).Pairwise fun a b => a.url ≤ b.url

theorem urlAt_eq_of_getElem? {H : UdmHref} (h : href[i]? = some H) : urlAt href i = H.url := by
  rw [urlAt, h]
  rfl

/-- **What is not found is not there.** -/
theorem findHref_none {L : UdmHrefList} (hs : L.shrefs ≤ L.href.length) (horder : SortedPart L)
    (h : findHref L ehref = none) : ∀ H ∈ L.href, H.url ≠ ehref := by
  rw [findHref, Option.or_eq_none_iff] at h
  have hurl : ∀ i j, i < j → j < L.shrefs → urlAt L.href i ≤ urlAt L.href j := by
    intro i j hij hj
    have hpair := List.pairwise_iff_getElem.mp horder i j (by rw [List.length_take]; omega)
      (by rw [List.length_take]; omega) hij
    rw [List.getElem_take, List.getElem_take] at hpair
    rwa [urlAt_eq_of_getElem? (List.getElem?_eq_getElem (show i < L.href.length by omega)),
      urlAt_eq_of_getElem? (List.getElem?_eq_getElem (show j < L.href.length by omega))]
  intro H hH
  obtain ⟨i, hi⟩ := List.mem_iff_getElem?.mp hH
  have hlt := (List.getElem?_eq_some_iff.mp hi).1
  rw [← urlAt_eq_of_getElem? hi]
  by_cases hsorted : i < L.shrefs
  · exact findSorted_none hurl le_rfl (Nat.le_add_left _ _) h.1 (Nat.zero_le i) hsorted
  · have hfind := h.2
    rw [findUnsorted, List.find?_eq_none] at hfind
    exact fun hat => hfind i (List.mem_range'_1.mpr (by omega)) (beq_iff_eq.mpr hat)

/-! ## Every address once -/

/-- The links with an address. -/
def linksAt (u : Url) (href : List UdmHref) : List UdmHref := href.filter fun H => H.url = u

theorem linksAt_append (u : Url) (A B : List UdmHref) : linksAt u (A ++ B) = linksAt u A ++ linksAt u B :=
  List.filter_append _ _

theorem linksAt_cons_of_eq {u : Url} {H : UdmHref} (h : H.url = u) (href : List UdmHref) :
    linksAt u (H :: href) = H :: linksAt u href := List.filter_cons_of_pos (by simpa using h)

theorem linksAt_cons_of_ne {u : Url} {H : UdmHref} (h : H.url ≠ u) (href : List UdmHref) :
    linksAt u (H :: href) = linksAt u href := List.filter_cons_of_neg (by simpa using h)

/-- The list holds every address as it was added last, and the first links are in order. -/
structure SetInv (P : SortProc) (canonize : Url → Url) (adds : List UdmHref) (L : UdmHrefList) : Prop where
  /-- The sorted links are links. -/
  shrefs_le : L.shrefs ≤ L.href.length
  sorted : SortedPart L
  /-- The links of an address: the last addition, if there was one. -/
  content : ∀ u, linksAt u L.href = ((lastAdded canonize adds u).map (copyHref P u)).toList

theorem setInv_nil : SetInv P canonize [] ⟨0, 0, []⟩ where
  shrefs_le := le_rfl
  sorted := List.Pairwise.nil
  content _ := rfl

theorem SetInv.lastAdded_eq_none (h : SetInv P canonize adds L) (hnew : ∀ H ∈ L.href, H.url ≠ u) :
    lastAdded canonize adds u = none := by
  have hnil : linksAt u L.href = [] := List.filter_eq_nil_iff.mpr fun H hH => by simpa using hnew H hH
  have hcontent := h.content u
  rw [hnil] at hcontent
  cases hlast : lastAdded canonize adds u with
  | none => rfl
  | some Href =>
    rw [hlast] at hcontent
    cases hcontent

theorem SetInv.found (h : SetInv P canonize adds L) {Href : UdmHref} (hne : Href.url ≠ CString.empty) {c : ℕ}
    (hfind : findHref L (canonize Href.url) = some c) :
    SetInv P canonize (adds ++ [Href]) { L with href := L.href.modify c fun old => copyHref P old.url Href } := by
  obtain ⟨old, hold, hurl⟩ := findHref_some h.shrefs_le hfind
  obtain ⟨hlt, hget⟩ := List.getElem?_eq_some_iff.mp hold
  have hmodify : (L.href.modify c fun old => copyHref P old.url Href) =
      L.href.take c ++ copyHref P (canonize Href.url) Href :: L.href.drop (c + 1) := by
    rw [List.modify_eq_take_cons_drop hlt, hget, hurl]
  have hsplit : L.href = L.href.take c ++ old :: L.href.drop (c + 1) := by
    rw [← hget, ← List.drop_eq_getElem_cons hlt, List.take_append_drop]
  rw [hmodify]
  generalize L.href.take c = A at hsplit
  generalize L.href.drop (c + 1) = B at hsplit
  have hurls : (A ++ copyHref P (canonize Href.url) Href :: B).map UdmHref.url = L.href.map UdmHref.url := by
    rw [hsplit, List.map_append, List.map_append, List.map_cons, List.map_cons, copyHref_url, hurl]
  refine ⟨?_, ?_, fun u => ?_⟩
  · have hlen := congrArg List.length hurls
    rw [List.length_map, List.length_map] at hlen
    rw [hlen]
    exact h.shrefs_le
  · have hsorted := h.sorted
    rw [SortedPart, ← List.pairwise_map (f := UdmHref.url) (R := (· ≤ ·)), List.map_take] at hsorted ⊢
    rwa [hurls]
  · have hcontent := h.content u
    rw [lastAdded_concat]
    rw [hsplit, linksAt_append] at hcontent
    rw [linksAt_append]
    by_cases hu : canonize Href.url = u
    · -- the link found is the only one of the address
      rw [linksAt_cons_of_eq (hurl.trans hu)] at hcontent
      rw [@linksAt_cons_of_eq u (copyHref P (canonize Href.url) Href) hu, if_pos ⟨hne, hu⟩, Option.map_some,
        Option.toList_some, hu]
      have hlen := congrArg List.length hcontent
      rw [List.length_append, List.length_cons] at hlen
      have hone : ((lastAdded canonize adds u).map (copyHref P u)).toList.length ≤ 1 := by
        cases lastAdded canonize adds u <;> simp
      rw [List.length_eq_zero_iff.mp (show (linksAt u A).length = 0 by omega),
        List.length_eq_zero_iff.mp (show (linksAt u B).length = 0 by omega), List.nil_append]
    · rw [linksAt_cons_of_ne (by rwa [hurl])] at hcontent
      rw [@linksAt_cons_of_ne u (copyHref P (canonize Href.url) Href) hu, if_neg fun hadd => hu hadd.2, hcontent]

theorem SetInv.appended (h : SetInv P canonize adds L) (hne : Href.url ≠ CString.empty)
    (hnew : ∀ H ∈ L.href, H.url ≠ canonize Href.url) :
    SetInv P canonize (adds ++ [Href]) { L with href := L.href ++ [copyHref P (canonize Href.url) Href] } := by
  have hle := h.shrefs_le
  refine ⟨?_, ?_, fun u => ?_⟩
  · simp only [List.length_append]
    omega
  · have hsorted := h.sorted
    rw [SortedPart] at hsorted ⊢
    rwa [List.take_append_of_le_length hle]
  · have hcontent := h.content u
    rw [lastAdded_concat, linksAt_append, hcontent]
    by_cases hu : canonize Href.url = u
    · rw [← hu, h.lastAdded_eq_none hnew, if_pos ⟨hne, rfl⟩,
        @linksAt_cons_of_eq (canonize Href.url) (copyHref P (canonize Href.url) Href) rfl]
      rfl
    · rw [if_neg fun hadd => hu hadd.2, @linksAt_cons_of_ne u (copyHref P (canonize Href.url) Href) hu]
      exact List.append_nil _

theorem SetInv.resorted (h : SetInv P canonize adds L) :
    SetInv P canonize adds ⟨L.href.length, 0, P.sort (fun v1 v2 => strcmp v1.url v2.url != .gt) L.href⟩ := by
  have hperm := P.perm_sort (fun v1 v2 : UdmHref => strcmp v1.url v2.url != .gt) L.href
  have hle : ∀ a b : UdmHref, (strcmp a.url b.url != .gt) = true ↔ a.url ≤ b.url := by
    intro a b
    rw [bne_iff_ne, strcmp]
    split_ifs with hlt heq
    · simp [hlt.le]
    · simp [heq]
    · simp [not_le.mpr (lt_of_le_of_ne (not_lt.mp hlt) (Ne.symm heq))]
  refine ⟨hperm.length_eq.ge, ?_, fun u => ?_⟩
  · have hsorted := @Lib.Sorting.SortProc.pairwise_sort _ P (fun v1 v2 : UdmHref => strcmp v1.url v2.url != .gt) L.href
      (fun a _ b _ c _ hab hbc => (hle a c).mpr (le_trans ((hle a b).mp hab) ((hle b c).mp hbc)))
      fun a _ b _ => (le_total a.url b.url).imp (hle a b).mpr (hle b a).mpr
    rw [SortedPart, List.take_of_length_le hperm.length_eq.le]
    exact hsorted.imp fun {a b} hab => (hle a b).mp hab
  · have hfilter : (linksAt u (P.sort (fun v1 v2 => strcmp v1.url v2.url != .gt) L.href)).Perm (linksAt u L.href) :=
      hperm.filter _
    rw [h.content u] at hfilter
    cases hlast : lastAdded canonize adds u with
    | none =>
      rw [hlast] at hfilter
      exact List.perm_nil.mp hfilter
    | some Href =>
      rw [hlast] at hfilter
      exact List.perm_singleton.mp hfilter

/-- **An addition keeps the list a set.** -/
theorem SetInv.add (h : SetInv P canonize adds L) (Href : UdmHref) :
    SetInv P canonize (adds ++ [Href]) (udmHrefListAdd P canonize L Href) := by
  rw [udmHrefListAdd]
  split_ifs with hempty
  · refine ⟨h.shrefs_le, h.sorted, fun u => ?_⟩
    rw [lastAdded_concat, if_neg fun hadd => hadd.1 hempty]
    exact h.content u
  · dsimp only
    cases hfind : findHref L (canonize Href.url) with
    | some c => exact h.found hempty hfind
    | none =>
      have happend := h.appended hempty (findHref_none h.shrefs_le h.sorted hfind)
      dsimp only
      split_ifs
      · exact happend.resorted
      · exact happend

/-- **Over a run of additions the list is a set.** -/
theorem setInv_addAll (P : SortProc) (canonize : Url → Url) (adds : List UdmHref) :
    SetInv P canonize adds (addAll P canonize adds) := by
  induction adds using List.reverseRecOn with
  | nil => exact setInv_nil
  | append_singleton adds Href ih =>
    rw [addAll, List.foldl_append]
    exact ih.add Href

/-- **The return value**: 1 exactly for an address that is not in the list yet. -/
theorem udmHrefListAddRet_iff (h : SetInv P canonize adds L) (hne : Href.url ≠ CString.empty) :
    udmHrefListAddRet canonize L Href = 1 ↔ ∀ H ∈ L.href, H.url ≠ canonize Href.url := by
  rw [udmHrefListAddRet, if_neg hne]
  cases hfind : findHref L (canonize Href.url) with
  | none => exact iff_of_true rfl (findHref_none h.shrefs_le h.sorted hfind)
  | some c =>
    obtain ⟨H, hH, hurl⟩ := findHref_some h.shrefs_le hfind
    exact iff_of_false Nat.zero_ne_one fun hnew => hnew H (List.mem_of_getElem? hH) hurl

/-! ## Links with their variables -/

/-- The link `H` is as it was added. -/
structure SameLink (H Href : UdmHref) : Prop where
  /-- The document that refers to it. -/
  referrer : H.referrer = Href.referrer
  /-- The distance from the start. -/
  hops : H.hops = Href.hops
  stored : H.stored = Href.stored
  /-- What to do with the document. -/
  method : H.method = Href.method
  /-- Whether the link is collected. -/
  collectLinks : H.collectLinks = Href.collectLinks
  siteId : H.siteId = Href.siteId
  serverId : H.serverId = Href.serverId
  /-- The record of an htdb table. -/
  recId : H.recId = Href.recId
  maxDocPerSite : H.maxDocPerSite = Href.maxDocPerSite
  /-- Every variable once, with its value. -/
  vars : ReplacedRight none H.vars.vars Href.vars.vars
  /-- No other variables, of earlier additions for instance. -/
  onlyVars : ∀ w ∈ H.vars.vars, ∃ S ∈ Href.vars.vars, w = udmVarCopy S none

/-- What a run of additions to the empty list is to leave, and to return. -/
structure LinkSet (P : SortProc) (canonize : Url → Url) (adds : List UdmHref) : Prop where
  /-- The addresses are distinct. -/
  distinct : ((addAll P canonize adds).href.map UdmHref.url).Nodup
  /-- The first `shrefs` links are in order. -/
  sorted : ((addAll P canonize adds).href.take (addAll P canonize adds).shrefs).Pairwise fun a b => strcmp a.url b.url ≠ .gt
  /-- A link that was added is there once, as it was added last. -/
  once : ∀ Href ∈ adds, Href.url ≠ CString.empty → ∃ H last, lastAdded canonize adds (canonize Href.url) = some last ∧
    linksAt (canonize Href.url) (addAll P canonize adds).href = [H] ∧ SameLink H last
  /-- A call returns 1 exactly for a link that is not empty and whose address was not there. -/
  returns : ∀ before Href after, adds = before ++ Href :: after →
    (udmHrefListAddRet canonize (addAll P canonize before) Href = 1 ↔
      Href.url ≠ CString.empty ∧ ∀ H ∈ (addAll P canonize before).href, H.url ≠ canonize Href.url)

/-- The variables of the last additions have names that suit `UdmVarListReplaceLst`. -/
def VarsFit (canonize : Url → Url) (adds : List UdmHref) : Prop :=
  ∀ Href ∈ adds, Href.url ≠ CString.empty → ∀ last, lastAdded canonize adds (canonize Href.url) = some last →
    NamesFit none [] last.vars.vars

theorem masked_star (src : List UdmVar) : masked src ⟨[0x2A], by decide⟩ = src := by
  refine List.filter_eq_self.mpr fun v _ => ?_
  simp [udmWildCaseCmp]

theorem keyed_udmVarListInit : Keyed udmVarListInit := ⟨List.Pairwise.nil, List.nodup_nil⟩

/-- **A link in the list is as it was added exactly where the names of its variables fit.** -/
theorem sameLink_copyHref_iff (P : SortProc) (url : Url) (Href : UdmHref) :
    SameLink (copyHref P url Href) Href ↔ NamesFit none [] Href.vars.vars := by
  have hvars := replacedRight_iff (varSort P) keyed_udmVarListInit Href.vars.vars none ⟨[0x2A], by decide⟩
  rw [masked_star] at hvars
  constructor
  · exact fun h => hvars.mp h.vars
  · intro h
    refine ⟨rfl, rfl, rfl, rfl, rfl, rfl, rfl, rfl, rfl, hvars.mpr h, fun w hw => ?_⟩
    have hmem := mem_udmVarListReplaceLst (varSort P) (pairwise_before keyed_udmVarListInit) hw
    rw [masked_star] at hmem
    exact hmem.resolve_left List.not_mem_nil

theorem SetInv.nodup (h : SetInv P canonize adds L) : (L.href.map UdmHref.url).Nodup := by
  rw [List.nodup_iff_count_le_one]
  intro u
  rw [List.count, List.countP_map, List.countP_eq_length_filter]
  have hsame : L.href.filter ((· == u) ∘ UdmHref.url) = linksAt u L.href := by
    refine List.filter_congr fun H _ => ?_
    rw [Function.comp_apply, beq_eq_decide]
  rw [hsame, h.content u]
  cases lastAdded canonize adds u <;> simp

theorem SetInv.sorted_strcmp (h : SetInv P canonize adds L) :
    (L.href.take L.shrefs).Pairwise fun a b => strcmp a.url b.url ≠ .gt := by
  refine h.sorted.imp fun {a b} hle hgt => ?_
  rcases lt_or_eq_of_le hle with hlt | heq
  · rw [strcmp_eq_lt.mpr hlt] at hgt
    cases hgt
  · rw [strcmp_eq_eq.mpr heq] at hgt
    cases hgt

theorem varsFit_of_linkSet (h : LinkSet P canonize adds) : VarsFit canonize adds := by
  intro Href hadd hne last hlast
  obtain ⟨H, last', hlast', hlinks, hsame⟩ := h.once Href hadd hne
  rw [hlast] at hlast'
  cases hlast'
  rw [(setInv_addAll P canonize adds).content, hlast, Option.map_some, Option.toList_some] at hlinks
  cases hlinks
  exact (sameLink_copyHref_iff P _ last).mp hsame

/-- **The list of links is a set, with the attributes of the last additions, exactly where the names of their variables
fit.** -/
theorem linkSet_iff (P : SortProc) (canonize : Url → Url) (adds : List UdmHref) :
    LinkSet P canonize adds ↔ VarsFit canonize adds := by
  refine ⟨varsFit_of_linkSet, fun h => ?_⟩
  have hinv := setInv_addAll P canonize adds
  refine ⟨hinv.nodup, hinv.sorted_strcmp, fun Href hadd hne => ?_, fun before Href after _ => ?_⟩
  · cases hlast : lastAdded canonize adds (canonize Href.url) with
    | none => exact absurd ⟨hne, rfl⟩ (lastAdded_eq_none_iff.mp hlast Href hadd)
    | some last =>
      refine ⟨copyHref P (canonize Href.url) last, last, rfl, ?_, ?_⟩
      · rw [hinv.content, hlast, Option.map_some, Option.toList_some]
      · exact (sameLink_copyHref_iff P _ last).mpr (h Href hadd hne last hlast)
  · by_cases hempty : Href.url = CString.empty
    · rw [udmHrefListAddRet, if_pos hempty]
      exact iff_of_false Nat.zero_ne_one fun hret => hret.1 hempty
    · rw [udmHrefListAddRet_iff (setInv_addAll P canonize before) hempty]
      exact (and_iff_right hempty).symm

/-- A link with variables whose names are 63 and 64 bytes long. -/
def longNames : UdmHref :=
  ⟨⟨[0x68], by decide⟩, 0, 0, false, 0, false, 0, 0, 0, 0,
    ⟨[strVar (List.replicate 63 0x61) (by decide), strVar (List.replicate 64 0x61) (by decide)], 2⟩⟩

/-- It loses the first of them. -/
theorem not_forall_linkSet : ¬ ∀ P canonize adds, LinkSet P canonize adds := by
  intro hall
  have hfit := varsFit_of_linkSet (hall .forward id [longNames]) longNames List.mem_cons_self (by decide) longNames rfl
  exact absurd hfit.kept (by decide +kernel)

end MnoGoSearch.Hrefs
