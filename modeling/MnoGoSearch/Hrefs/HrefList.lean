import MnoGoSearch.Lib.SortProcedure
import MnoGoSearch.Vars.VarList
import Mathlib

/-!
# The list of discovered links

`UdmHrefListAdd` (`hrefs.c`) collects the links of the documents; `UdmStoreHrefsSQL` (`sql.c`)
passes them to the database. The list is sorted from time to time; `shrefs` counts the sorted
links, `dhrefs` those that a run has been over, and every link has a flag `stored`. A run sets
the flag before the call that may fail, and moves `dhrefs` to the end of the list also when it
stops in the middle. `noLinkLost_of_run` says of which runs no link gets lost.
-/

namespace MnoGoSearch.Hrefs

open Lib.Sorting Words

/-- A URL. -/
abbrev Url : Type := CString

/-- `UDM_HREF`. -/
structure UdmHref where
  url : Url
  /-- The document that refers to it. -/
  referrer : ℤ
  /-- The distance from the start. -/
  hops : ℕ
  /-- The link needs not be passed to the database, or it has been. -/
  stored : Bool
  /-- What to do with the document. -/
  method : ℤ
  /-- The link itself is collected, too. -/
  collectLinks : Bool
  siteId : ℤ
  serverId : ℤ
  /-- The record of an htdb table. -/
  recId : ℤ
  maxDocPerSite : ℕ
  vars : Vars.UdmVarList
  deriving DecidableEq

/-- `UDM_HREFLIST`. -/
structure UdmHrefList where
  /-- The number of links in order. -/
  shrefs : ℕ
  /-- The number of links that a run has been over. -/
  dhrefs : ℕ
  /-- The links; `nhrefs` is their number. -/
  href : List UdmHref
  deriving DecidableEq

/-! ## Adding a link -/

/-- The address of the link `c`. -/
def urlAt (href : List UdmHref) (c : ℕ) : Url := ((href[c]?).map UdmHref.url).getD CString.empty

/-- Find the URL in the sorted part of the list, between `l` and `r`. -/
def findSorted (href : List UdmHref) (ehref : Url) : ℕ → ℕ → ℕ → Option ℕ
  | 0, _, _ => none
  | fuel + 1, l, r =>
    if l < r then
      let c := (l + (r - 1)) / 2
      match strcmp (urlAt href c) ehref with
      | .eq => some c
      | .lt => findSorted href ehref fuel (c + 1) r
      | .gt => findSorted href ehref fuel l c
    else none

/-- Find it in the unsorted part. -/
def findUnsorted (HrefList : UdmHrefList) (ehref : Url) : Option ℕ :=
  (List.range' HrefList.shrefs (HrefList.href.length - HrefList.shrefs)).find? fun c =>
    urlAt HrefList.href c == ehref

/-- The place of the URL. -/
def findHref (HrefList : UdmHrefList) (ehref : Url) : Option ℕ :=
  (findSorted HrefList.href ehref HrefList.shrefs 0 HrefList.shrefs).or (findUnsorted HrefList ehref)

/-- `UdmSort` of a list of variables. -/
def varSort (P : SortProc) : QSort Vars.VarLE :=
  P.qsort Vars.VarLE (fun _ _ _ => Vars.varLE_trans) Vars.varLE_total

/-- The link as it stands in the list: under its address, with its variables copied to an empty list. -/
def copyHref (P : SortProc) (url : Url) (Href : UdmHref) : UdmHref :=
  { Href with
    url := url
    vars := Vars.udmVarListReplaceLst (varSort P) Vars.udmVarListInit Href.vars.vars none ⟨[0x2A], zero_notMem_star⟩ }

@[simp] theorem copyHref_url (P : SortProc) (url : Url) (Href : UdmHref) : (copyHref P url Href).url = url := rfl

@[simp] theorem copyHref_stored (P : SortProc) (url : Url) (Href : UdmHref) :
    (copyHref P url Href).stored = Href.stored := rfl

/-- `RESORT_HREFS`. -/
def resortHrefs : ℕ := 256

/-- `UdmHrefListAdd`. `canonize` stands for `UdmURLCanonize` and `UdmSGMLUnescape`. -/
def udmHrefListAdd (P : SortProc) (canonize : Url → Url) (HrefList : UdmHrefList) (Href : UdmHref) : UdmHrefList :=
  -- Don't add an empty link
  if Href.url = CString.empty then HrefList
  else
    let ehref := canonize Href.url
    match findHref HrefList ehref with
    | some c => { HrefList with href := HrefList.href.modify c fun old => copyHref P old.url Href }
    | none =>
      let href := HrefList.href ++ [copyHref P ehref Href]
      if href.length - HrefList.shrefs > resortHrefs then
        -- Sort unsorted part
        ⟨href.length, 0, P.sort (fun v1 v2 => strcmp v1.url v2.url != .gt) href⟩
      else { HrefList with href := href }

/-! ## Storing the links -/

/-- What the calls of a run return: `true` is `UDM_OK`. -/
structure Outcomes where
  sqlBegin : Bool
  /-- `UDM_URL_ACTION_ADD`, for the link at a place. -/
  actionAdd : ℕ → Bool
  /-- `UDM_URL_ACTION_ADD_LINK`, for the link at a place. -/
  actionAddLink : ℕ → Bool
  sqlCommit : Bool

/-- What the loop of a run leaves. -/
structure LoopResult where
  /-- The links with their flags. -/
  href : List UdmHref
  /-- The links that `UDM_URL_ACTION_ADD` has taken. -/
  passed : List Url
  tnxStarted : Bool
  /-- The loop has come to its end. -/
  finished : Bool
  /-- The return code is `UDM_OK`. -/
  rc : Bool

/-- The link that the action at the place `i` adds. -/
def addedUrl (dhrefs i : ℕ) (H : UdmHref) : List Url := if dhrefs ≤ i then [H.url] else []

/-- The loop of `UdmStoreHrefsSQL` from the place `i` on. `db` says whether there is a database with
transactions. -/
def storeLoop (db : Bool) (o : Outcomes) (dhrefs : ℕ) : ℕ → Bool → List UdmHref → LoopResult
  | _, tnxStarted, [] => ⟨[], [], tnxStarted, true, true⟩
  | i, tnxStarted, H :: rest =>
    if H.stored then
      let r := storeLoop db o dhrefs (i + 1) tnxStarted rest
      { r with href := H :: r.href }
    else
      let needAddUrl := decide (dhrefs ≤ i)
      let H' := { H with stored := true }
      if !needAddUrl && !H.collectLinks then
        let r := storeLoop db o dhrefs (i + 1) tnxStarted rest
        { r with href := H' :: r.href }
      else if !tnxStarted && db && !o.sqlBegin then ⟨H' :: rest, [], tnxStarted, false, true⟩
      else if needAddUrl && !o.actionAdd i then ⟨H' :: rest, [], true, false, false⟩
      else if H.collectLinks && !o.actionAddLink i then ⟨H' :: rest, addedUrl dhrefs i H, true, false, false⟩
      else
        let r := storeLoop db o dhrefs (i + 1) true rest
        { r with href := H' :: r.href, passed := addedUrl dhrefs i H ++ r.passed }

/-- `MAXHSIZE`. -/
def maxHSize : ℕ := 1023 * 4

/-- A run over the list: what its loop leaves. -/
def storeRun (db : Bool) (o : Outcomes) (Hrefs : UdmHrefList) : LoopResult :=
  storeLoop db o Hrefs.dhrefs 0 false Hrefs.href

/-- The transaction of the run is not committed. -/
def commitFails (db : Bool) (o : Outcomes) (Hrefs : UdmHrefList) : Bool :=
  (storeRun db o Hrefs).finished && (storeRun db o Hrefs).tnxStarted && db && !o.sqlCommit

/-- `UdmStoreHrefsSQL`: the list afterwards. -/
def udmStoreHrefsSQL (db : Bool) (o : Outcomes) (Hrefs : UdmHrefList) : UdmHrefList :=
  -- Remember last stored URL num, and free a list that is too long
  if Hrefs.href.length > maxHSize then ⟨0, 0, []⟩
  else ⟨Hrefs.shrefs, Hrefs.href.length, (storeRun db o Hrefs).href⟩

/-! ## Runs of the program -/

/-- The list and what has become of the links. -/
structure LinkState where
  hrefs : UdmHrefList
  /-- The links that were added to be stored. -/
  added : List Url
  /-- The links that were added as stored. -/
  declared : List Url
  /-- The links that `UDM_URL_ACTION_ADD` has taken, but for those of a transaction whose commit failed. -/
  passed : List Url

/-- A call. -/
inductive Op where
  /-- `UdmHrefListAdd`. -/
  | add (Href : UdmHref)
  /-- `UdmStoreHrefsSQL`. -/
  | store (o : Outcomes)

/-- What a run has passed to the database for good. -/
def passedBy (db : Bool) (o : Outcomes) (Hrefs : UdmHrefList) : List Url :=
  if commitFails db o Hrefs then [] else (storeRun db o Hrefs).passed

/-- A call changes the state. -/
def step (P : SortProc) (canonize : Url → Url) (db : Bool) (s : LinkState) : Op → LinkState
  | .add Href =>
    if Href.url = CString.empty then s
    else
      { hrefs := udmHrefListAdd P canonize s.hrefs Href
        added := if Href.stored then s.added else canonize Href.url :: s.added
        declared := if Href.stored then canonize Href.url :: s.declared else s.declared
        passed := s.passed }
  | .store o => { s with hrefs := udmStoreHrefsSQL db o s.hrefs, passed := passedBy db o s.hrefs ++ s.passed }

/-- The empty list. -/
def initState : LinkState := ⟨⟨0, 0, []⟩, [], [], []⟩

/-- The calls one after the other. -/
def run (P : SortProc) (canonize : Url → Url) (db : Bool) (ops : List Op) : LinkState :=
  ops.foldl (step P canonize db) initState

/-- No step of the run fails. -/
def Succeeds (db : Bool) (o : Outcomes) (Hrefs : UdmHrefList) : Prop :=
  (storeRun db o Hrefs).finished = true ∧ commitFails db o Hrefs = false

/-- No link is lost: a link that was added has been passed to the database, or the next run that
succeeds will pass it; and a link with the flag set has been passed, unless it was added so. -/
def NoLinkLost (db : Bool) (s : LinkState) : Prop :=
  (∀ u ∈ s.added, u ∈ s.passed ∨ ∀ o, Succeeds db o s.hrefs → u ∈ passedBy db o s.hrefs) ∧
    ∀ H ∈ s.hrefs.href, H.stored = true → H.url ∈ s.passed ∨ H.url ∈ s.declared

/-! ## The calls that lose nothing -/

/-- A link that is in the list already is not added to be stored behind the back of the next run, and not
added as stored while it waits. -/
def AddOk (canonize : Url → Url) (s : LinkState) (Href : UdmHref) : Prop :=
  ∀ c, findHref s.hrefs (canonize Href.url) = some c →
    if Href.stored then canonize Href.url ∈ s.added → canonize Href.url ∈ s.passed
    else c < s.hrefs.dhrefs → canonize Href.url ∈ s.passed

/-- All the actions of a run on the links return `UDM_OK`. -/
def ActionsOk (o : Outcomes) (Hrefs : UdmHrefList) : Prop :=
  ∀ j G, Hrefs.href[j]? = some G → G.stored = false →
    (Hrefs.dhrefs ≤ j → o.actionAdd j = true) ∧ (G.collectLinks = true → o.actionAddLink j = true)

/-- Nothing fails on the way to the last link that has not been passed, and the links are committed. -/
def StoreOk (db : Bool) (s : LinkState) (o : Outcomes) : Prop :=
  ∀ i H, s.hrefs.href[i]? = some H → H.stored = false → H.url ∉ s.passed →
    (∀ j ≤ i, ∀ G, s.hrefs.href[j]? = some G → G.stored = false →
      (s.hrefs.dhrefs ≤ j → o.actionAdd j = true) ∧ (j < i → G.collectLinks = true → o.actionAddLink j = true)) ∧
    (db = true → o.sqlBegin = true ∧ (ActionsOk o s.hrefs → o.sqlCommit = true))

/-- The condition on a call. -/
def StepOk (canonize : Url → Url) (db : Bool) (s : LinkState) : Op → Prop
  | .add Href => Href.url ≠ CString.empty → AddOk canonize s Href
  | .store o => StoreOk db s o

/-- The condition on the calls of a run. -/
def RunOk (P : SortProc) (canonize : Url → Url) (db : Bool) : LinkState → List Op → Prop
  | _, [] => True
  | s, op :: ops => StepOk canonize db s op ∧ RunOk P canonize db (step P canonize db s op) ops

/-! ## What the loop of a run does -/

section Loop

variable {db tnx : Bool} {o : Outcomes} {dhrefs : ℕ} {l : List UdmHref}

theorem forall₂_storeLoop (i : ℕ) (tnx : Bool) (l : List UdmHref) :
    List.Forall₂ (fun H H' => H'.url = H.url ∧ (H'.stored = false → H.stored = false))
      l (storeLoop db o dhrefs i tnx l).href := by
  have hrefl : ∀ l : List UdmHref,
      List.Forall₂ (fun H H' => H'.url = H.url ∧ (H'.stored = false → H.stored = false)) l l :=
    fun l => List.forall₂_same.mpr fun H _ => ⟨rfl, id⟩
  induction l generalizing i tnx with
  | nil => exact List.Forall₂.nil
  | cons H rest ih =>
    rw [storeLoop]
    dsimp only
    split
    · exact List.Forall₂.cons ⟨rfl, id⟩ (ih _ _)
    · split_ifs
      · exact List.Forall₂.cons ⟨rfl, by simp⟩ (ih _ _)
      · exact List.Forall₂.cons ⟨rfl, by simp⟩ (hrefl rest)
      · exact List.Forall₂.cons ⟨rfl, by simp⟩ (hrefl rest)
      · exact List.Forall₂.cons ⟨rfl, by simp⟩ (hrefl rest)
      · exact List.Forall₂.cons ⟨rfl, by simp⟩ (ih _ _)

theorem mem_passed_of_ok {i k : ℕ} {H : UdmHref} (hH : l[k]? = some H)
    (hstored : H.stored = false) (hk : dhrefs ≤ i + k) (hbegin : tnx = false → db = true → o.sqlBegin = true)
    (hok : ∀ j ≤ k, ∀ G, l[j]? = some G → G.stored = false →
      (dhrefs ≤ i + j → o.actionAdd (i + j) = true) ∧
        (j < k → G.collectLinks = true → o.actionAddLink (i + j) = true)) :
    H.url ∈ (storeLoop db o dhrefs i tnx l).passed := by
  induction l generalizing i k tnx with
  | nil => cases hH
  | cons G rest ih =>
    have hstep : ∀ tnx', (tnx' = false → db = true → o.sqlBegin = true) → ∀ k', k = k' + 1 →
        H.url ∈ (storeLoop db o dhrefs (i + 1) tnx' rest).passed := by
      rintro tnx' htnx' k' rfl
      refine ih (by simpa using hH) (by omega) htnx' fun j hj F hF hFs => ?_
      have := hok (j + 1) (by omega) F (by simpa using hF) hFs
      rw [show i + 1 + j = i + (j + 1) by omega]
      exact ⟨this.1, fun hlt => this.2 (by omega)⟩
    rw [storeLoop]
    dsimp only
    cases k with
    | zero =>
      obtain rfl : G = H := by simpa using hH
      have hadd := (hok 0 (Nat.le_refl _) G rfl hstored).1 hk
      have hbeg : (!tnx && db && !o.sqlBegin) = false := by
        cases htnx : tnx with
        | true => rfl
        | false =>
          cases hdb : db with
          | false => rfl
          | true => simp [hbegin htnx hdb]
      rw [if_neg (by simp [hstored]), if_neg (by simpa using fun h => absurd hk (by omega)), if_neg (by simp [hbeg]),
        if_neg (by simpa using fun _ => hadd)]
      have hmem : G.url ∈ addedUrl dhrefs i G := by simp [addedUrl, show dhrefs ≤ i from hk]
      split
      · exact hmem
      · exact List.mem_append_left _ hmem
    | succ k =>
      have hG := hok 0 (Nat.zero_le _) G rfl
      split
      · exact hstep tnx hbegin k rfl
      · rename_i hGs
        obtain ⟨hadd, hlink⟩ := hG (by simpa using hGs)
        have hbeg : (!tnx && db && !o.sqlBegin) = false := by
          cases htnx : tnx with
          | true => rfl
          | false =>
            cases hdb : db with
            | false => rfl
            | true => simp [hbegin htnx hdb]
        split
        · exact hstep tnx hbegin k rfl
        · rw [if_neg (by simp [hbeg]), if_neg (by simpa using hadd), if_neg (by simpa using hlink (Nat.succ_pos k))]
          exact List.mem_append_right _ (hstep true (by simp) k rfl)

/-- A loop that comes to its end has passed every link behind `dhrefs`, and no step has failed. -/
theorem passed_of_finished {i : ℕ}
    (h : (storeLoop db o dhrefs i tnx l).finished = true) :
    ∀ k H, l[k]? = some H → H.stored = false →
      (dhrefs ≤ i + k → H.url ∈ (storeLoop db o dhrefs i tnx l).passed ∧ o.actionAdd (i + k) = true) ∧
        (H.collectLinks = true → o.actionAddLink (i + k) = true) := by
  induction l generalizing i tnx with
  | nil =>
    intro k H hH
    cases hH
  | cons G rest ih =>
    intro k H hH hstored
    -- what the rest of the loop gives for the links behind the first
    have hrest : ∀ tnx', (storeLoop db o dhrefs (i + 1) tnx' rest).finished = true → ∀ k', k = k' + 1 →
        (dhrefs ≤ i + k → H.url ∈ (storeLoop db o dhrefs (i + 1) tnx' rest).passed ∧ o.actionAdd (i + k) = true) ∧
          (H.collectLinks = true → o.actionAddLink (i + k) = true) := by
      rintro tnx' hfin k' rfl
      have := ih hfin k' H (by simpa using hH) hstored
      rwa [show i + 1 + k' = i + (k' + 1) by omega] at this
    rw [storeLoop] at h ⊢
    dsimp only at h ⊢
    split at h
    · rename_i hGs
      rw [if_pos hGs]
      cases k with
      | zero =>
        obtain rfl : G = H := by simpa using hH
        rw [hstored] at hGs
        cases hGs
      | succ k => exact hrest tnx h k rfl
    · rename_i hGs
      rw [if_neg hGs]
      split_ifs at h with hskip hbeg hadd hlink
      · rw [if_pos hskip]
        cases k with
        | zero =>
          obtain rfl : G = H := by simpa using hH
          simp only [Bool.and_eq_true, Bool.not_eq_true', decide_eq_false_iff_not] at hskip
          exact ⟨fun hle => absurd hle hskip.1, fun hcol => by simp [hskip.2] at hcol⟩
        | succ k => exact hrest tnx h k rfl
      · rw [if_neg hskip, if_neg hbeg, if_neg hadd, if_neg hlink]
        cases k with
        | zero =>
          obtain rfl : G = H := by simpa using hH
          refine ⟨fun hle => ⟨List.mem_append_left _ ?_, ?_⟩, fun hcol => ?_⟩
          · simp [addedUrl, show dhrefs ≤ i from hle]
          · simpa [show dhrefs ≤ i from hle] using hadd
          · simpa [hcol] using hlink
        | succ k =>
          obtain ⟨hpassed, hcol⟩ := hrest true h k rfl
          exact ⟨fun hle => ⟨List.mem_append_right _ (hpassed hle).1, (hpassed hle).2⟩, hcol⟩

end Loop

theorem exists_of_forall₂ {α β : Type} {R : α → β → Prop} {l : List α} {l' : List β} (h : List.Forall₂ R l l')
    {b : β} (hb : b ∈ l') : ∃ a ∈ l, R a b := by
  induction h with
  | nil => cases hb
  | @cons a b' l l' hR _ ih =>
    cases List.mem_cons.mp hb with
    | inl h => exact ⟨a, List.mem_cons_self, h ▸ hR⟩
    | inr h =>
      obtain ⟨a', ha', hR'⟩ := ih h
      exact ⟨a', List.mem_cons_of_mem _ ha', hR'⟩

/-! ## Finding a link -/

theorem urlAt_eq {href : List UdmHref} {c : ℕ} (hc : c < href.length) : ∃ H, href[c]? = some H ∧ urlAt href c = H.url :=
  ⟨href[c], List.getElem?_eq_getElem hc, by rw [urlAt, List.getElem?_eq_getElem hc]; rfl⟩

variable {href : List UdmHref} {ehref : Url} {c : ℕ} {o : Outcomes} {Href : UdmHref} {P : SortProc}
variable {canonize : Url → Url} {db : Bool} {s : LinkState}

theorem findSorted_some {fuel l r : ℕ} (hr : r ≤ href.length)
    (h : findSorted href ehref fuel l r = some c) : ∃ H, href[c]? = some H ∧ H.url = ehref := by
  induction fuel generalizing l r with
  | zero => cases h
  | succ fuel ih =>
    rw [findSorted] at h
    split at h
    · dsimp only at h
      split at h
      · rename_i hcmp
        injection h with h
        obtain ⟨H, hH, hurl⟩ := @urlAt_eq href ((l + (r - 1)) / 2) (by omega)
        exact ⟨H, h ▸ hH, hurl.symm.trans (strcmp_eq_eq.mp hcmp)⟩
      · exact ih hr h
      · exact ih (by omega) h
    · cases h

theorem findHref_some {L : UdmHrefList} (hs : L.shrefs ≤ L.href.length)
    (h : findHref L ehref = some c) : ∃ H, L.href[c]? = some H ∧ H.url = ehref := by
  rw [findHref, Option.or_eq_some_iff] at h
  cases h with
  | inl h => exact findSorted_some hs h
  | inr h =>
    have hfind := h.2
    have hmem := List.mem_of_find?_eq_some hfind
    have hurl := List.find?_some hfind
    rw [List.mem_range'_1] at hmem
    obtain ⟨H, hH, hat⟩ := @urlAt_eq L.href c (by omega)
    exact ⟨H, hH, hat.symm.trans (beq_iff_eq.mp hurl)⟩

/-! ## The invariant -/

/-- The next run that succeeds passes the link. -/
def Waiting (L : UdmHrefList) (u : Url) : Prop :=
  ∃ i H, L.href[i]? = some H ∧ H.url = u ∧ H.stored = false ∧ L.dhrefs ≤ i

/-- The counters and the flags are truthful. -/
structure Inv (s : LinkState) : Prop where
  /-- The sorted links are links. -/
  shrefs_le : s.hrefs.shrefs ≤ s.hrefs.href.length
  /-- The links that a run has been over are links. -/
  dhrefs_le : s.hrefs.dhrefs ≤ s.hrefs.href.length
  /-- A link is passed or waits. -/
  waiting : ∀ u ∈ s.added, u ∈ s.passed ∨ Waiting s.hrefs u
  stored : ∀ H ∈ s.hrefs.href, H.stored = true → H.url ∈ s.passed ∨ H.url ∈ s.declared
  /-- The links before `dhrefs` are passed. -/
  before : ∀ i H, s.hrefs.href[i]? = some H → i < s.hrefs.dhrefs → H.stored = false → H.url ∈ s.passed

theorem inv_init : Inv initState where
  shrefs_le := Nat.le_refl _
  dhrefs_le := Nat.le_refl _
  waiting := by simp [initState]
  stored := by simp [initState]
  before := by simp [initState]

theorem noLinkLost_of_inv {db : Bool} (h : Inv s) : NoLinkLost db s := by
  refine ⟨fun u hu => (h.waiting u hu).imp_right ?_, h.stored⟩
  rintro ⟨i, H, hH, rfl, hstored, hle⟩ o ⟨hfin, hcommit⟩
  rw [passedBy, hcommit]
  exact ((passed_of_finished hfin i H hH hstored).1 (by rwa [Nat.zero_add])).1

theorem inv_found (h : Inv s) (hok : AddOk canonize s Href)
    (hfind : findHref s.hrefs (canonize Href.url) = some c) :
    Inv
      { hrefs := { s.hrefs with href := s.hrefs.href.modify c fun old => copyHref P old.url Href }
        added := if Href.stored then s.added else canonize Href.url :: s.added
        declared := if Href.stored then canonize Href.url :: s.declared else s.declared
        passed := s.passed } := by
  obtain ⟨old, hold, hurl⟩ := findHref_some h.shrefs_le hfind
  have hokc := hok c hfind
  -- the links of the new list
  have hget : ∀ i H, (s.hrefs.href.modify c fun old => copyHref P old.url Href)[i]? = some H ↔
      if i = c then H = copyHref P (canonize Href.url) Href else s.hrefs.href[i]? = some H := by
    intro i H
    rw [List.getElem?_modify]
    by_cases hi : i = c
    · subst hi
      rw [if_pos rfl, hold]
      simp [hurl, eq_comm]
    · rw [if_neg hi]
      simp [Ne.symm hi]
  refine ⟨?_, ?_, ?_, ?_, ?_⟩
  · simpa using h.shrefs_le
  · simpa using h.dhrefs_le
  · intro u hu
    by_cases hus : u = canonize Href.url
    · subst hus
      by_cases hst : Href.stored = true
      · rw [if_pos hst] at hokc
        exact Or.inl (hokc (by simpa [hst] using hu))
      · rw [if_neg hst] at hokc
        by_cases hc : c < s.hrefs.dhrefs
        · exact Or.inl (hokc hc)
        · exact Or.inr ⟨c, copyHref P (canonize Href.url) Href, (hget c _).mpr (by rw [if_pos rfl]), rfl,
            by simpa using hst, not_lt.mp hc⟩
    · have hadded : u ∈ s.added := by
        split at hu
        · exact hu
        · exact (List.mem_cons.mp hu).resolve_left hus
      refine (h.waiting u hadded).imp_right ?_
      rintro ⟨i, H, hH, rfl, hrest⟩
      have hi : i ≠ c := by
        rintro rfl
        rw [hold] at hH
        cases hH
        exact hus hurl
      exact ⟨i, H, (hget i H).mpr (by rw [if_neg hi]; exact hH), rfl, hrest⟩
  · intro H hmem hst
    obtain ⟨i, hi⟩ := List.mem_iff_getElem?.mp hmem
    rw [hget] at hi
    split at hi
    · subst hi
      have hst : Href.stored = true := hst
      exact Or.inr (by simp [hst])
    · refine (h.stored H (List.mem_of_getElem? hi) hst).imp_right fun hd => ?_
      split
      · exact List.mem_cons_of_mem _ hd
      · exact hd
  · intro i H hi hlt hst
    rw [hget] at hi
    split at hi
    · rename_i hic
      subst hi hic
      have hst : Href.stored = false := hst
      rw [hst, if_neg Bool.false_ne_true] at hokc
      exact hokc hlt
    · exact h.before i H hi hlt hst

theorem inv_append {s : LinkState} (h : Inv s) (Href : UdmHref) (u : Url) :
    Inv
      { hrefs := { s.hrefs with href := s.hrefs.href ++ [copyHref P u Href] }
        added := if Href.stored then s.added else u :: s.added
        declared := if Href.stored then u :: s.declared else s.declared
        passed := s.passed } where
  shrefs_le := by
    have := h.shrefs_le
    simp only [List.length_append, List.length_cons, List.length_nil]
    omega
  dhrefs_le := by
    have := h.dhrefs_le
    simp only [List.length_append, List.length_cons, List.length_nil]
    omega
  waiting := by
    intro v hv
    have hold : v ∈ s.added → v ∈ s.passed ∨
        Waiting { s.hrefs with href := s.hrefs.href ++ [copyHref P u Href] } v := by
      refine fun hv => (h.waiting v hv).imp_right ?_
      rintro ⟨i, H, hH, hrest⟩
      refine ⟨i, H, ?_, hrest⟩
      rw [List.getElem?_append_left (List.getElem?_eq_some_iff.mp hH).1]
      exact hH
    by_cases hst : Href.stored = true
    · exact hold (by simpa [hst] using hv)
    · have hv : v = u ∨ v ∈ s.added := by simpa [hst] using hv
      cases hv with
      | inr hv => exact hold hv
      | inl hv =>
        refine Or.inr ⟨s.hrefs.href.length, copyHref P u Href, ?_, hv.symm, by simpa using hst, h.dhrefs_le⟩
        exact List.getElem?_concat_length
  stored := by
    intro H hmem hst
    cases List.mem_append.mp hmem with
    | inl hmem =>
      refine (h.stored H hmem hst).imp_right fun hd => ?_
      split
      · exact List.mem_cons_of_mem _ hd
      · exact hd
    | inr hmem =>
      obtain rfl := List.mem_singleton.mp hmem
      have hst : Href.stored = true := hst
      exact Or.inr (by simp [hst])
  before := by
    intro i H hi hlt hst
    have hlt : i < s.hrefs.dhrefs := hlt
    rw [List.getElem?_append_left (hlt.trans_le h.dhrefs_le)] at hi
    exact h.before i H hi hlt hst

theorem inv_sort (h : Inv s) (hperm : href.Perm s.hrefs.href) : Inv { s with hrefs := ⟨href.length, 0, href⟩ } where
  shrefs_le := Nat.le_refl _
  dhrefs_le := Nat.zero_le _
  waiting := by
    refine fun u hu => (h.waiting u hu).imp_right ?_
    rintro ⟨i, H, hH, hurl, hst, -⟩
    obtain ⟨j, hj⟩ := List.mem_iff_getElem?.mp (hperm.symm.subset (List.mem_of_getElem? hH))
    exact ⟨j, H, hj, hurl, hst, Nat.zero_le _⟩
  stored := fun H hmem hst => h.stored H (hperm.subset hmem) hst
  before := fun i H hi hlt => absurd hlt (Nat.not_lt_zero i)

/-- **A call of `UdmHrefListAdd` keeps the counters and the flags truthful.** -/
theorem inv_add (h : Inv s) (hok : Href.url ≠ CString.empty → AddOk canonize s Href) :
    Inv (step P canonize db s (.add Href)) := by
  rw [step]
  split
  · exact h
  · rename_i hne
    rw [udmHrefListAdd, if_neg hne]
    dsimp only
    split
    · rename_i c hfind
      exact inv_found h (hok hne) hfind
    · have happend := @inv_append P s h Href (canonize Href.url)
      split
      · have hsort := inv_sort happend (P.perm_sort (fun v1 v2 => strcmp v1.url v2.url != .gt) _)
        rw [(P.perm_sort _ _).length_eq] at hsort
        exact hsort
      · exact happend

theorem passed_of_storeOk (h : Inv s) (hok : StoreOk db s o) {i : ℕ} {H : UdmHref}
    (hH : s.hrefs.href[i]? = some H) (hst : H.stored = false) : H.url ∈ passedBy db o s.hrefs ++ s.passed := by
  rw [List.mem_append]
  by_cases hpassed : H.url ∈ s.passed
  · exact Or.inr hpassed
  · obtain ⟨hactions, hsql⟩ := hok i H hH hst hpassed
    have hi : s.hrefs.dhrefs ≤ i := by
      by_contra hlt
      exact hpassed (h.before i H hH (not_le.mp hlt) hst)
    have hmem : H.url ∈ (storeRun db o s.hrefs).passed := by
      refine mem_passed_of_ok hH hst (by omega) (fun _ hdb => (hsql hdb).1) fun j hj G hG hGs => ?_
      have := hactions j hj G hG hGs
      rwa [Nat.zero_add]
    have hcommit : commitFails db o s.hrefs = false := by
      by_contra hfails
      simp only [commitFails, Bool.and_eq_true, Bool.not_eq_true', Bool.not_eq_false] at hfails
      obtain ⟨⟨⟨hfin, -⟩, hdb⟩, hcom⟩ := hfails
      have hall : ActionsOk o s.hrefs := by
        intro j G hG hGs
        have := passed_of_finished hfin j G hG hGs
        rw [Nat.zero_add] at this
        exact ⟨fun hle => (this.1 hle).2, this.2⟩
      rw [(hsql hdb).2 hall] at hcom
      cases hcom
    rw [passedBy, hcommit]
    exact Or.inl hmem

/-- **A run keeps the counters and the flags truthful.** -/
theorem inv_store (h : Inv s) (hok : StoreOk db s o) : Inv (step P canonize db s (.store o)) := by
  have hadded : ∀ u ∈ s.added, u ∈ passedBy db o s.hrefs ++ s.passed := by
    intro u hu
    cases h.waiting u hu with
    | inl hu => exact List.mem_append_right _ hu
    | inr hu =>
      obtain ⟨i, H, hH, rfl, hst, -⟩ := hu
      exact passed_of_storeOk h hok hH hst
  have hlinks : ∀ H ∈ s.hrefs.href, (H.stored = false → H.url ∈ passedBy db o s.hrefs ++ s.passed) ∧
      (H.url ∈ passedBy db o s.hrefs ++ s.passed ∨ H.url ∈ s.declared) := by
    intro H hmem
    have hwait : H.stored = false → H.url ∈ passedBy db o s.hrefs ++ s.passed := by
      intro hst
      obtain ⟨i, hi⟩ := List.mem_iff_getElem?.mp hmem
      exact passed_of_storeOk h hok hi hst
    refine ⟨hwait, ?_⟩
    cases hst : H.stored with
    | false => exact Or.inl (hwait hst)
    | true => exact (h.stored H hmem hst).imp_left (List.mem_append_right _)
  rw [step, udmStoreHrefsSQL]
  split
  · exact ⟨Nat.le_refl _, Nat.le_refl _, fun u hu => Or.inl (hadded u hu), by simp, by simp⟩
  · have hloop : List.Forall₂ (fun H H' : UdmHref => H'.url = H.url ∧ (H'.stored = false → H.stored = false))
        s.hrefs.href (storeRun db o s.hrefs).href := forall₂_storeLoop 0 false s.hrefs.href
    have hlen : (storeRun db o s.hrefs).href.length = s.hrefs.href.length := hloop.length_eq.symm
    have hsame : ∀ H' ∈ (storeRun db o s.hrefs).href, ∃ H ∈ s.hrefs.href, H'.url = H.url ∧
        (H'.stored = false → H.stored = false) := fun H' hmem => exists_of_forall₂ hloop hmem
    refine ⟨?_, ?_, fun u hu => Or.inl (hadded u hu), ?_, ?_⟩
    · exact hlen ▸ h.shrefs_le
    · exact hlen.ge
    · intro H' hmem _
      obtain ⟨H, hH, hurl, -⟩ := hsame H' hmem
      exact hurl ▸ (hlinks H hH).2
    · intro i H' hi _ hst
      obtain ⟨H, hH, hurl, hflag⟩ := hsame H' (List.mem_of_getElem? hi)
      exact hurl ▸ (hlinks H hH).1 (hflag hst)

theorem inv_foldl (h : Inv s) {ops : List Op} (hok : RunOk P canonize db s ops) :
    Inv (ops.foldl (step P canonize db) s) := by
  induction ops generalizing s with
  | nil => exact h
  | cons op ops ih =>
    refine ih ?_ hok.2
    cases op with
    | add Href => exact inv_add h hok.1
    | store o => exact inv_store h hok.1

/-- **No link is lost in a run of the program whose calls meet the condition.** -/
theorem noLinkLost_of_run (P : SortProc) (canonize : Url → Url) (db : Bool) (ops : List Op)
    (hok : RunOk P canonize db initState ops) : NoLinkLost db (run P canonize db ops) :=
  noLinkLost_of_inv (inv_foldl inv_init hok)

/-- A link to be stored. -/
def link (url : Url) : UdmHref := ⟨url, 0, 0, false, 0, false, 0, 0, 0, 0, Vars.udmVarListInit⟩

/-- Nothing fails. -/
def allOk : Outcomes := ⟨true, fun _ => true, fun _ => true, true⟩

/-- Two links, a run, another link and a run. -/
theorem noLinkLost_of_run_links :
    NoLinkLost true (run .forward id true [.add (link ⟨[1], by decide⟩), .add (link ⟨[2], by decide⟩), .store allOk,
      .add (link ⟨[3], by decide⟩),
      .store allOk]) := by
  -- the links are new, and no call fails
  have hstore : ∀ s, StoreOk true s allOk := fun s i H _ _ _ =>
    ⟨fun _ _ _ _ _ => ⟨fun _ => rfl, fun _ _ => rfl⟩, fun _ => ⟨rfl, fun _ => rfl⟩⟩
  refine noLinkLost_of_run .forward id true _ ⟨fun _ c hc => ?_, fun _ c hc => ?_, hstore _, fun _ c hc => ?_,
    hstore _, trivial⟩
  · cases (show none = some c from hc)
  · cases (show none = some c from hc)
  · cases (show none = some c from hc)

/-- The action fails for the first link. -/
def firstFails : Outcomes := ⟨true, fun i => i != 0, fun _ => true, true⟩

/-- Not every run keeps all links: after a failure the next run passes neither the link nor those behind it. -/
theorem not_forall_noLinkLost : ¬ ∀ P canonize db ops, NoLinkLost db (run P canonize db ops) := by
  intro h
  obtain ⟨hadded, -⟩ := h .forward id true [.add (link ⟨[1], by decide⟩), .add (link ⟨[2], by decide⟩), .store firstFails]
  cases hadded ⟨[2], by decide⟩ (by decide) with
  | inl hpassed => exact absurd hpassed (by decide)
  | inr hnext => exact absurd (hnext allOk (by unfold Succeeds; decide)) (by decide)

end MnoGoSearch.Hrefs
