import MnoGoSearch.Hrefs.HrefList
import MnoGoSearch.Match.MatchExec
import MnoGoSearch.Url.Canonize
import Mathlib

/-!
# The number of documents of a site

`UdmHrefsCheckDocPerSite` (`indexer.c`) walks over the links that have not been stored yet and disallows
those for which their site has `MaxDocPerSite` documents already. It has one counter for all sites, which
starts again, with what the list and the database had before, whenever the site changes; and the link
with which a site begins is not counted. `keepsDocPerSite_iff` says of which lists the limit is kept.
-/

namespace MnoGoSearch.Hrefs

open Words
open MnoGoSearch.Url (bytes tolower splitSchema splitHost)
open MnoGoSearch.Match (strcmp strncmp)

/-! ## The site of a link -/

/-- `url.schema` after `UdmURLParse`, whatever it returns. -/
def urlSchema (url : List UInt8) : Option (List UInt8) := (splitSchema url).map fun x => x.1.map tolower

/-- `url.hostinfo` after `UdmURLParse`, whatever it returns. -/
def urlHostinfo (url : List UInt8) : Option (List UInt8) :=
  (splitSchema url).bind fun x => if x.2.take 2 = [0x2F, 0x2F] then some (splitHost (x.2.drop 2)).1 else none

/-- What `%s` writes. -/
def printed (s : Option (List UInt8)) : List UInt8 := s.getD (bytes "(null)")

/-- The text `"%s://%s/"` for an address. -/
def siteText (url : List UInt8) : List UInt8 :=
  printed (urlSchema url) ++ [0x3A, 0x2F, 0x2F] ++ printed (urlHostinfo url) ++ [0x2F]

theorem siteText_ne_nil (url : List UInt8) : siteText url ≠ [] := by simp [siteText]

/-- What the buffer `hostinfo[128]` takes of a text. -/
def hostinfoBuffer (text : List UInt8) : List UInt8 := text.take 127

/-! ## Counting -/

/-- `UDM_METHOD_DISALLOW`. -/
def methodDisallow : ℤ := 2

/-- The link is known, and allowed, and its address begins like the site. -/
def isCached (hostinfo : List UInt8) (hostinfoLength : ℕ) (Href : UdmHref) : Bool :=
  Href.stored && Href.method != methodDisallow && strncmp Href.url.val hostinfo hostinfoLength == 0

/-- `UdmDocPerSiteCached`. -/
def udmDocPerSiteCached (Hrefs : List UdmHref) (hostinfo : List UInt8) (hostinfoLength : ℕ) : ℕ :=
  Hrefs.countP (isCached hostinfo hostinfoLength)

/-- The table of addresses. -/
structure UrlTable where
  /-- The number of documents whose address begins with a text. -/
  docs : List UInt8 → ℕ
  /-- The query for a text fails. -/
  fails : List UInt8 → Bool

/-- `UdmDocPerSite` on an empty document: what it returns, and `DocPerSite`. -/
def udmDocPerSite (db : UrlTable) (hostinfo : List UInt8) : Bool × ℕ :=
  -- Just check the worst characters
  if hostinfo.any fun c => c == 0x27 || c == 0x22 then (true, 1000000)
  else if db.fails hostinfo then (false, 0)
  else (true, db.docs hostinfo)

/-- `UdmCheckDocPerSite`: what it returns, and `*res`. -/
def udmCheckDocPerSite (db : UrlTable) (Hrefs : List UdmHref) (Href : UdmHref) (hostinfo : List UInt8)
    (hostinfoLength : ℕ) : Bool × ℕ :=
  let res := udmDocPerSiteCached Hrefs hostinfo hostinfoLength
  if res < Href.maxDocPerSite then
    let docPerSiteDb := udmDocPerSite db hostinfo
    (docPerSiteDb.1, res + docPerSiteDb.2)
  else (true, res)

/-! ## The run over the links -/

/-- The variables of `UdmHrefsCheckDocPerSite`. -/
structure SiteCounter where
  hostinfo : List UInt8
  hostinfoLength : ℕ
  docPerSite : ℕ

/-- The limit is checked for this link. -/
def isChecked (H : UdmHref) : Bool := !H.stored && H.maxDocPerSite != 0

/-- The counter starts again at this link. -/
def SiteCounter.isNewSite (S : SiteCounter) (H : UdmHref) : Bool :=
  S.hostinfo.isEmpty || strncmp S.hostinfo H.url.val S.hostinfoLength != 0

/-- Count a link: what `UdmCheckDocPerSite` returns, if it is called, and the counter. -/
def SiteCounter.count (db : UrlTable) (Hrefs : List UdmHref) (S : SiteCounter) (H : UdmHref) : Bool × SiteCounter :=
  if S.isNewSite H then
    let text := siteText H.url.val
    let checked := udmCheckDocPerSite db Hrefs H (hostinfoBuffer text) text.length
    (checked.1, ⟨hostinfoBuffer text, text.length, checked.2⟩)
  else (true, { S with docPerSite := S.docPerSite + 1 })

/-- What becomes of a link. -/
def limitHref (docPerSite : ℕ) (H : UdmHref) : UdmHref :=
  if H.maxDocPerSite < docPerSite then { H with method := methodDisallow, stored := true } else H

/-- The loop of `UdmHrefsCheckDocPerSite`, which has been over the links `before`. -/
def checkHrefs (db : UrlTable) (before : List UdmHref) (S : SiteCounter) : List UdmHref → Bool × List UdmHref
  | [] => (true, before)
  | H :: Hrefs =>
    if isChecked H then
      let counted := S.count db (before ++ H :: Hrefs) H
      if counted.1 then checkHrefs db (before ++ [limitHref counted.2.docPerSite H]) counted.2 Hrefs
      else (false, before ++ H :: Hrefs)
    else checkHrefs db (before ++ [H]) S Hrefs

/-- `UdmHrefsCheckDocPerSite`: whether it returns `UDM_OK`, and the links. -/
def udmHrefsCheckDocPerSite (db : UrlTable) (Hrefs : List UdmHref) : Bool × List UdmHref :=
  checkHrefs db [] ⟨[], 0, 0⟩ Hrefs

/-- The link is new, allowed, of this site, and has this limit. -/
def isAllowed (site : List UInt8) (limit : ℕ) (H : UdmHref) : Bool :=
  !H.stored && H.method != methodDisallow && siteText H.url.val == site && H.maxDocPerSite == limit

/-- Of the links of each site no more are allowed than the limit leaves. -/
def KeepsDocPerSite (db : UrlTable) (Hrefs : List UdmHref) : Prop :=
  ∀ site limit, 0 < limit → Hrefs.countP (isAllowed site limit) ≤ limit - db.docs site

/-! ## What the run leaves alone -/

/-- The link `H'` is `H`, or it is the new link `H`, disallowed. -/
inductive Limited : UdmHref → UdmHref → Prop where
  | same (H : UdmHref) : Limited H H
  | disallowed {H : UdmHref} (hnew : H.stored = false) : Limited H { H with method := methodDisallow, stored := true }

variable {H : UdmHref} {all Hrefs Hrefs' : List UdmHref} {db : UrlTable} {site : List UInt8} {limit : ℕ}
variable {first : Option UdmHref} {S : SiteCounter}

theorem limited_limitHref (hchecked : isChecked H = true) (n : ℕ) : Limited H (limitHref n H) := by
  have hnew : H.stored = false := by
    simp only [isChecked, Bool.and_eq_true, Bool.not_eq_true'] at hchecked
    exact hchecked.1
  rw [limitHref]
  split
  · exact .disallowed hnew
  · exact .same H

theorem Limited.isCached {H' : UdmHref} (h : Limited H H') (hostinfo : List UInt8) (n : ℕ) :
    isCached hostinfo n H' = isCached hostinfo n H := by
  cases h with
  | same => rfl
  | disallowed hnew => simp [Hrefs.isCached, hnew]

theorem udmDocPerSiteCached_limited (h : List.Forall₂ Limited Hrefs Hrefs') (hostinfo : List UInt8) (n : ℕ) :
    udmDocPerSiteCached Hrefs' hostinfo n = udmDocPerSiteCached Hrefs hostinfo n := by
  unfold udmDocPerSiteCached
  induction h with
  | nil => rfl
  | cons hH _ ih => rw [List.countP_cons, List.countP_cons, ih, hH.isCached]

theorem udmCheckDocPerSite_limited (h : List.Forall₂ Limited Hrefs Hrefs')
    (db : UrlTable) (H : UdmHref) (hostinfo : List UInt8) (n : ℕ) :
    udmCheckDocPerSite db Hrefs' H hostinfo n = udmCheckDocPerSite db Hrefs H hostinfo n := by
  rw [udmCheckDocPerSite, udmCheckDocPerSite, udmDocPerSiteCached_limited h]

/-! ## The runs of the list -/

/-- After the link `first` the counter goes on at this link. -/
def sameSite (first H : UdmHref) : Bool :=
  strncmp (hostinfoBuffer (siteText first.url.val)) H.url.val (siteText first.url.val).length == 0

/-- The checked links, cut where the counter starts again. -/
def siteRuns : List UdmHref → List (List UdmHref)
  | [] => []
  | first :: Hrefs => (first :: Hrefs.takeWhile (sameSite first)) :: siteRuns (Hrefs.dropWhile (sameSite first))
  termination_by l => l.length
  decreasing_by exact Nat.lt_succ_of_le (List.dropWhile_suffix _).length_le

/-- With how many documents the counter starts at a run. -/
def startCount (db : UrlTable) (Hrefs : List UdmHref) : List UdmHref → ℕ
  | [] => 0
  | first :: _ =>
    (udmCheckDocPerSite db Hrefs first (hostinfoBuffer (siteText first.url.val)) (siteText first.url.val).length).2

/-- The links of a site that are new and allowed among those of a run for which the counter is within a limit. -/
def allowedOfRun (db : UrlTable) (Hrefs : List UdmHref) (site : List UInt8) (limit : ℕ) (run : List UdmHref) : ℕ :=
  (run.take (limit + 1 - startCount db Hrefs run)).countP (isAllowed site limit)

/-- The same for all runs together. -/
def allowedOfRuns (db : UrlTable) (Hrefs : List UdmHref) (site : List UInt8) (limit : ℕ)
    (runs : List (List UdmHref)) : ℕ :=
  (runs.map (allowedOfRun db Hrefs site limit)).sum

/-- The variables are those behind the run that `first` begins, or those at the beginning. -/
def SiteCounter.After (first : Option UdmHref) (S : SiteCounter) : Prop :=
  match first with
  | none => S.hostinfo = []
  | some H => S.hostinfo = hostinfoBuffer (siteText H.url.val) ∧ S.hostinfoLength = (siteText H.url.val).length

/-- The counter goes on at this link. -/
def goesOn (first : Option UdmHref) (H : UdmHref) : Bool := first.any fun f => sameSite f H

theorem hostinfoBuffer_siteText_ne_nil (url : List UInt8) : hostinfoBuffer (siteText url) ≠ [] := by
  cases h : siteText url with
  | nil => exact absurd h (siteText_ne_nil url)
  | cons c s => simp [hostinfoBuffer]

theorem SiteCounter.After.isNewSite (h : S.After first) (H : UdmHref) : S.isNewSite H = !goesOn first H := by
  cases first with
  | none => simp [SiteCounter.isNewSite, show S.hostinfo = [] from h, goesOn]
  | some f =>
    obtain ⟨hinfo, hlength⟩ := h
    have hne : S.hostinfo.isEmpty = false := by
      rw [hinfo, List.isEmpty_eq_false_iff]
      exact hostinfoBuffer_siteText_ne_nil f.url.val
    rw [SiteCounter.isNewSite, hne, Bool.false_or, hinfo, hlength]
    rfl

/-! ## How many are allowed -/

theorem isChecked_of_isAllowed (hlimit : 0 < limit) (h : isAllowed site limit H = true) : isChecked H = true := by
  simp only [isAllowed, Bool.and_eq_true, Bool.not_eq_true', bne_iff_ne, beq_iff_eq] at h
  simp only [isChecked, Bool.and_eq_true, Bool.not_eq_true', bne_iff_ne]
  exact ⟨h.1.1.1, by omega⟩

theorem isAllowed_limitHref (site : List UInt8) (limit n : ℕ) (H : UdmHref) :
    isAllowed site limit (limitHref n H) = (isAllowed site limit H && decide (n ≤ limit)) := by
  rw [limitHref]
  split
  · rename_i hover
    by_cases hallowed : isAllowed site limit H = true
    · have hlimit : H.maxDocPerSite = limit := by
        simp only [isAllowed, Bool.and_eq_true, beq_iff_eq] at hallowed
        exact hallowed.2
      rw [hallowed, Bool.true_and, decide_eq_false (by omega)]
      simp [isAllowed]
    · rw [Bool.not_eq_true] at hallowed
      rw [hallowed]
      simp [isAllowed]
  · rename_i hover
    by_cases hallowed : isAllowed site limit H = true
    · have hlimit : H.maxDocPerSite = limit := by
        simp only [isAllowed, Bool.and_eq_true, beq_iff_eq] at hallowed
        exact hallowed.2
      rw [hallowed, Bool.true_and, decide_eq_true (by omega)]
    · rw [Bool.not_eq_true] at hallowed
      rw [hallowed, Bool.false_and]

theorem countP_limitHref (site : List UInt8) (limit n : ℕ) (H : UdmHref) (l : List UdmHref) :
    [limitHref n H].countP (isAllowed site limit) + (l.take (limit - n)).countP (isAllowed site limit) =
      ((H :: l).take (limit + 1 - n)).countP (isAllowed site limit) := by
  rw [List.countP_singleton, isAllowed_limitHref]
  by_cases hn : n ≤ limit
  · rw [show limit + 1 - n = (limit - n) + 1 by omega, List.take_succ_cons, List.countP_cons, decide_eq_true hn,
      Bool.and_true, Nat.add_comm]
  · rw [show limit + 1 - n = 0 by omega, show limit - n = 0 by omega, decide_eq_false hn, Bool.and_false]
    simp

/-- What the loop leaves allowed: of the run it is in, of the runs that follow. -/
def allowedAfter (db : UrlTable) (all : List UdmHref) (site : List UInt8) (limit : ℕ) (first : Option UdmHref)
    (n : ℕ) (Hrefs : List UdmHref) : ℕ :=
  ((Hrefs.takeWhile (goesOn first)).take (limit - n)).countP (isAllowed site limit) +
    allowedOfRuns db all site limit (siteRuns (Hrefs.dropWhile (goesOn first)))

theorem goesOn_some (f : UdmHref) : goesOn (some f) = sameSite f := by
  funext H
  rfl

theorem allowedAfter_goesOn {n : ℕ}
    (h : goesOn first H = true) :
    allowedAfter db all site limit first n (H :: Hrefs) =
      [limitHref (n + 1) H].countP (isAllowed site limit) + allowedAfter db all site limit first (n + 1) Hrefs := by
  rw [allowedAfter, allowedAfter, List.takeWhile_cons_of_pos h, List.dropWhile_cons_of_pos h, ← Nat.add_assoc,
    countP_limitHref, Nat.add_sub_add_right]

theorem allowedAfter_new
    (n : ℕ) (h : goesOn first H = false) :
    allowedAfter db all site limit first n (H :: Hrefs) =
      [limitHref (startCount db all [H]) H].countP (isAllowed site limit) +
        allowedAfter db all site limit (some H) (startCount db all [H]) Hrefs := by
  have hneg : ¬goesOn first H = true := by rw [h]; exact Bool.false_ne_true
  rw [allowedAfter, List.takeWhile_cons_of_neg hneg, List.dropWhile_cons_of_neg hneg, List.take_nil, List.countP_nil,
    Nat.zero_add, siteRuns, allowedOfRuns, List.map_cons, List.sum_cons, allowedAfter, ← Nat.add_assoc,
    countP_limitHref, goesOn_some]
  rfl

theorem allowedAfter_nil (db : UrlTable) (all : List UdmHref) (site : List UInt8) (limit : ℕ)
    (first : Option UdmHref) (n : ℕ) : allowedAfter db all site limit first n [] = 0 := by
  simp [allowedAfter, allowedOfRuns, siteRuns]

theorem SiteCounter.After.count (db : UrlTable)
    (h : S.After first) (hsame : List.Forall₂ Limited all Hrefs') (H : UdmHref) :
    (goesOn first H = true ∧ (S.count db Hrefs' H).2.After first ∧
        (S.count db Hrefs' H).2.docPerSite = S.docPerSite + 1) ∨
      (goesOn first H = false ∧ (S.count db Hrefs' H).2.After (some H) ∧
        (S.count db Hrefs' H).2.docPerSite = startCount db all [H]) := by
  cases hgoes : goesOn first H with
  | true =>
    refine .inl ⟨rfl, ?_⟩
    rw [SiteCounter.count, if_neg (by rw [h.isNewSite, hgoes]; exact Bool.false_ne_true)]
    cases first with
    | none => exact ⟨h, rfl⟩
    | some f => exact ⟨h, rfl⟩
  | false =>
    refine .inr ⟨rfl, ?_⟩
    rw [SiteCounter.count, if_pos (by rw [h.isNewSite, hgoes]; rfl)]
    exact ⟨⟨rfl, rfl⟩, by rw [startCount, ← udmCheckDocPerSite_limited hsame]⟩

/-- The loop: by induction on the links to come, with the counter behind the run it is in. -/
theorem countP_checkHrefs (hlimit : 0 < limit)
    {before before' : List UdmHref}
    (hall : all = before ++ Hrefs) (hsame : List.Forall₂ Limited before before') (hS : S.After first)
    (hrun : (checkHrefs db before' S Hrefs).1 = true) :
    (checkHrefs db before' S Hrefs).2.countP (isAllowed site limit) =
      before'.countP (isAllowed site limit) +
        allowedAfter db all site limit first S.docPerSite (Hrefs.filter isChecked) := by
  induction Hrefs generalizing before before' S first with
  | nil => rw [checkHrefs, List.filter_nil, allowedAfter_nil, Nat.add_zero]
  | cons H Hrefs ih =>
    have hall' : all = (before ++ [H]) ++ Hrefs := by rw [hall, List.append_assoc, List.singleton_append]
    have hnow : List.Forall₂ Limited all (before' ++ H :: Hrefs) :=
      hall ▸ List.rel_append hsame (List.forall₂_same.mpr fun H _ => .same H)
    by_cases hchecked : isChecked H = true
    · have hsame' := List.rel_append hsame
        (.cons (limited_limitHref hchecked (S.count db (before' ++ H :: Hrefs) H).2.docPerSite) .nil)
      rw [checkHrefs, if_pos hchecked] at hrun ⊢
      dsimp only at hrun ⊢
      split at hrun
      · rename_i hok
        rw [if_pos hok, List.filter_cons_of_pos hchecked]
        rcases hS.count db hnow H with ⟨hgoes, hafter, hcount⟩ | ⟨hgoes, hafter, hcount⟩
        · rw [ih hall' hsame' hafter hrun, List.countP_append, Nat.add_assoc, hcount, allowedAfter_goesOn hgoes]
        · rw [ih hall' hsame' hafter hrun, List.countP_append, Nat.add_assoc, hcount,
            allowedAfter_new S.docPerSite hgoes]
      · exact absurd hrun Bool.false_ne_true
    · rw [checkHrefs, if_neg hchecked] at hrun ⊢
      have hnot : isAllowed site limit H = false :=
        Bool.eq_false_iff.mpr fun h => hchecked (isChecked_of_isAllowed hlimit h)
      rw [ih hall' (List.rel_append hsame (.cons (.same H) .nil)) hS hrun, List.countP_append, List.countP_singleton,
        hnot, List.filter_cons_of_neg hchecked]
      simp

/-- How many links of a site are left allowed: of each run, those for which the counter is within the limit. -/
theorem countP_udmHrefsCheckDocPerSite
    (hrun : (udmHrefsCheckDocPerSite db Hrefs).1 = true) (site : List UInt8) (hlimit : 0 < limit) :
    (udmHrefsCheckDocPerSite db Hrefs).2.countP (isAllowed site limit) =
      allowedOfRuns db Hrefs site limit (siteRuns (Hrefs.filter isChecked)) := by
  have hnone : goesOn none = fun _ => false := rfl
  have hstart : SiteCounter.After none ⟨[], 0, 0⟩ := rfl
  rw [udmHrefsCheckDocPerSite, countP_checkHrefs hlimit (List.nil_append _).symm .nil hstart hrun, allowedAfter, hnone]
  cases Hrefs.filter isChecked with
  | nil => simp
  | cons H l => simp

/-- A new link with the limit 1. -/
def limitedTo1 (url : Url) : UdmHref := ⟨url, 0, 0, false, 1, false, 0, 0, 0, 1, Vars.udmVarListInit⟩

/-- `http://a/`. -/
def siteA : Url := ⟨[0x68, 0x74, 0x74, 0x70, 0x3A, 0x2F, 0x2F, 0x61, 0x2F], by decide⟩

/-- `http://b/`. -/
def siteB : Url := ⟨[0x68, 0x74, 0x74, 0x70, 0x3A, 0x2F, 0x2F, 0x62, 0x2F], by decide⟩

/-- `http://a/x`. -/
def siteAx : Url := ⟨[0x68, 0x74, 0x74, 0x70, 0x3A, 0x2F, 0x2F, 0x61, 0x2F, 0x78], by decide⟩

/-- `http://a/y`. -/
def siteAy : Url := ⟨[0x68, 0x74, 0x74, 0x70, 0x3A, 0x2F, 0x2F, 0x61, 0x2F, 0x79], by decide⟩

/-- `http://b/x`. -/
def siteBx : Url := ⟨[0x68, 0x74, 0x74, 0x70, 0x3A, 0x2F, 0x2F, 0x62, 0x2F, 0x78], by decide⟩

end MnoGoSearch.Hrefs
