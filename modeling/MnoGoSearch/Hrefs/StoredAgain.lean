import MnoGoSearch.Hrefs.LinkSet
import MnoGoSearch.Sgml.References
import MnoGoSearch.Url.Buffers
import MnoGoSearch.Url.NoHost

/-!
# Links that are stored again

`UdmHrefListAdd` (`hrefs.c`) stores a link in canonical form with its references decoded. When a document is stored
(`UdmDocStoreHrefs`, `indexer.c`), its links are added to a second list in the same way. `storedAgain_iff` says which
links keep their address there: those for which decoding leaves neither a reference nor anything that
`UdmURLCanonize` changes.

The text that is decoded is not longer than the canonical form. So if an address comes out of both steps as it went in,
its canonical form must be longer or the same, and what `UdmURLCanonize` makes longer stays longer: the escapes, the
slashes in front of a host.
-/

namespace MnoGoSearch.Hrefs

open Lib.Delimited Lib.Sorting Words Url Sgml

/-! ## The source -/

/-- `UdmURLCanonize` and `UdmSGMLUnescape` in `UdmHrefListAdd`, in a buffer of three times the length of the link and
one byte more. -/
def ehref (url : Hrefs.Url) : Option Hrefs.Url :=
  (udmURLCanonize url.val).bind fun dst => (udmSGMLUnescape (dst.take (3 * url.val.length))).map CString.take

/-- `UdmHrefListAdd`, if its behaviour is defined. -/
def addHref (P : SortProc) (HrefList : UdmHrefList) (Href : UdmHref) : Option UdmHrefList :=
  if Href.url = CString.empty then some HrefList
  else (ehref Href.url).map fun u => udmHrefListAdd P (fun _ => u) HrefList Href

/-! ## What is wanted -/

/-- A link with this text is stored under the address `u`, in every list: afterwards the list has the addresses that it
had, and `u`. -/
def StoredAs (P : SortProc) (url u : Hrefs.Url) : Prop :=
  ∀ (Href : UdmHref) (HrefList : UdmHrefList), Href.url = url → HrefList.shrefs ≤ HrefList.href.length →
    ∃ HrefList', addHref P HrefList Href = some HrefList' ∧
      ∀ v, v ∈ HrefList'.href.map UdmHref.url ↔ v = u ∨ v ∈ HrefList.href.map UdmHref.url

/-- **The address under which a link is stored is stored under itself.** An empty link is not stored. -/
def StoredAgain (P : SortProc) (url : Hrefs.Url) : Prop :=
  url ≠ CString.empty → ∃ u, StoredAs P url u ∧ StoredAs P u u

/-- The condition: decoding leaves neither a reference nor anything to canonise. -/
def Settled (url : Hrefs.Url) : Prop :=
  url ≠ CString.empty → ∃ u, ehref url = some u ∧ u ≠ CString.empty ∧ NoReference u.val ∧ udmURLCanonize u.val = some u.val

/-! ## Text in front of a delimiter -/

/-- A string up to its NUL. -/
abbrev cut (s : List UInt8) : List UInt8 := (CString.take s).val

theorem cut_append {a : List UInt8} (ha : 0 ∉ a) (s : List UInt8) : cut (a ++ s) = a ++ cut s :=
  List.takeWhile_append_of_pos fun c hc => decide_eq_true fun h : c = 0 => ha (h ▸ hc)

variable {s name hostinfo path : List UInt8} {h : UrlHost}

theorem cut_eq_self (h : 0 ∉ s) : cut s = s := takeWhile_eq_self h

theorem length_cut_le (s : List UInt8) : (cut s).length ≤ s.length := (List.takeWhile_prefix _).length_le

theorem length_takeWhile_lt {c : UInt8} (h : c ∈ s) (t : List UInt8) :
    ((s ++ t).takeWhile (· ≠ c)).length < s.length := by
  obtain ⟨A, B, rfl, hA⟩ := List.eq_append_cons_of_mem h
  rw [List.append_assoc, List.cons_append, takeWhile_ne_append hA, List.length_append, List.length_cons]
  omega

/-- **The text in front of a delimiter is what is decoded in front of it**, if that has not become shorter. -/
theorem eq_of_decoded_append {d : UInt8} (hd : EndsReference d) (hd0 : d ≠ 0) (hamp : d ≠ 0x26)
    {A B x : List UInt8} (hx : x = cut (decoded (A ++ d :: B))) (hlen : A.length ≤ (x.takeWhile (· ≠ d)).length) :
    d ∉ decoded A ∧ x.takeWhile (· ≠ d) = decoded A ∧ x = decoded A ++ d :: cut (decoded B) := by
  have hle := length_decoded_le A
  have hpre : (x.takeWhile (· ≠ d)).length ≤ x.length := (List.takeWhile_prefix _).length_le
  have hB : decoded (d :: B) = d :: decoded B := @decoded_kept [d] (by simpa using Ne.symm hamp) B
  rw [decoded_append hd, hB] at hx
  have hzero : 0 ∉ decoded A := by
    intro hmem
    have hlt := length_takeWhile_lt hmem (d :: decoded B)
    rw [hx] at hpre hlen
    exact absurd hlt (not_lt.2 (hle.trans (hlen.trans hpre)))
  have hcut : cut (d :: decoded B) = d :: cut (decoded B) := @cut_append [d] (by simpa using Ne.symm hd0) _
  rw [cut_append hzero, hcut] at hx
  have hnot : d ∉ decoded A := by
    intro hmem
    have hlt := length_takeWhile_lt hmem (d :: cut (decoded B))
    rw [← hx] at hlt
    exact absurd hlt (not_lt.2 (hle.trans hlen))
  exact ⟨hnot, by rw [hx, takeWhile_ne_append hnot], hx⟩

/-! ## The query string -/

theorem count_percent_canonize (q : List UInt8) :
    (udmURLQueryStringCanonize q).count 0x25 = q.count 0x25 + q.countP fun c => queryEncType c ≠ 0 := by
  have hdigit : ∀ x < 16, hexd x ≠ 0x25 := by decide
  induction q with
  | nil => rfl
  | cons c q ih =>
    have hlt := c.toNat_lt
    rw [udmURLQueryStringCanonize] at ih ⊢
    rw [List.flatMap_cons, List.count_append, ih]
    by_cases hc : queryEncType c ≠ 0
    · have hpercent : c ≠ 0x25 := by
        rintro rfl
        exact hc (by decide)
      rw [if_pos hc, List.count_cons_self, List.count_cons_of_ne (hdigit _ (by omega)),
        List.count_cons_of_ne (hdigit _ (Nat.mod_lt _ (by omega))), List.count_nil, List.count_cons_of_ne hpercent,
        List.countP_cons_of_pos (by simpa using hc)]
      omega
    · rw [if_neg hc, List.countP_cons_of_neg (by simpa using hc), List.count_cons, List.count_cons, List.count_nil]
      omega

/-- **A query string that comes out of both steps as it went in has nothing to escape.** -/
theorem udmURLQueryStringCanonize_of_decoded {q : List UInt8} (hhash : 0x23 ∉ q)
    (hq : q = cutAnchor (cut (decoded (udmURLQueryStringCanonize q)))) : udmURLQueryStringCanonize q = q := by
  have hzero : 0 ∉ udmURLQueryStringCanonize q := fun hmem => absurd (queryEncType_canonize q 0 hmem) (by decide)
  obtain ⟨hcount, hhash', hzero'⟩ := count_percent_unescapeLoop (anchor_not_mem_canonize hhash) hzero
    (unescapeLoop_eq_decoded (udmURLQueryStringCanonize q))
  rw [cut_eq_self hzero', cutAnchor, takeWhile_eq_self hhash'] at hq
  rw [← hq, List.drop_zero, count_percent_canonize] at hcount
  have hnone : q.countP (fun c => queryEncType c ≠ 0) = 0 := by omega
  exact udmURLQueryStringCanonize_eq_self fun c hc => by simpa using List.countP_eq_zero.1 hnone c hc

/-- The query string as it is written. -/
abbrev queryText (path : List UInt8) : List UInt8 :=
  (queryOf (cutAnchor path)).elim [] fun q => 0x3F :: udmURLQueryStringCanonize q

/-- **The query string behind a name is not made longer.** -/
theorem length_query_le {X q : List UInt8} (hquery : 0x3F ∉ X) (hhash : 0x23 ∉ X)
    (hq : queryOf (cutAnchor path) = some q) (hpath : path = X ++ 0x3F :: cut (decoded (udmURLQueryStringCanonize q))) :
    X.length + (queryText path).length ≤ path.length := by
  have hcut : cutAnchor path = X ++ 0x3F :: cutAnchor (cut (decoded (udmURLQueryStringCanonize q))) := by
    have hX : ∀ c ∈ X, decide (c ≠ 0x23) = true := fun c hc => decide_eq_true fun h : c = 0x23 => hhash (h ▸ hc)
    conv_lhs => rw [hpath]
    rw [cutAnchor, List.takeWhile_append_of_pos hX, List.takeWhile_cons_of_pos (by decide)]
    rfl
  have hsame : q = cutAnchor (cut (decoded (udmURLQueryStringCanonize q))) := by
    have hagain := hq
    rw [hcut, queryOf, strchr_append hquery] at hagain
    dsimp only at hagain
    split_ifs at hagain with hnil
    exact (Option.some.inj hagain).symm
  have hcanonical := udmURLQueryStringCanonize_of_decoded (queryOf_cutAnchor hq).2 hsame
  have hle : q.length ≤ (cut (decoded (udmURLQueryStringCanonize q))).length := by
    conv_lhs => rw [hsame]
    exact (List.takeWhile_prefix _).length_le
  have hlen := congrArg List.length hpath
  rw [List.length_append, List.length_cons] at hlen
  rw [queryText, hq, Option.elim_some, hcanonical, List.length_cons]
  omega

/-! ## The path -/

theorem cut_decoded_append {a : List UInt8} (hamp : 0x26 ∉ a) (hzero : 0 ∉ a) (s : List UInt8) :
    cut (decoded (a ++ s)) = a ++ cut (decoded s) := by
  rw [decoded_kept hamp, cut_append hzero]

/-- **A canonical path that comes out as it went in has not been made longer.** -/
theorem length_canonical_queryText_le {p : List UInt8} (h : Canonical p)
    (hpath : path = cut (decoded (p ++ queryText path))) : p.length + (queryText path).length ≤ path.length := by
  have hamp : 0x26 ∉ p := h.not_mem (by decide) (by decide)
  have hzero : 0 ∉ p := h.not_mem (by decide) (by decide)
  rw [cut_decoded_append hamp hzero] at hpath
  cases hq : queryOf (cutAnchor path) with
  | none =>
    have hlen := congrArg List.length hpath
    rw [List.length_append] at hlen
    rw [queryText, hq, Option.elim_none, List.length_nil]
    omega
  | some q =>
    have hmark := @cut_decoded_append [0x3F] (by decide) (by decide) (udmURLQueryStringCanonize q)
    rw [queryText, hq, Option.elim_some, ← List.singleton_append, hmark] at hpath
    exact length_query_le h.no_query h.no_anchor hq hpath

theorem nameOf_isPrefix (path : List UInt8) : nameOf path <+: path :=
  (List.takeWhile_prefix _).trans (List.takeWhile_prefix _)

theorem length_fileOf_le (path : List UInt8) : (fileOf path).length ≤ (nameOf path).length := by
  rw [fileOf]
  split_ifs
  · rw [List.length_drop]
    omega
  · exact le_rfl

/-- **The same for a relative path.** -/
theorem length_fileOf_queryText_le (hpath : path = cut (decoded (fileOf path ++ queryText path))) :
    (fileOf path).length + (queryText path).length ≤ path.length := by
  have hfile := length_fileOf_le path
  have hname := (nameOf_isPrefix path).length_le
  cases hq : queryOf (cutAnchor path) with
  | none =>
    rw [queryText, hq, Option.elim_none, List.length_nil]
    omega
  | some q =>
    have htext : queryText path = 0x3F :: udmURLQueryStringCanonize q := by rw [queryText, hq, Option.elim_some]
    have hpre : nameOf path <+: path.takeWhile (· ≠ 0x3F) := by
      obtain ⟨rest, hrest⟩ := nameOf_isPrefix path
      have hpos : ∀ c ∈ nameOf path, decide (c ≠ 0x3F) = true := fun c hc =>
        decide_eq_true fun h : c = 0x3F => query_not_mem_nameOf path (h ▸ hc)
      conv_rhs => rw [← hrest, List.takeWhile_append_of_pos hpos]
      exact List.prefix_append _ _
    have hsplit := hpath
    rw [htext] at hsplit
    obtain ⟨hnot, htake, heq⟩ := eq_of_decoded_append (show EndsReference 0x3F by decide) (by decide) (by decide) hsplit
      (hfile.trans hpre.length_le)
    -- the name has its length, so there is no anchor in front of the query string
    have hsame : nameOf path = decoded (fileOf path) := by
      rw [← htake]
      apply hpre.eq_of_length_le
      rw [htake]
      exact (length_decoded_le _).trans hfile
    have hle := length_query_le hnot (hsame ▸ anchor_not_mem_nameOf path) hq heq
    rw [← hsame] at hle
    omega

theorem length_pathText_le {url u : UdmUrl} (hu : parsePath url path = .ok u) :
    (u.path ++ u.filename.getD []).length ≤ 3 * path.length := by
  have hroom := length_name_query (cutAnchor path)
  have hcut : (cutAnchor path).length ≤ path.length := (List.takeWhile_prefix _).length_le
  have htext : (queryText path).length ≤ 3 * (queryOf (cutAnchor path)).elim 0 (·.length + 1) := by
    rw [queryText]
    cases queryOf (cutAnchor path) with
    | none => exact le_rfl
    | some q =>
      have := length_udmURLQueryStringCanonize_le q
      rw [Option.elim_some, Option.elim_some, List.length_cons]
      omega
  rw [← nameOf] at hroom
  by_cases hrel : Relative path
  · rw [parsePath_relative hrel, ← fileOf] at hu
    cases hu
    dsimp only
    have hfile := length_fileOf_le path
    rw [List.nil_append, getD_udmURLQueryStringAppend, Option.getD_some, List.length_append, ← queryText]
    omega
  · obtain ⟨p, hp, rfl⟩ := (parsePath_ok_iff hrel).mp hu
    dsimp only
    rw [pathText_eq, List.length_append, ← queryText]
    have hshrinks := (shrinks_normalizePathIn 0 (Lib.Written.new (canonizedPath path))).length_le
    rw [str_normalizePathIn (by rwa [Lib.Written.str_new]), Lib.Written.str_new] at hshrinks
    have hcanonized : (canonizedPath path).length ≤ 3 * (nameOf path).length := length_canonizePathFrom_le _ _ _ _
    omega

/-! ## The host -/

theorem foldl_digits_lt {t : List UInt8} (h : ∀ c ∈ t, isdigit c = true) (n : ℕ) :
    t.foldl (fun n c => n * 10 + (c.toNat - 0x30)) n < (n + 1) * 10 ^ t.length := by
  induction t generalizing n with
  | nil => simp
  | cons c t ih =>
    rw [List.forall_mem_cons] at h
    have hc : c.toNat ≤ 0x39 := by
      have hle := h.1
      rw [isdigit, Bool.and_eq_true, decide_eq_true_eq, decide_eq_true_eq, UInt8.le_iff_toNat_le,
        UInt8.le_iff_toNat_le] at hle
      exact hle.2
    rw [List.foldl_cons, List.length_cons, Nat.pow_succ]
    calc
      _ < (n * 10 + (c.toNat - 0x30) + 1) * 10 ^ t.length := ih h.2 _
      _ ≤ ((n + 1) * 10) * 10 ^ t.length := Nat.mul_le_mul_right _ (by omega)
      _ = (n + 1) * (10 ^ t.length * 10) := by ring

theorem length_natDigits_digitsValue_le {s : List UInt8} (h : digitsValue s ≠ 0) (fuel : ℕ) :
    (natDigits fuel (digitsValue s)).length ≤ s.length := by
  have hrun : (s.takeWhile isdigit).length ≤ s.length := (List.takeWhile_prefix _).length_le
  have hvalue := @foldl_digits_lt (s.takeWhile isdigit) (fun c hc => List.mem_takeWhile_imp hc) 0
  rw [← digitsValue, Nat.zero_add, Nat.one_mul] at hvalue
  cases hlen : (s.takeWhile isdigit).length with
  | zero =>
    rw [hlen] at hvalue
    omega
  | succ k =>
    rw [hlen] at hvalue hrun
    exact (length_natDigits_le hvalue).trans hrun

theorem length_decText_numberAt_le (h : numberAt s ≠ 0) : (decText (numberAt s)).length ≤ s.length := by
  have hpositive {t : List UInt8} (ht : (digitsValue t : ℤ) ≠ 0) (hle : t.length ≤ s.length) :
      (decText (digitsValue t : ℤ)).length ≤ s.length :=
    (length_natDigits_digitsValue_le (by exact_mod_cast ht) _).trans hle
  have hdrop : (s.dropWhile fun c => c == 0x20 || (0x09 ≤ c && c ≤ 0x0D)).length ≤ s.length :=
    (List.dropWhile_suffix _).length_le
  rw [numberAt] at h ⊢
  split at h
  · rename_i t heq
    rw [heq, List.length_cons] at hdrop
    obtain ⟨n, hn⟩ : ∃ n, digitsValue t = n + 1 := Nat.exists_eq_succ_of_ne_zero fun h0 => h (by rw [h0]; rfl)
    have hlen := @length_natDigits_digitsValue_le t (by omega) (n + 2)
    have hnegative : (-(digitsValue t : ℤ)) = Int.negSucc n := by
      rw [hn]
      rfl
    rw [hn] at hlen
    rw [hnegative, decText, List.length_cons]
    omega
  · rename_i t heq
    rw [heq, List.length_cons] at hdrop
    exact hpositive h (by omega)
  · exact hpositive h hdrop

theorem length_splitAuth (s : List UInt8) :
    (splitAuth s).1.elim 0 (·.length + 1) + (splitAuth s).2.length = s.length := by
  rw [splitAuth]
  split
  · rename_i auth rest heq
    rw [(strchr_some heq).1, List.length_append, List.length_cons, Option.elim_some]
    exact Nat.add_right_comm _ _ _
  · exact Nat.zero_add _

theorem length_splitPort (s : List UInt8) :
    (splitPort s).1.length + (splitPort s).2.elim 0 (·.length + 1) = s.length := by
  rw [splitPort]
  split
  · rename_i hostname port heq
    rw [(strchr_some heq).1, List.length_append, List.length_cons, Option.elim_some]
  · rfl

theorem fields_of_parseHostinfo (hparse : parseHostinfo hostinfo = .ok h) :
    h.auth = (splitAuth hostinfo).1 ∧ h.hostname = (splitPort (splitAuth hostinfo).2).1.map tolower := by
  rw [parseHostinfo] at hparse
  split_ifs at hparse
  split at hparse
  · cases hparse
    exact ⟨rfl, rfl⟩
  · cases hparse

/-- **A host is not written longer than it was read.** -/
theorem length_hostText_le (hparse : parseHostinfo hostinfo = .ok h)
    {portText : List UInt8} (hport : portText = [] ∨ h.port ≠ 0 ∧ portText = decText h.port) :
    (hostText h.auth h.hostname portText).length ≤ hostinfo.length := by
  obtain ⟨hauth, hhostname⟩ := fields_of_parseHostinfo hparse
  have hport' := port_of_parseHostinfo hparse
  have hsplit := length_splitAuth hostinfo
  have hsplit' := length_splitPort (splitAuth hostinfo).2
  rw [portOf] at hport'
  have hauthText : (h.auth.elim [] (· ++ [0x40])).length = (splitAuth hostinfo).1.elim 0 (·.length + 1) := by
    rw [hauth]
    cases (splitAuth hostinfo).1 with
    | none => rfl
    | some a => rw [Option.elim_some, Option.elim_some, List.length_append, List.length_singleton]
  have hportText : (if portText = [] then [] else 0x3A :: portText).length ≤
      (splitPort (splitAuth hostinfo).2).2.elim 0 (·.length + 1) := by
    rcases hport with rfl | ⟨hne, rfl⟩
    · exact Nat.zero_le _
    · rw [if_neg (decText_ne_nil _), List.length_cons]
      cases ht : (splitPort (splitAuth hostinfo).2).2 with
      | none =>
        rw [ht, Option.elim_none, Option.some.injEq] at hport'
        exact absurd hport'.symm hne
      | some t =>
        rw [ht, Option.elim_some, Url.atoi] at hport'
        split_ifs at hport' with hrange
        rw [Option.some.injEq] at hport'
        rw [← hport'] at hne ⊢
        exact Nat.succ_le_succ (length_decText_numberAt_le hne)
  rw [hostText, List.length_append, List.length_append, hauthText, hhostname, List.length_map]
  omega

/-! ## The whole link -/

theorem not_mem_isSchema (hname : isSchema name = true) : 0x26 ∉ name ∧ 0 ∉ name :=
  ⟨fun h => Bool.noConfusion (List.all_eq_true.1 hname 0x26 h), fun h => Bool.noConfusion (List.all_eq_true.1 hname 0 h)⟩

theorem cut_decoded_schemaUrl (hname : isSchema name = true) (behind : List UInt8) :
    cut (decoded (schemaUrl name behind)) = schemaUrl name (cut (decoded behind)) := by
  obtain ⟨hamp, hzero⟩ := not_mem_isSchema hname
  have happend : ∀ s, schemaUrl name s = (name ++ [0x3A]) ++ s := fun s => by
    rw [schemaUrl, List.append_assoc, List.singleton_append]
  rw [happend, happend]
  exact cut_decoded_append (by simpa using hamp) (by simpa using hzero) behind

theorem cut_decoded_urlOf (hname : isSchema name = true) (behind : List UInt8) :
    cut (decoded (urlOf name behind)) = urlOf name (cut (decoded behind)) := by
  have h := cut_decoded_schemaUrl hname ([0x2F, 0x2F] ++ behind)
  rw [@cut_decoded_append [0x2F, 0x2F] (by decide) (by decide)] at h
  exact h

theorem schemaUrl_inj {name' s' : List UInt8} (hlen : name.length = name'.length)
    (h : schemaUrl name s = schemaUrl name' s') : name = name' ∧ s = s' := by
  obtain ⟨hname, hbehind⟩ := List.append_inj h hlen
  exact ⟨hname, (List.cons.inj hbehind).2⟩

theorem length_schemaUrl (name s : List UInt8) : (schemaUrl name s).length = name.length + s.length + 1 := by
  rw [schemaUrl, List.length_append, List.length_cons, Nat.add_assoc]

/-- **If a link comes out of both steps as it went in, `UdmURLCanonize` leaves it alone**, as soon as that makes nothing
longer. -/
theorem eq_of_length_le {e c : List UInt8} {n : ℕ} (he : cut (decoded (c.take n)) = e) (hlen : c.length ≤ e.length) :
    c = e ∧ NoReference e := by
  have hcut := length_cut_le (decoded (c.take n))
  have hdecoded := length_decoded_le (c.take n)
  have htake : (c.take n).length ≤ c.length := List.length_take_le' n c
  rw [he] at hcut
  have hall : c.take n = c := List.take_of_length_le (by rw [List.length_take] at hdecoded; omega)
  rw [hall] at he hdecoded hcut
  have hno : NoReference c := noReference_of_le (hlen.trans hcut)
  rw [hno.decoded] at he
  have hkept : c.length ≤ (cut c).length := by rwa [he]
  have hsame : c = e := ((List.takeWhile_prefix _).eq_of_length_le hkept).symm.trans he
  exact ⟨hsame, hsame ▸ hno⟩

section Whole

variable {name specific c behind schema : List UInt8} {url u : UdmUrl}

theorem writeUrl_cases (h : writeUrl u schema = some c) :
    (schema = bytes "mailto" ∨ schema = bytes "javascript") ∧ c = schemaUrl schema u.specific ∨
      schema = bytes "htdb" ∧ c = schemaUrl schema (u.path ++ u.filename.getD []) ∨
      ∃ behind, c = urlOf schema behind ∧
        behind = hostText u.auth (u.hostname.getD []) u.portText ++ (u.path ++ u.filename.getD []) := by
  rw [writeUrl] at h
  split_ifs at h with hmail hhtdb hlong
  · exact Or.inl ⟨hmail, (Option.some.inj h).symm⟩
  · exact Or.inr (Or.inl ⟨hhtdb, (Option.some.inj h).symm⟩)
  · exact Or.inr (Or.inr ⟨_, (Option.some.inj h).symm, rfl⟩)

theorem not_urlOf (hname : isSchema name = true) (hspecific : specific.take 2 ≠ [0x2F, 0x2F])
    (he : cut (decoded ((urlOf (name.map tolower) behind).take (3 * (schemaUrl name specific).length))) =
      schemaUrl name specific) : False := by
  have hlower := (isSchema_map_tolower hname).1
  have hlen := length_schemaUrl name specific
  have htake : ∃ t, (urlOf (name.map tolower) behind).take (3 * (schemaUrl name specific).length) =
      urlOf (name.map tolower) t := by
    have happend : ∀ s, urlOf (name.map tolower) s = (name.map tolower ++ [0x3A, 0x2F, 0x2F]) ++ s := fun s => by
      rw [urlOf, List.append_assoc]
      rfl
    refine ⟨behind.take (3 * (schemaUrl name specific).length - (name.length + 3)), ?_⟩
    rw [happend, happend, List.take_append, List.take_of_length_le, List.length_append, List.length_map]
    · rfl
    · rw [List.length_append, List.length_map, List.length_cons, List.length_cons, List.length_singleton]
      omega
  obtain ⟨t, ht⟩ := htake
  rw [ht, cut_decoded_urlOf hlower] at he
  obtain ⟨-, rfl⟩ := schemaUrl_inj (List.length_map _) he
  exact hspecific rfl

/-- **A path behind a colon is not made longer.** -/
theorem length_htdb_le (hu : parsePath url path = .ok u) (hpath : path = cut (decoded (u.path ++ u.filename.getD []))) :
    (u.path ++ u.filename.getD []).length ≤ path.length := by
  by_cases hrel : Relative path
  · rw [parsePath_relative hrel, ← fileOf] at hu
    cases hu
    dsimp only at hpath ⊢
    rw [List.nil_append, getD_udmURLQueryStringAppend, Option.getD_some, ← queryText] at hpath ⊢
    rw [List.length_append]
    exact length_fileOf_queryText_le hpath
  · obtain ⟨p, hp, rfl⟩ := (parsePath_ok_iff hrel).mp hu
    dsimp only at hpath ⊢
    rw [pathText_eq, ← queryText] at hpath ⊢
    rw [List.length_append]
    refine length_canonical_queryText_le ?_ hpath
    rcases absolute_cases hrel with ⟨-, hnormal⟩ | ⟨-, p', hp', -, hcanonical, -⟩
    · exact canonical_iff.mpr (hnormal p hp).canonical
    · rw [hp'] at hp
      exact Option.some.inj hp ▸ hcanonical

theorem exists_of_canonize {src : List UInt8} (hparse : udmURLParse src = parsePath url path)
    (hschema : url.schema = some schema) (haccept : udmURLParse src ≠ .error .bad) (hc : udmURLCanonize src = some c) :
    ∃ u, parsePath url path = .ok u ∧ writeUrl u schema = some c := by
  cases hu : parsePath url path with
  | error e =>
    rw [hparse, hu] at haccept
    rw [udmURLCanonize, hparse, hu] at hc
    cases e with
    | bad => exact absurd rfl haccept
    | undefined => cases hc
  | ok u =>
    rw [udmURLCanonize_of_parse (hparse.trans hu) (by rw [parsePath_fields hu]; exact hschema)] at hc
    exact ⟨u, rfl, hc⟩

/-- **A link without a host is not made longer.** -/
theorem length_le_of_noHost (hname : isSchema name = true) (hspecific : specific.take 2 ≠ [0x2F, 0x2F])
    (haccept : udmURLParse (schemaUrl name specific) ≠ .error .bad)
    (hc : udmURLCanonize (schemaUrl name specific) = some c)
    (he : cut (decoded (c.take (3 * (schemaUrl name specific).length))) = schemaUrl name specific) :
    c.length ≤ (schemaUrl name specific).length := by
  have hlen := length_schemaUrl name specific
  have hlower := (isSchema_map_tolower hname).1
  rcases udmURLParse_schemaUrl hname hspecific haccept with ⟨hschema, hparse⟩ | ⟨hnews, hparse⟩
  · obtain ⟨u, hu, hwrite⟩ := exists_of_canonize hparse rfl haccept hc
    rcases writeUrl_cases hwrite with ⟨hmail, -⟩ | ⟨hhtdb, rfl⟩ | ⟨behind, rfl, -⟩
    · -- such a link is refused
      rw [PathSchema] at hschema
      rcases hmail with hmail | hmail
      · rw [hmail] at hschema
        exact absurd hschema (by decide)
      · rw [hmail] at hschema
        exact absurd hschema (by decide)
    · have hroom := length_pathText_le hu
      rw [List.take_of_length_le (by rw [length_schemaUrl, List.length_map]; omega), cut_decoded_schemaUrl hlower] at he
      obtain ⟨-, hsame⟩ := schemaUrl_inj (List.length_map _) he
      have hle := length_htdb_le hu hsame.symm
      rw [length_schemaUrl, List.length_map]
      omega
    · exact (not_urlOf hname hspecific he).elim
  · obtain ⟨u, hu, hwrite⟩ := exists_of_canonize hparse rfl haccept hc
    rw [hnews] at hwrite
    rcases writeUrl_cases hwrite with ⟨hmail, -⟩ | ⟨hhtdb, -⟩ | ⟨behind, rfl, -⟩
    · exact absurd hmail (by decide)
    · exact absurd hhtdb (by decide)
    · rw [← hnews] at he
      exact (not_urlOf hname hspecific he).elim

theorem takeWhile_splitHost (s : List UInt8) : s.takeWhile (· ≠ 0x2F) = (splitHost s).1 := by
  rw [splitHost, strchr]
  split_ifs with h
  · rfl
  · exact takeWhile_eq_self h

theorem length_splitHost (s : List UInt8) : (splitHost s).1.length + (splitHost s).2.length ≤ s.length + 1 := by
  rw [splitHost]
  split
  · rename_i hostinfo path heq
    rw [(strchr_some heq).1, List.length_append, List.length_cons]
    exact Nat.le_succ _
  · exact le_rfl

theorem portText_of_ne (url : UdmUrl) : url.portText = [] ∨ url.port ≠ 0 ∧ url.portText = decText url.port := by
  rw [UdmUrl.portText]
  split_ifs with h
  · exact Or.inr ⟨h.1, rfl⟩
  · exact Or.inl rfl

theorem exists_normal (hpath : path.head? = some 0x2F) (hu : parsePath url path = .ok u) :
    ∃ p, Normal p ∧ u.path ++ u.filename.getD [] = p ++ queryText path := by
  rw [parsePath_rooted hpath] at hu
  cases hp : normalizePath (canonizedPath path) with
  | none =>
    rw [hp] at hu
    cases hu
  | some p =>
    rw [hp] at hu
    cases hu
    exact ⟨p, normalizePath_spec (rooted_canonizedPath hpath) hp, pathText_eq p _⟩

theorem not_slashes {p : List UInt8} (hp : Normal p)
    (h : cut (decoded (p ++ queryText path)) = 0x2F :: 0x2F :: behind) : False := by
  have hcanonical := canonical_iff.mpr hp.canonical
  rw [cut_decoded_append (hcanonical.not_mem (by decide) (by decide)) (hcanonical.not_mem (by decide) (by decide))] at h
  obtain ⟨rest, rfl⟩ := List.head?_eq_some_iff.mp hp.root
  rw [List.cons_append, List.cons.injEq] at h
  cases rest with
  | nil =>
    rw [List.nil_append, queryText] at h
    cases hq : queryOf (cutAnchor path) with
    | none =>
      rw [hq] at h
      exact nomatch h.2
    | some q =>
      rw [hq, Option.elim_some, ← List.singleton_append, cut_decoded_append (by decide) (by decide)] at h
      exact absurd (List.cons.inj h.2).1 (by decide)
  | cons d rest =>
    obtain ⟨rfl, -⟩ := List.cons.inj h.2
    exact (hp.pathText none).2 rfl

/-- **The host and the path are not made longer.** -/
theorem length_host_path_le {A p : List UInt8} (hp : Normal p) (hA : A.length ≤ (splitHost specific).1.length)
    (hspecific : specific = cut (decoded (A ++ (p ++ queryText (splitHost specific).2)))) :
    A.length + (p.length + (queryText (splitHost specific).2).length) ≤ specific.length := by
  obtain ⟨rest, rfl⟩ := List.head?_eq_some_iff.mp hp.root
  generalize hpath : (splitHost specific).2 = path at hspecific ⊢
  have hbehind := @cut_decoded_append [0x2F] (by decide) (by decide) (rest ++ queryText path)
  obtain ⟨hnot, htake, heq⟩ := eq_of_decoded_append (show EndsReference 0x2F by decide) (by decide) (by decide)
    hspecific (by rw [takeWhile_splitHost]; exact hA)
  have hsplit := splitHost_append hnot (show (0x2F :: cut (decoded (rest ++ queryText path))).head? = some 0x2F from rfl)
  have hsame : path = 0x2F :: cut (decoded (rest ++ queryText path)) := by
    conv_lhs => rw [← hpath, heq]
    exact congrArg Prod.snd hsplit
  have hle := length_canonical_queryText_le (canonical_iff.mpr hp.canonical) (hsame.trans hbehind.symm)
  have hlen : specific.length = (decoded A).length + path.length := by
    conv_lhs => rw [heq]
    conv_rhs => rw [hsame]
    exact List.length_append
  have hhost : (splitHost specific).1 = decoded A := by rw [← takeWhile_splitHost, htake]
  rw [hhost] at hA
  omega

/-- **A link with a host is not made longer.** -/
theorem length_le_of_host (hname : isSchema name = true) (haccept : udmURLParse (urlOf name specific) ≠ .error .bad)
    (hc : udmURLCanonize (urlOf name specific) = some c)
    (he : cut (decoded (c.take (3 * (urlOf name specific).length))) = urlOf name specific) :
    c.length ≤ (urlOf name specific).length := by
  have hlenUrl : ∀ name behind, (urlOf name behind).length = name.length + behind.length + 3 := fun name behind =>
    length_schemaUrl name (0x2F :: 0x2F :: behind)
  have hlen := hlenUrl name specific
  have hlower := (isSchema_map_tolower hname).1
  obtain ⟨hslash, hpath⟩ := splitHost_spec specific
  have hparts := length_splitHost specific
  have hparse := @udmURLParse_urlOf name specific hname
  cases hhost : parseHostinfo (splitHost specific).1 with
  | error e =>
    rw [hhost] at hparse
    rw [udmURLCanonize, hparse] at hc
    cases e with
    | bad => exact absurd hparse haccept
    | undefined => cases hc
  | ok host =>
    rw [hhost] at hparse
    obtain ⟨u, hu, hwrite⟩ := exists_of_canonize hparse rfl haccept hc
    have hfields := parsePath_fields hu
    have hroom := length_pathText_le hu
    obtain ⟨p, hp, htext⟩ := exists_normal hpath hu
    rcases writeUrl_cases hwrite with ⟨hmail, rfl⟩ | ⟨hhtdb, rfl⟩ | ⟨behind, rfl, rfl⟩
    · -- what is behind the schema is copied
      rw [hfields, length_schemaUrl, List.length_map, List.length_cons, List.length_cons]
      omega
    · rw [List.take_of_length_le (by rw [length_schemaUrl, List.length_map]; omega), cut_decoded_schemaUrl hlower] at he
      obtain ⟨-, hslashes⟩ := schemaUrl_inj (List.length_map _) he
      rw [htext] at hslashes
      exact (not_slashes hp hslashes).elim
    · have hhostText : (hostText u.auth (u.hostname.getD []) u.portText).length ≤ (splitHost specific).1.length := by
        have hport := portText_of_ne u
        rw [show u.port = host.port by rw [hfields]] at hport
        have hle := length_hostText_le hhost hport
        rwa [show u.auth = host.auth by rw [hfields], show u.hostname = some host.hostname by rw [hfields]]
      generalize hostText u.auth (u.hostname.getD []) u.portText = A at he hhostText ⊢
      rw [List.take_of_length_le (by rw [hlenUrl, List.length_map, List.length_append]; omega),
        cut_decoded_urlOf hlower] at he
      obtain ⟨-, hsame⟩ := schemaUrl_inj (List.length_map _) he
      have hspecific : specific = cut (decoded (A ++ (u.path ++ u.filename.getD []))) :=
        (List.cons.inj (List.cons.inj hsame).2).2.symm
      rw [htext] at hspecific ⊢
      have hle := length_host_path_le hp hhostText hspecific
      rw [hlenUrl, List.length_map, List.length_append, List.length_append]
      omega

/-- **A link that comes out of both steps as it went in is not made longer by the first one.** -/
theorem length_canonize_le {e : List UInt8} (hc : udmURLCanonize e = some c)
    (he : cut (decoded (c.take (3 * e.length))) = e) : c.length ≤ e.length := by
  by_cases hbad : udmURLParse e = .error .bad
  · -- a URL that is refused is copied
    rw [udmURLCanonize, hbad] at hc
    exact (congrArg List.length (Option.some.inj hc)).ge
  cases hsplit : splitSchema e with
  | none =>
    have hparse : udmURLParse e = parsePath ⟨none, [], none, none, [], none, 0, 0⟩ e := by rw [udmURLParse, hsplit]
    rw [udmURLCanonize, hparse] at hc
    cases hu : parsePath ⟨none, [], none, none, [], none, 0, 0⟩ e with
    | error err =>
      rw [hu] at hc
      cases err with
      | bad => exact (congrArg List.length (Option.some.inj hc)).ge
      | undefined => cases hc
    | ok u =>
      have hschema : u.schema = none := by rw [parsePath_fields hu]
      rw [hu] at hc
      dsimp only at hc
      rw [hschema] at hc
      exact (congrArg List.length (Option.some.inj hc)).ge
  | some parts =>
    obtain ⟨name, specific⟩ := parts
    obtain ⟨hfind, hname⟩ := Option.filter_eq_some_iff.mp hsplit
    obtain ⟨rfl, -⟩ := strchr_some hfind
    by_cases hslashes : specific.take 2 = [0x2F, 0x2F]
    · obtain ⟨behind, rfl⟩ : ∃ behind, specific = 0x2F :: 0x2F :: behind :=
        ⟨specific.drop 2, by rw [← List.take_append_drop 2 specific, hslashes]; rfl⟩
      exact length_le_of_host hname hbad hc he
    · exact length_le_of_noHost hname hslashes hbad hc he

end Whole

/-- **An address that is stored under itself has no reference and is in canonical form.** -/
theorem ehref_self_iff (u : Hrefs.Url) : ehref u = some u ↔ NoReference u.val ∧ udmURLCanonize u.val = some u.val := by
  constructor
  · intro h
    obtain ⟨c, hc, hmap⟩ := Option.bind_eq_some_iff.mp h
    rw [udmSGMLUnescape, unescapeLoop_eq_decoded, Option.map_some, Option.some.injEq] at hmap
    have he : cut (decoded (c.take (3 * u.val.length))) = u.val := congrArg Subtype.val hmap
    obtain ⟨rfl, hno⟩ := eq_of_length_le he (length_canonize_le hc he)
    exact ⟨hno, hc⟩
  · rintro ⟨hno, hc⟩
    rw [ehref, hc, Option.bind_some, List.take_of_length_le (Nat.le_mul_of_pos_left _ (by decide)), udmSGMLUnescape,
      hno.unescapeLoop, Option.map_some, CString.take_val]

/-! ## The lists -/

theorem mem_urls_udmHrefListAdd (P : SortProc) (canonize : Hrefs.Url → Hrefs.Url) {L : UdmHrefList}
    (hs : L.shrefs ≤ L.href.length) {Href : UdmHref} (hne : Href.url ≠ CString.empty) (v : Hrefs.Url) :
    v ∈ (udmHrefListAdd P canonize L Href).href.map UdmHref.url ↔
      v = canonize Href.url ∨ v ∈ L.href.map UdmHref.url := by
  rw [udmHrefListAdd, if_neg hne]
  dsimp only
  cases hfind : findHref L (canonize Href.url) with
  | some c =>
    obtain ⟨H, hH, hurl⟩ := findHref_some hs hfind
    have hsame : (L.href.modify c fun old => copyHref P old.url Href).map UdmHref.url = L.href.map UdmHref.url := by
      apply List.ext_getElem?
      intro i
      rw [List.getElem?_map, List.getElem?_map, List.getElem?_modify]
      by_cases hi : c = i
      · cases L.href[i]? with
        | none => rfl
        | some old => simp [hi]
      · simp [hi]
    dsimp only
    rw [hsame]
    refine (or_iff_right_of_imp ?_).symm
    rintro rfl
    exact List.mem_map.mpr ⟨H, List.mem_of_getElem? hH, hurl⟩
  | none =>
    have happend : v ∈ (L.href ++ [copyHref P (canonize Href.url) Href]).map UdmHref.url ↔
        v = canonize Href.url ∨ v ∈ L.href.map UdmHref.url := by
      rw [List.map_append, List.mem_append, or_comm, List.map_singleton, List.mem_singleton, copyHref_url]
    dsimp only
    split_ifs
    · have hperm := P.perm_sort (fun v1 v2 : UdmHref => strcmp v1.url v2.url != .gt)
        (L.href ++ [copyHref P (canonize Href.url) Href])
      exact (hperm.map UdmHref.url).mem_iff.trans happend
    · exact happend

theorem storedAs_iff (P : SortProc) (url u : Hrefs.Url) : StoredAs P url u ↔ url ≠ CString.empty ∧ ehref url = some u := by
  constructor
  · intro h
    obtain ⟨L', hadd, hurls⟩ := h (link url) ⟨0, 0, []⟩ rfl le_rfl
    rw [addHref] at hadd
    split_ifs at hadd with hempty
    · obtain rfl := Option.some.inj hadd
      exact absurd ((hurls u).mpr (Or.inl rfl)) List.not_mem_nil
    · obtain ⟨u', hu', rfl⟩ := Option.map_eq_some_iff.mp hadd
      have hmem := (@mem_urls_udmHrefListAdd P (fun _ => u') ⟨0, 0, []⟩ le_rfl (link url) hempty u').mpr (Or.inl rfl)
      have hsame : u' = u := ((hurls u').mp hmem).resolve_right List.not_mem_nil
      exact ⟨hempty, hsame ▸ hu'⟩
  · rintro ⟨hne, hu⟩ Href L rfl hs
    refine ⟨_, by rw [addHref, if_neg hne, hu, Option.map_some], fun v => ?_⟩
    exact mem_urls_udmHrefListAdd P (fun _ => u) hs hne v

/-- **A link keeps its address in the second list exactly if decoding leaves neither a reference nor anything that
`UdmURLCanonize` changes.** -/
theorem storedAgain_iff (P : SortProc) (url : Hrefs.Url) : StoredAgain P url ↔ Settled url := by
  refine forall_congr' fun hne => exists_congr fun u => ?_
  rw [storedAs_iff, storedAs_iff, ehref_self_iff]
  exact ⟨fun h => ⟨h.1.2, h.2⟩, fun h => ⟨⟨hne, h.1⟩, h.2⟩⟩

/-- `&amp;amp;` is stored as `&amp;`, and that as `&`. -/
theorem not_storedAgain : ¬ ∀ P url, StoredAgain P url := by
  intro h
  obtain ⟨u, hu, hagain⟩ := h .forward ⟨bytes "&amp;amp;", by decide⟩ (by decide)
  rw [storedAs_iff] at hu hagain
  have hfirst : ehref ⟨bytes "&amp;amp;", by decide⟩ = some ⟨bytes "&amp;", by decide⟩ := by decide +kernel
  have hsecond : ehref ⟨bytes "&amp;", by decide⟩ = some ⟨bytes "&", by decide⟩ := by decide +kernel
  obtain rfl := Option.some.inj (hu.2.symm.trans hfirst)
  exact absurd (hagain.2.symm.trans hsecond) (by decide)

end MnoGoSearch.Hrefs
