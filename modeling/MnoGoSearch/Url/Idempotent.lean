import MnoGoSearch.Url.Canonize
import Mathlib

/-!
# Canonical URLs: once and twice

The parts of a URL in canonical form are taken apart as they were put together: the host
(`parseHostinfo_hostText`) and the path with the query string (`parsePath_canonical`). From that,
`idempotent_iff`: a URL with a host has a canonical form that is its own canonical form, unless the
code writes behind the buffer of the port or reads in front of the path.
-/

namespace MnoGoSearch.Url

open Lib.Segments

/-! ## Strings -/

theorem forall_byte {p : UInt8 → Prop} (h : ∀ n < 256, p (UInt8.ofNat n)) (c : UInt8) : p c := by
  have hc := h c.toNat c.toNat_lt
  rwa [UInt8.ofNat_toNat] at hc

variable {c : UInt8} {path q portText s : List UInt8} {h : UrlHost} {p : ℤ}

theorem strchr_append {A : List UInt8} (h : c ∉ A) (B : List UInt8) : strchr (A ++ c :: B) c = some (A, B) := by
  have hne : ∀ b ∈ A, decide (b ≠ c) = true := fun b hb => by simpa using fun hbc : b = c => h (hbc ▸ hb)
  rw [strchr, if_pos (by simp), List.takeWhile_append_of_pos hne, List.dropWhile_append_of_pos hne]
  simp

theorem strchr_eq_none (h : c ∉ s) : strchr s c = none := if_neg h

theorem strchr_some {A B : List UInt8} (h : strchr s c = some (A, B)) : s = A ++ c :: B ∧ c ∉ A := by
  rw [strchr] at h
  split_ifs at h with hc
  cases h
  have hA : c ∉ s.takeWhile (· ≠ c) := fun hmem => by simpa using List.mem_takeWhile_imp hmem
  refine ⟨?_, hA⟩
  have hne : s.dropWhile (· ≠ c) ≠ [] := by
    intro hnil
    have hs := List.takeWhile_append_dropWhile (p := (· ≠ c)) (l := s)
    rw [hnil, List.append_nil] at hs
    exact hA (by rw [hs]; exact hc)
  have hhead := List.head_dropWhile_not (fun b => decide (b ≠ c)) hne
  have hcons : s.dropWhile (· ≠ c) = c :: (s.dropWhile (· ≠ c)).tail := by
    rw [← List.cons_head_tail hne]
    congr 1
    simpa using hhead
  rw [← hcons, List.takeWhile_append_dropWhile]

theorem takeWhile_eq_self (h : c ∉ s) : s.takeWhile (· ≠ c) = s :=
  List.takeWhile_eq_self_iff.mpr fun b hb => by simpa using fun hbc : b = c => h (hbc ▸ hb)

theorem tolower_tolower (c : UInt8) : tolower (tolower c) = tolower c :=
  @forall_byte (fun c => tolower (tolower c) = tolower c) (by decide +kernel) c

theorem map_tolower_map_tolower (s : List UInt8) : (s.map tolower).map tolower = s.map tolower := by
  rw [List.map_map]
  exact List.map_congr_left fun c _ => tolower_tolower c

theorem isSchema_map_tolower (h : isSchema s = true) :
    isSchema (s.map tolower) = true ∧ (0x3A : UInt8) ∉ s.map tolower := by
  have hbyte := @forall_byte (fun c => (isalnum c || c == 0x2B || c == 0x2D || c == 0x2E) = true →
    (isalnum (tolower c) || tolower c == 0x2B || tolower c == 0x2D || tolower c == 0x2E) = true ∧ tolower c ≠ 0x3A)
    (by decide +kernel)
  have hall := List.all_eq_true.mp h
  constructor
  · rw [isSchema, List.all_map, List.all_eq_true]
    exact fun c hc => (hbyte c (hall c hc)).1
  · intro hmem
    obtain ⟨c, hc, heq⟩ := List.mem_map.mp hmem
    exact (hbyte c (hall c hc)).2 heq

theorem not_mem_of_isSchema (h : isSchema s = true) : (0x3A : UInt8) ∉ s := by
  intro hmem
  exact absurd (List.all_eq_true.mp h _ hmem) (by decide)

/-! ## Numbers -/

theorem isdigit_natDigits {fuel n : ℕ} : ∀ c ∈ natDigits fuel n, isdigit c = true := by
  have hdigit : ∀ d < 10, isdigit (UInt8.ofNat (0x30 + d)) = true := by decide
  induction fuel generalizing n with
  | zero => simp [natDigits]
  | succ fuel ih =>
    rw [natDigits]
    split_ifs with hn
    · simpa using hdigit n hn
    · intro c hc
      rcases List.mem_append.mp hc with hc | hc
      · exact ih c hc
      · rw [List.mem_singleton.mp hc]
        exact hdigit _ (Nat.mod_lt _ (by omega))

theorem digitsValue_natDigits {fuel n : ℕ} (h : n < fuel) : digitsValue (natDigits fuel n) = n := by
  rw [digitsValue, List.takeWhile_eq_self_iff.mpr isdigit_natDigits]
  have hdigit : ∀ d < 10, (UInt8.ofNat (0x30 + d)).toNat - 0x30 = d := by decide
  induction fuel generalizing n with
  | zero => omega
  | succ fuel ih =>
    rw [natDigits]
    split_ifs with hn
    · rw [List.foldl_cons, List.foldl_nil, hdigit n hn, Nat.zero_mul, Nat.zero_add]
    · rw [List.foldl_append, ih (by omega), List.foldl_cons, List.foldl_nil, hdigit _ (Nat.mod_lt _ (by omega))]
      omega

theorem natDigits_ne_nil {fuel n : ℕ} (h : n < fuel) : natDigits fuel n ≠ [] := by
  obtain ⟨fuel, rfl⟩ := Nat.exists_eq_add_of_le' (Nat.lt_of_le_of_lt (Nat.zero_le n) h)
  rw [natDigits]
  split_ifs <;> simp

theorem numberAt_append {p : ℤ} {s : List UInt8} (hs : ∀ c ∈ s.head?, isdigit c = false) :
    numberAt (decText p ++ s) = p := by
  have hdigits : ∀ {fuel n}, n < fuel → digitsValue (natDigits fuel n ++ s) = n := by
    intro fuel n h
    have htake : (natDigits fuel n ++ s).takeWhile isdigit = natDigits fuel n := by
      rw [List.takeWhile_append_of_pos isdigit_natDigits]
      rcases s with _ | ⟨c, s⟩
      · simp
      · rw [List.takeWhile_cons_of_neg (by rw [hs c rfl]; exact Bool.false_ne_true), List.append_nil]
    have hall := digitsValue_natDigits h
    rw [digitsValue, List.takeWhile_eq_self_iff.mpr isdigit_natDigits] at hall
    rw [digitsValue, htake, hall]
  cases p with
  | ofNat n =>
    obtain ⟨d, ds, hds⟩ := List.exists_cons_of_ne_nil (natDigits_ne_nil (Nat.lt_succ_self n))
    have hdigit : isdigit d = true := isdigit_natDigits d (by rw [hds]; exact List.mem_cons_self)
    have hblank := @forall_byte (fun d => isdigit d = true →
      (d == 0x20 || (0x09 ≤ d && d ≤ 0x0D)) = false ∧ d ≠ 0x2D ∧ d ≠ 0x2B) (by decide +kernel) d hdigit
    have hvalue := hdigits (Nat.lt_succ_self n)
    rw [hds, List.cons_append] at hvalue
    rw [decText, hds, List.cons_append, numberAt,
      List.dropWhile_cons_of_neg (by rw [hblank.1]; exact Bool.false_ne_true)]
    split
    · rename_i heq
      exact absurd (List.cons.inj heq).1 hblank.2.1
    · rename_i heq
      exact absurd (List.cons.inj heq).1 hblank.2.2
    · rw [hvalue]
      rfl
  | negSucc n =>
    rw [decText, List.cons_append, numberAt, List.dropWhile_cons_of_neg (by decide)]
    change -(digitsValue (natDigits (n + 2) (n + 1) ++ s) : ℤ) = _
    rw [hdigits (Nat.lt_succ_self _)]
    rfl

theorem numberAt_decText (p : ℤ) : numberAt (decText p) = p := by
  have h := @numberAt_append p [] (by simp)
  rwa [List.append_nil] at h

theorem atoi_decText (hlo : -0x80000000 ≤ p) (hhi : p < 0x80000000) : atoi (decText p) = some p := by
  rw [atoi, numberAt_decText, if_pos ⟨hlo, hhi⟩]

theorem not_mem_decText (hc : isdigit c = false) (hminus : c ≠ 0x2D) : c ∉ decText p := by
  have hdigits : ∀ {fuel n}, c ∉ natDigits fuel n := by
    intro fuel n hmem
    rw [isdigit_natDigits c hmem] at hc
    cases hc
  cases p with
  | ofNat n => exact hdigits
  | negSucc n => simp [decText, hminus, hdigits]

theorem decText_ne_nil (p : ℤ) : decText p ≠ [] := by
  cases p with
  | ofNat n => exact natDigits_ne_nil (Nat.lt_succ_self n)
  | negSucc n => exact List.cons_ne_nil _ _

/-! ## The host -/

/-- The host as it is written. -/
def hostText (auth : Option (List UInt8)) (hostname portText : List UInt8) : List UInt8 :=
  auth.elim [] (· ++ [0x40]) ++ (hostname ++ if portText = [] then [] else 0x3A :: portText)

/-- What a host has when it has been taken apart. -/
structure HostShape (h : UrlHost) : Prop where
  /-- No `@` in the authorisation. -/
  noAt : ∀ a ∈ h.auth, (0x40 : UInt8) ∉ a
  /-- No slash in the authorisation. -/
  noSlash : ∀ a ∈ h.auth, (0x2F : UInt8) ∉ a
  /-- Valid characters in the host name. -/
  valid : h.hostname.all hostnameValid = true
  /-- The host name is in lower case. -/
  lower : h.hostname.map tolower = h.hostname
  /-- The port is an `int`. -/
  range : -0x80000000 ≤ h.port ∧ h.port < 0x80000000

theorem hostnameValid_tolower (c : UInt8) : hostnameValid c = true → hostnameValid (tolower c) = true :=
  @forall_byte (fun c => hostnameValid c = true → hostnameValid (tolower c) = true) (by decide +kernel) c

theorem atoi_some (h : atoi s = some p) : -0x80000000 ≤ p ∧ p < 0x80000000 := by
  rw [atoi] at h
  split_ifs at h with hrange
  cases h
  exact hrange

theorem hostShape_of_parseHostinfo {hostinfo : List UInt8} (hslash : (0x2F : UInt8) ∉ hostinfo)
    (hparse : parseHostinfo hostinfo = .ok h) : HostShape h := by
  rw [parseHostinfo] at hparse
  have hauth : ∀ a ∈ (splitAuth hostinfo).1, (0x40 : UInt8) ∉ a ∧ (0x2F : UInt8) ∉ a := by
    intro a ha
    rw [splitAuth] at ha
    split at ha
    · rename_i heq
      cases ha
      obtain ⟨rfl, hat⟩ := strchr_some heq
      exact ⟨hat, fun hmem => hslash (List.mem_append_left _ hmem)⟩
    · cases ha
  split_ifs at hparse with hvalid
  · split at hparse
    · rename_i port hport
      cases hparse
      refine ⟨fun a ha => (hauth a ha).1, fun a ha => (hauth a ha).2, ?_, map_tolower_map_tolower _, ?_⟩
      · rw [List.all_map, List.all_eq_true]
        exact fun c hc => hostnameValid_tolower c (List.all_eq_true.mp hvalid c hc)
      · cases hp : (splitPort (splitAuth hostinfo).2).2 with
        | none =>
          rw [hp] at hport
          cases hport
          exact (by decide : (-0x80000000 : ℤ) ≤ 0 ∧ (0 : ℤ) < 0x80000000)
        | some text =>
          rw [hp] at hport
          exact atoi_some hport
    · cases hparse

theorem not_mem_hostname (hs : HostShape h) (hc : hostnameValid c = false) : c ∉ h.hostname := by
  intro hmem
  have := List.all_eq_true.mp hs.valid c hmem
  rw [hc] at this
  cases this

theorem not_mem_port {portText : List UInt8} {p : ℤ} (hport : portText = [] ∨ portText = decText p) {c : UInt8}
    (hc : isdigit c = false) (hminus : c ≠ 0x2D) (hcolon : c ≠ 0x3A) :
    c ∉ if portText = [] then [] else 0x3A :: portText := by
  rcases hport with rfl | rfl
  · simp
  · rw [if_neg (decText_ne_nil p)]
    simp [hcolon, not_mem_decText hc hminus]

theorem slash_not_mem_hostText (hs : HostShape h)
    (hport : portText = [] ∨ portText = decText h.port) : (0x2F : UInt8) ∉ hostText h.auth h.hostname portText := by
  have h1 : (0x2F : UInt8) ∉ h.hostname := not_mem_hostname hs (by decide)
  have h2 := @not_mem_port _ _ hport 0x2F (by decide) (by decide) (by decide)
  rw [hostText]
  cases ha : h.auth with
  | none =>
    rw [Option.elim_none, List.nil_append]
    exact fun hmem => (List.mem_append.mp hmem).elim h1 h2
  | some a =>
    have h3 := hs.noSlash a ha
    intro hmem
    rcases List.mem_append.mp hmem with hmem | hmem
    · rcases List.mem_append.mp hmem with hmem | hmem
      · exact h3 hmem
      · exact absurd (List.mem_singleton.mp hmem) (by decide)
    · exact (List.mem_append.mp hmem).elim h1 h2

/-- **The host is taken apart as it was put together.** -/
theorem parseHostinfo_hostText (hs : HostShape h)
    (hport : portText = [] ∨ portText = decText h.port) :
    parseHostinfo (hostText h.auth h.hostname portText) =
      .ok ⟨h.auth, h.hostname, if portText = [] then 0 else h.port⟩ := by
  have hauth : splitAuth (hostText h.auth h.hostname portText) =
      (h.auth, h.hostname ++ if portText = [] then [] else 0x3A :: portText) := by
    rw [splitAuth, hostText]
    cases ha : h.auth with
    | none =>
      have hat : (0x40 : UInt8) ∉ h.hostname ++ if portText = [] then [] else 0x3A :: portText := by
        intro hmem
        exact (List.mem_append.mp hmem).elim (not_mem_hostname hs (by decide))
          (not_mem_port hport (by decide) (by decide) (by decide))
      simp only [Option.elim_none, List.nil_append]
      rw [strchr_eq_none hat]
    | some a =>
      simp only [Option.elim_some, List.append_assoc, List.singleton_append]
      rw [strchr_append (hs.noAt a ha)]
  have hcolon : (0x3A : UInt8) ∉ h.hostname := not_mem_hostname hs (by decide)
  have hsplit : splitPort (h.hostname ++ if portText = [] then [] else 0x3A :: portText) =
      (h.hostname, if portText = [] then none else some portText) := by
    rw [splitPort]
    split_ifs
    · rw [List.append_nil, strchr_eq_none hcolon]
    · rw [strchr_append hcolon]
  rw [parseHostinfo, hauth]
  dsimp only
  rw [hsplit]
  dsimp only
  rw [if_pos hs.valid, hs.lower]
  rcases hport with rfl | rfl
  · rfl
  · rw [if_neg (decText_ne_nil _), if_neg (decText_ne_nil _), Option.elim_some, atoi_decText hs.range.1 hs.range.2]

/-! ## The path -/

theorem splitFile_append (path : List UInt8) : (splitFile path).1 ++ (splitFile path).2.getD [] = path := by
  rw [splitFile]
  split_ifs with h
  · have hsuffix : (path.reverse.takeWhile (· ≠ 0x2F)).reverse <:+ path := by
      rw [← List.reverse_prefix, List.reverse_reverse]
      exact List.takeWhile_prefix _
    obtain ⟨A, hA⟩ := hsuffix
    have hlen := congrArg List.length hA
    rw [List.length_append] at hlen
    have htake : path.take (path.length - (path.reverse.takeWhile (· ≠ 0x2F)).reverse.length) = A := by
      rw [show path.length - (path.reverse.takeWhile (· ≠ 0x2F)).reverse.length = A.length by omega]
      conv_lhs => rw [← hA, List.take_left]
    simp only [Option.getD_some]
    rw [htake, hA]
  · simp

theorem getD_udmURLQueryStringAppend (filename query : Option (List UInt8)) :
    (udmURLQueryStringAppend filename query).getD [] =
      filename.getD [] ++ query.elim [] fun q => 0x3F :: udmURLQueryStringCanonize q := by
  cases query with
  | none => exact (List.append_nil _).symm
  | some q => rfl

theorem queryEncType_canonize (q : List UInt8) : ∀ c ∈ udmURLQueryStringCanonize q, queryEncType c = 0 := by
  have hdigit : ∀ x < 16, queryEncType (hexd x) = 0 := by decide
  intro c hc
  obtain ⟨b, -, hb⟩ := List.mem_flatMap.mp hc
  have hlt := b.toNat_lt
  split_ifs at hb with henc
  · simp only [List.mem_cons, List.not_mem_nil, or_false] at hb
    rcases hb with rfl | rfl | rfl
    · decide
    · exact hdigit _ (by omega)
    · exact hdigit _ (Nat.mod_lt _ (by omega))
  · rw [List.mem_singleton.mp hb]
    exact not_not.mp henc

theorem udmURLQueryStringCanonize_eq_self (h : ∀ c ∈ q, queryEncType c = 0) : udmURLQueryStringCanonize q = q := by
  induction q with
  | nil => rfl
  | cons c q ih =>
    obtain ⟨hc, hq⟩ := List.forall_mem_cons.mp h
    have hrest := ih hq
    rw [udmURLQueryStringCanonize] at hrest ⊢
    rw [List.flatMap_cons, hrest, if_neg (not_not.mpr hc)]
    rfl

theorem udmURLQueryStringCanonize_ne_nil (h : q ≠ []) : udmURLQueryStringCanonize q ≠ [] := by
  obtain ⟨c, q, rfl⟩ := List.exists_cons_of_ne_nil h
  rw [udmURLQueryStringCanonize, List.flatMap_cons]
  split_ifs <;> simp

theorem anchor_not_mem_canonize (h : (0x23 : UInt8) ∉ q) : (0x23 : UInt8) ∉ udmURLQueryStringCanonize q := by
  have hdigit : ∀ x < 16, hexd x ≠ 0x23 := by decide
  intro hmem
  obtain ⟨b, hb, hmem⟩ := List.mem_flatMap.mp hmem
  have hlt := b.toNat_lt
  split_ifs at hmem with henc
  · simp only [List.mem_cons, List.not_mem_nil, or_false] at hmem
    rcases hmem with hmem | hmem | hmem
    · exact absurd hmem (by decide)
    · exact hdigit _ (by omega) hmem.symm
    · exact hdigit _ (Nat.mod_lt _ (by omega)) hmem.symm
  · exact h (List.mem_singleton.mp hmem ▸ hb)

theorem queryOf_some (h : queryOf path = some q) : q ≠ [] ∧ ∀ c, c ∉ path → c ∉ q := by
  rw [queryOf] at h
  split at h
  · rename_i A B heq
    split_ifs at h with hB
    cases h
    obtain ⟨rfl, -⟩ := strchr_some heq
    exact ⟨hB, fun c hc hmem => hc (List.mem_append_right _ (List.mem_cons_of_mem _ hmem))⟩
  · cases h

theorem canonical_canonizedPath (path : List UInt8) : Canonical (canonizedPath path) := by
  have hquery : (0x3F : UInt8) ∉ (cutAnchor path).takeWhile (· ≠ 0x3F) := fun hmem => by
    simpa using List.mem_takeWhile_imp hmem
  exact canonical_canonizePathFrom hquery 0 _

theorem rooted_canonizedPath (h : path.head? = some 0x2F) : Rooted (canonizedPath path) := by
  obtain ⟨rest, rfl⟩ := List.head?_eq_some_iff.mp h
  refine ⟨?_, canonical_iff.mp (canonical_canonizedPath _)⟩
  rw [canonizedPath, cutAnchor, List.takeWhile_cons_of_pos (by decide), List.takeWhile_cons_of_pos (by decide),
    udmURLCanonizePath, canonizePathFrom, if_neg (by omega)]
  have hesc : ∀ s, escapeAt (0x2F :: s) = none := fun s => rfl
  rw [hesc]
  rfl

theorem udmURLNormalizePath_eq (h : (0x3F : UInt8) ∉ s) : udmURLNormalizePath s = normalizePath s := by
  have hdrop : s.dropWhile (· ≠ 0x3F) = [] :=
    List.dropWhile_eq_nil_iff.mpr fun b hb => by simpa using fun hbc : b = 0x3F => h (hbc ▸ hb)
  rw [udmURLNormalizePath, takeWhile_eq_self h, hdrop]
  cases normalizePath s <;> rfl

theorem parsePath_absolute
    (h : ¬ (((cutAnchor path).takeWhile (· ≠ 0x3F)).head? ≠ some 0x2F ∧ (cutAnchor path).takeWhile (· ≠ 0x3F) ≠ [] ∧
      ((cutAnchor path).takeWhile (· ≠ 0x3F))[1]? ≠ some 0x3A)) (url : UdmUrl) :
    parsePath url path =
      match normalizePath (canonizedPath path) with
      | none => .error .undefined
      | some p =>
        .ok { url with
          path := (splitFile p).1
          filename := udmURLQueryStringAppend (splitFile p).2 (queryOf (cutAnchor path)) } := by
  have hnormalize := udmURLNormalizePath_eq (canonical_canonizedPath path).no_query
  rw [parsePath]
  dsimp only
  rw [if_neg h]
  cases hpath : normalizePath (canonizedPath path) with
  | none => simp only [hnormalize, hpath]
  | some p => simp only [hnormalize, hpath]

theorem parsePath_rooted (h : path.head? = some 0x2F) (url : UdmUrl) :
    parsePath url path =
      match normalizePath (canonizedPath path) with
      | none => .error .undefined
      | some p =>
        .ok { url with
          path := (splitFile p).1
          filename := udmURLQueryStringAppend (splitFile p).2 (queryOf (cutAnchor path)) } := by
  refine parsePath_absolute (fun hrel => hrel.1 ?_) url
  obtain ⟨rest, rfl⟩ := List.head?_eq_some_iff.mp h
  rw [cutAnchor, List.takeWhile_cons_of_pos (by decide), List.takeWhile_cons_of_pos (by decide)]
  rfl

theorem pathText_eq (p : List UInt8) (query : Option (List UInt8)) :
    (splitFile p).1 ++ (udmURLQueryStringAppend (splitFile p).2 query).getD [] =
      p ++ query.elim [] fun q => 0x3F :: udmURLQueryStringCanonize q := by
  rw [getD_udmURLQueryStringAppend, ← List.append_assoc, splitFile_append]

theorem queryOf_cutAnchor {path q : List UInt8} (hq : queryOf (cutAnchor path) = some q) : q ≠ [] ∧ (0x23 : UInt8) ∉ q := by
  have hcut : (0x23 : UInt8) ∉ cutAnchor path := fun hmem => by simpa using List.mem_takeWhile_imp hmem
  exact ⟨(queryOf_some hq).1, (queryOf_some hq).2 _ hcut⟩

/-- **The path and the query string are told apart again**, and there is no anchor. -/
theorem pathText_parts {p : List UInt8} (hquery : (0x3F : UInt8) ∉ p) (hanchor : (0x23 : UInt8) ∉ p)
    {query : Option (List UInt8)} (hq : ∀ q ∈ query, q ≠ [] ∧ (0x23 : UInt8) ∉ q) :
    cutAnchor (p ++ query.elim [] fun q => 0x3F :: udmURLQueryStringCanonize q) =
        p ++ query.elim [] (fun q => 0x3F :: udmURLQueryStringCanonize q) ∧
      (p ++ query.elim [] fun q => 0x3F :: udmURLQueryStringCanonize q).takeWhile (· ≠ 0x3F) = p ∧
      ∀ file, udmURLQueryStringAppend file (queryOf (p ++ query.elim [] fun q => 0x3F :: udmURLQueryStringCanonize q)) =
        udmURLQueryStringAppend file query := by
  refine ⟨?_, ?_, fun file => ?_⟩
  · refine takeWhile_eq_self fun hmem => (List.mem_append.mp hmem).elim hanchor fun hmem => ?_
    cases query with
    | none => simp at hmem
    | some q =>
      rcases List.mem_cons.mp hmem with hmem | hmem
      · exact absurd hmem (by decide)
      · exact anchor_not_mem_canonize (hq q rfl).2 hmem
  · cases query with
    | none => rw [Option.elim_none, List.append_nil, takeWhile_eq_self hquery]
    | some q =>
      have hne : ∀ b ∈ p, decide (b ≠ 0x3F) = true := fun b hb => by simpa using fun hbc : b = 0x3F => hquery (hbc ▸ hb)
      rw [Option.elim_some, List.takeWhile_append_of_pos hne, List.takeWhile_cons_of_neg (by decide), List.append_nil]
  · cases query with
    | none => rw [Option.elim_none, List.append_nil, queryOf, strchr_eq_none hquery]
    | some q =>
      rw [Option.elim_some, queryOf, strchr_append hquery]
      dsimp only
      rw [if_neg (udmURLQueryStringCanonize_ne_nil (hq q rfl).1), udmURLQueryStringAppend,
        udmURLQueryStringCanonize_eq_self (queryEncType_canonize q)]
      rfl

/-- **A path that the passes leave alone is taken apart as it was put together.** -/
theorem parsePath_pathText {p : List UInt8} (hcanonical : Canonical p) (hsame : normalizePath p = some p)
    (habsolute : ¬ (p.head? ≠ some 0x2F ∧ p ≠ [] ∧ p[1]? ≠ some 0x3A)) {query : Option (List UInt8)}
    (hq : ∀ q ∈ query, q ≠ [] ∧ (0x23 : UInt8) ∉ q) (url : UdmUrl) :
    parsePath url (p ++ query.elim [] fun q => 0x3F :: udmURLQueryStringCanonize q) =
      .ok { url with path := (splitFile p).1, filename := udmURLQueryStringAppend (splitFile p).2 query } := by
  obtain ⟨hnoanchor, hname, happend⟩ := pathText_parts hcanonical.no_query hcanonical.no_anchor hq
  have hagain : canonizedPath (p ++ query.elim [] fun q => 0x3F :: udmURLQueryStringCanonize q) = p := by
    rw [canonizedPath, hnoanchor, hname, udmURLCanonizePath]
    refine canonizePathFrom_eq_self hcanonical ?_
    rw [List.length_append]
    omega
  rw [parsePath_absolute (by rwa [hnoanchor, hname]), hagain, hsame, hnoanchor]
  dsimp only
  rw [happend]

theorem Normal.pathText {p : List UInt8} (h : Normal p) (query : Option (List UInt8)) :
    (p ++ query.elim [] fun q => 0x3F :: udmURLQueryStringCanonize q).head? = some 0x2F ∧
      (p ++ query.elim [] fun q => 0x3F :: udmURLQueryStringCanonize q).take 2 ≠ [0x2F, 0x2F] := by
  obtain ⟨rest, rfl⟩ := List.head?_eq_some_iff.mp h.root
  refine ⟨rfl, fun hslashes => ?_⟩
  rcases rest with _ | ⟨c, rest⟩
  · cases query with
    | none => exact absurd hslashes (by decide)
    | some q => simp at hslashes
  · have hc : c = 0x2F := by simpa using hslashes
    exact h.noEmpty (mem_inner_iff.mpr ⟨by simp, [], rest, by rw [hc]; rfl⟩)

/-- **The path and the query string are taken apart as they were put together.** -/
theorem parsePath_canonical (h : path.head? = some 0x2F) {url u : UdmUrl}
    (hu : parsePath url path = .ok u) :
    (u.path ++ u.filename.getD []).head? = some 0x2F ∧ (u.path ++ u.filename.getD []).take 2 ≠ [0x2F, 0x2F] ∧
      ∀ url', parsePath url' (u.path ++ u.filename.getD []) = .ok { url' with path := u.path, filename := u.filename } := by
  rw [parsePath_rooted h] at hu
  cases hp : normalizePath (canonizedPath path) with
  | none =>
    rw [hp] at hu
    cases hu
  | some p =>
    rw [hp] at hu
    cases hu
    have hnormal := normalizePath_spec (rooted_canonizedPath h) hp
    obtain ⟨hroot, hslashes⟩ := hnormal.pathText (queryOf (cutAnchor path))
    dsimp only
    rw [pathText_eq]
    exact ⟨hroot, hslashes, parsePath_pathText (canonical_iff.mpr hnormal.canonical) (normalizePath_eq_self hnormal)
      (fun hrel => hrel.1 hnormal.root) fun q hq => queryOf_cutAnchor hq⟩

theorem parsePath_eq_undefined_iff (h : path.head? = some 0x2F) (url : UdmUrl) :
    parsePath url path = .error .undefined ↔ removeDotDots (canonizedPath path) = [0x2F, 0x2E, 0x2E] := by
  rw [parsePath_rooted h, ← removeTrailingDotDot_eq_none_iff, normalizePath]
  cases removeTrailingDotDot (removeDotDots (canonizedPath path)) <;> simp

/-! ## The whole URL -/

/-- The port of a host, where it is an `int`. -/
def portOf (hostinfo : List UInt8) : Option ℤ := (splitPort (splitAuth hostinfo).2).2.elim (some 0) atoi

/-- The behaviour of the code is defined: the port is an `int`, the path does not come down to `/..`, and the text of
the port has at most nine characters where it is written. -/
def WellBehaved (schema hostinfo path : List UInt8) : Prop :=
  ∃ port, portOf hostinfo = some port ∧ removeDotDots (canonizedPath path) ≠ [0x2F, 0x2E, 0x2E] ∧
    (schema = bytes "mailto" ∨ schema = bytes "javascript" ∨ schema = bytes "htdb" ∨ port = 0 ∨
      port = getDefaultPort schema ∨ (decText port).length < 10)

section Whole

variable {name specific hostinfo : List UInt8}

/-- A URL of a schema and a host. -/
def urlOf (name specific : List UInt8) : List UInt8 := name ++ 0x3A :: 0x2F :: 0x2F :: specific

theorem udmURLParse_urlOf (hname : isSchema name = true) :
    udmURLParse (urlOf name specific) =
      match parseHostinfo (splitHost specific).1 with
      | .error e => .error e
      | .ok host =>
        parsePath ⟨some (name.map tolower), 0x2F :: 0x2F :: specific, host.auth, some host.hostname, [], none, host.port,
          getDefaultPort (name.map tolower)⟩ (splitHost specific).2 := by
  have hsplit : splitSchema (urlOf name specific) = some (name, 0x2F :: 0x2F :: specific) := by
    rw [splitSchema, urlOf, strchr_append (not_mem_of_isSchema hname), Option.filter_some, if_pos hname]
  rw [udmURLParse, hsplit]
  rfl

theorem splitHost_spec (specific : List UInt8) :
    (0x2F : UInt8) ∉ (splitHost specific).1 ∧ (splitHost specific).2.head? = some 0x2F := by
  rw [splitHost]
  split
  · rename_i heq
    exact ⟨(strchr_some heq).2, rfl⟩
  · rename_i heq
    refine ⟨fun hmem => ?_, rfl⟩
    rw [strchr, if_pos hmem] at heq
    cases heq

theorem splitHost_append (hslash : (0x2F : UInt8) ∉ hostinfo) (hpath : path.head? = some 0x2F) :
    splitHost (hostinfo ++ path) = (hostinfo, path) := by
  obtain ⟨rest, rfl⟩ := List.head?_eq_some_iff.mp hpath
  rw [splitHost, strchr_append hslash]

theorem parseHostinfo_eq_undefined_iff (hbad : parseHostinfo hostinfo ≠ .error .bad) :
    parseHostinfo hostinfo = .error .undefined ↔ portOf hostinfo = none := by
  rw [parseHostinfo, portOf] at *
  split_ifs at hbad ⊢ with hvalid
  · cases (splitPort (splitAuth hostinfo).2).2.elim (some 0) atoi <;> simp
  · exact absurd rfl hbad

theorem port_of_parseHostinfo (hparse : parseHostinfo hostinfo = .ok h) : portOf hostinfo = some h.port := by
  rw [parseHostinfo] at hparse
  rw [portOf]
  split_ifs at hparse
  split at hparse
  · rename_i port hport
    cases hparse
    exact hport
  · cases hparse

/-- What is written for a URL. -/
def writeUrl (url : UdmUrl) (schema : List UInt8) : Option (List UInt8) :=
  if schema = bytes "mailto" ∨ schema = bytes "javascript" then some (schema ++ 0x3A :: url.specific)
  else if schema = bytes "htdb" then some (schema ++ 0x3A :: (url.path ++ url.filename.getD []))
  else if 10 ≤ url.portText.length then none
  else some (urlOf schema (hostText url.auth (url.hostname.getD []) url.portText ++ (url.path ++ url.filename.getD [])))

theorem udmURLCanonize_of_parse {src : List UInt8} {url : UdmUrl} {schema : List UInt8}
    (hparse : udmURLParse src = .ok url) (hschema : url.schema = some schema) :
    udmURLCanonize src = writeUrl url schema := by
  rw [udmURLCanonize, hparse]
  dsimp only
  rw [hschema]
  dsimp only
  rw [writeUrl]
  split_ifs with _ _ _ hport
  · rfl
  · rfl
  · rfl
  · simp [urlOf, hostText, hport]
  · simp [urlOf, hostText, hport]

theorem portText_cases (url : UdmUrl) : url.portText = [] ∨ url.portText = decText url.port := by
  rw [UdmUrl.portText]
  split_ifs
  · exact Or.inr rfl
  · exact Or.inl rfl

theorem portText_again (url : UdmUrl) :
    { url with port := if url.portText = [] then 0 else url.port }.portText = url.portText := by
  by_cases hshown : url.port ≠ 0 ∧ url.port ≠ url.defaultPort
  · have htext : url.portText = decText url.port := if_pos hshown
    rw [UdmUrl.portText]
    dsimp only
    rw [htext, if_neg (decText_ne_nil _), if_pos hshown]
  · have htext : url.portText = [] := if_neg hshown
    rw [UdmUrl.portText]
    dsimp only
    rw [htext, if_pos rfl, if_neg fun h => h.1 rfl]

/-- **What is written is read back, and written once more.** -/
theorem canonize_writeUrl {schema : List UInt8} (hname : isSchema schema = true) (hlower : schema.map tolower = schema)
    {host : UrlHost} (hhost : parseHostinfo (splitHost specific).1 = .ok host) {url u : UdmUrl}
    (hurl : url = ⟨some schema, 0x2F :: 0x2F :: specific, host.auth, some host.hostname, [], none, host.port,
      getDefaultPort schema⟩) (hu : parsePath url (splitHost specific).2 = .ok u) {dst : List UInt8}
    (hdst : writeUrl u schema = some dst) : udmURLCanonize dst = some dst := by
  obtain ⟨hslash, hpath⟩ := splitHost_spec specific
  have hshape := hostShape_of_parseHostinfo hslash hhost
  obtain ⟨hroot, hslashes, hagain⟩ := parsePath_canonical hpath hu
  have hfields : u = { url with path := u.path, filename := u.filename } := by
    rw [parsePath_rooted hpath] at hu
    split at hu
    · cases hu
    · cases hu
      rfl
  rw [hurl] at hfields
  rw [writeUrl] at hdst
  by_cases hmail : schema = bytes "mailto" ∨ schema = bytes "javascript"
  · -- what is behind the schema is copied
    rw [if_pos hmail, hfields] at hdst
    cases hdst
    have hparse : udmURLParse (urlOf schema specific) = .ok u := by
      rw [udmURLParse_urlOf hname, hhost, hlower]
      dsimp only
      rw [← hurl, hu]
    rw [← urlOf, udmURLCanonize_of_parse hparse (by rw [hfields]), writeUrl, if_pos hmail, hfields]
    rfl
  · rw [if_neg hmail] at hdst
    by_cases hhtdb : schema = bytes "htdb"
    · -- the host is dropped, and the path is behind the schema
      rw [if_pos hhtdb] at hdst
      cases hdst
      have hsplit : splitSchema (schema ++ 0x3A :: (u.path ++ u.filename.getD [])) =
          some (schema, u.path ++ u.filename.getD []) := by
        rw [splitSchema, strchr_append (not_mem_of_isSchema hname), Option.filter_some, if_pos hname]
      have hparse : udmURLParse (schema ++ 0x3A :: (u.path ++ u.filename.getD [])) =
          .ok ⟨some schema, u.path ++ u.filename.getD [], none, none, u.path, u.filename, 0, getDefaultPort schema⟩ := by
        rw [udmURLParse, hsplit]
        dsimp only
        rw [if_neg hslashes, hlower, hagain, hhtdb]
        rfl
      rw [udmURLCanonize_of_parse hparse rfl, writeUrl, if_neg hmail, if_pos hhtdb]
    · rw [if_neg hhtdb] at hdst
      split_ifs at hdst with hlong
      cases hdst
      have hschema : u.schema = some schema := by rw [hfields]
      have hauth : u.auth = host.auth := by rw [hfields]
      have hhostname : u.hostname = some host.hostname := by rw [hfields]
      have hport : u.port = host.port := by rw [hfields]
      have hdefault : u.defaultPort = getDefaultPort schema := by rw [hfields]
      have htext := portText_cases u
      rw [hport] at htext
      rw [hauth, hhostname, Option.getD_some]
      generalize hbehind : hostText host.auth host.hostname u.portText ++ (u.path ++ u.filename.getD []) = behind
      have hparse : udmURLParse (urlOf schema behind) =
          .ok { u with
            specific := 0x2F :: 0x2F :: behind
            port := if u.portText = [] then 0 else u.port } := by
        rw [udmURLParse_urlOf hname, ← hbehind, splitHost_append (slash_not_mem_hostText hshape htext) hroot]
        dsimp only
        rw [parseHostinfo_hostText hshape htext]
        dsimp only
        rw [hagain, hlower, hschema, hauth, hhostname, hport, hdefault]
      have hsame := portText_again { u with specific := 0x2F :: 0x2F :: behind }
      have hsame' : ({ u with specific := 0x2F :: 0x2F :: behind, port := if u.portText = [] then 0 else u.port } :
          UdmUrl).portText = u.portText := hsame
      rw [udmURLCanonize_of_parse hparse hschema, writeUrl, if_neg hmail, if_neg hhtdb, hsame', if_neg hlong]
      dsimp only
      rw [hauth, hhostname, Option.getD_some, hbehind]

theorem le_length_portText_iff (url : UdmUrl) :
    10 ≤ url.portText.length ↔ ¬ (url.port = 0 ∨ url.port = url.defaultPort ∨ (decText url.port).length < 10) := by
  rw [UdmUrl.portText, not_or, not_or, Nat.not_lt, ← and_assoc]
  split_ifs with hshown
  · exact (and_iff_right hshown).symm
  · exact iff_of_false (by decide) fun h => hshown h.1

theorem writeUrl_eq_none_iff {url : UdmUrl} {schema : List UInt8} :
    writeUrl url schema = none ↔ ¬ (schema = bytes "mailto" ∨ schema = bytes "javascript" ∨ schema = bytes "htdb" ∨
      url.port = 0 ∨ url.port = url.defaultPort ∨ (decText url.port).length < 10) := by
  rw [writeUrl, ← or_assoc, not_or, @not_or (schema = bytes "htdb"), ← le_length_portText_iff]
  split_ifs with hmail hhtdb hlong
  · exact iff_of_false not_false fun h => h.1 hmail
  · exact iff_of_false not_false fun h => h.2.1 hhtdb
  · exact iff_of_true rfl ⟨hmail, hhtdb, hlong⟩
  · exact iff_of_false not_false fun h => hlong h.2.2

/-- **A URL with a host comes out the same the second time exactly when the behaviour of the code is defined.** -/
theorem idempotent_iff (hname : isSchema name = true) (haccept : udmURLParse (urlOf name specific) ≠ .error .bad) :
    Idempotent (urlOf name specific) ↔
      WellBehaved (name.map tolower) (splitHost specific).1 (splitHost specific).2 := by
  obtain ⟨hslash, hpath⟩ := splitHost_spec specific
  have hparse := @udmURLParse_urlOf name specific hname
  rw [hparse] at haccept
  cases hhost : parseHostinfo (splitHost specific).1 with
  | error e =>
    rw [hhost] at haccept hparse
    cases e with
    | bad => exact absurd rfl haccept
    | undefined =>
      have hport := (parseHostinfo_eq_undefined_iff (by rw [hhost]; simp)).mp hhost
      refine iff_of_false ?_ ?_
      · rintro ⟨dst, hdst, -⟩
        rw [udmURLCanonize, hparse] at hdst
        cases hdst
      · rintro ⟨port, hsome, -⟩
        rw [hport] at hsome
        cases hsome
  | ok host =>
    rw [hhost] at haccept hparse
    dsimp only at haccept hparse
    have hport := port_of_parseHostinfo hhost
    have hundefined := parsePath_eq_undefined_iff hpath ⟨some (name.map tolower), 0x2F :: 0x2F :: specific, host.auth,
      some host.hostname, [], none, host.port, getDefaultPort (name.map tolower)⟩
    generalize hurl : UdmUrl.mk (some (name.map tolower)) (0x2F :: 0x2F :: specific) host.auth (some host.hostname) [] none
      host.port (getDefaultPort (name.map tolower)) = url at haccept hparse hundefined
    cases hu : parsePath url (splitHost specific).2 with
    | error e =>
      rw [hu] at haccept hparse hundefined
      cases e with
      | bad => exact absurd rfl haccept
      | undefined =>
        refine iff_of_false ?_ ?_
        · rintro ⟨dst, hdst, -⟩
          rw [udmURLCanonize, hparse] at hdst
          cases hdst
        · rintro ⟨-, -, hdots, -⟩
          exact hdots (hundefined.mp rfl)
    | ok u =>
      rw [hu] at hparse hundefined
      have hdots : removeDotDots (canonizedPath (splitHost specific).2) ≠ [0x2F, 0x2E, 0x2E] := fun h =>
        nomatch hundefined.mpr h
      have hfields : u = { url with path := u.path, filename := u.filename } := by
        rw [parsePath_rooted hpath] at hu
        split at hu
        · cases hu
        · cases hu
          rfl
      rw [← hurl] at hfields
      have hcanonize := @udmURLCanonize_of_parse _ _ (name.map tolower) hparse (by rw [hfields])
      have hnone := @writeUrl_eq_none_iff u (name.map tolower)
      rw [show u.port = host.port by rw [hfields], show u.defaultPort = getDefaultPort (name.map tolower) by rw [hfields]]
        at hnone
      have hwell : WellBehaved (name.map tolower) (splitHost specific).1 (splitHost specific).2 ↔
          writeUrl u (name.map tolower) ≠ none := by
        rw [Ne, hnone, not_not]
        constructor
        · rintro ⟨port, hsome, -, h⟩
          rw [hport] at hsome
          cases hsome
          exact h
        · exact fun h => ⟨host.port, hport, hdots, h⟩
      rw [hwell]
      constructor
      · rintro ⟨dst, hdst, -⟩ h
        rw [hcanonize, h] at hdst
        cases hdst
      · intro h
        obtain ⟨dst, hdst⟩ := Option.ne_none_iff_exists'.mp h
        exact ⟨dst, hcanonize.trans hdst, canonize_writeUrl (isSchema_map_tolower hname).1 (map_tolower_map_tolower name)
          hhost hurl.symm hu hdst⟩

end Whole

/-! ## Two URLs -/

/-- `http://h/a/..` comes out the same the second time. -/
theorem idempotent_parent : Idempotent (urlOf (bytes "http") (bytes "h/a/..")) :=
  (idempotent_iff (by decide) (by decide +kernel)).mpr ⟨0, by decide +kernel, by decide +kernel, by decide +kernel⟩

/-- The port of `http://h:1234567890/` has ten characters. -/
theorem not_forall_idempotent :
    ¬ ∀ name specific, isSchema name = true → udmURLParse (urlOf name specific) ≠ .error .bad →
      Idempotent (urlOf name specific) := by
  intro hall
  obtain ⟨dst, hdst, -⟩ := hall (bytes "http") (bytes "h:1234567890/") (by decide) (by decide +kernel)
  have hnone : udmURLCanonize (urlOf (bytes "http") (bytes "h:1234567890/")) = none := by decide +kernel
  rw [hnone] at hdst
  cases hdst

end MnoGoSearch.Url
