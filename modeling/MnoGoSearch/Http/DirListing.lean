import MnoGoSearch.Html.Token
import MnoGoSearch.Sgml.Encode
import MnoGoSearch.Url.NoHost
import MnoGoSearch.Utils.CgiQuery
import Mathlib

/-!
# Directory listings

`UdmFILEGet` (`proto.c`) prints a link for every entry of a directory. Some characters of the name are escaped,
but not a colon: `linksTo_iff` says for which names the link is read as the entry again.
-/

namespace MnoGoSearch.Http

open Url Html
open Utils (unescapeFrom udmUnescapeCGIQuery escapedAt_of_ne unescapeFrom_two ch2x_of_url)

/-! ## The link -/

/-- The characters that are escaped: a blank, and some others that are special in URLs or in HTML. -/
def listingEscaped : List UInt8 :=
  [0x20, 0x25, 0x26, 0x3C, 0x3E, 0x2B, 0x5B, 0x5D, 0x28, 0x29, 0x7B, 0x7D, 0x2F, 0x3F, 0x23, 0x27, 0x22, 0x5C, 0x3B,
    0x2C, 0x60]

/-- `sprintf(e, "%%%X", (int) *src)`, for a character that is not negative. -/
def percentX (c : UInt8) : List UInt8 :=
  0x25 :: if c.toNat < 16 then [hexd c.toNat] else [hexd (c.toNat / 16), hexd (c.toNat % 16)]

/-- A character of the name. -/
def listingChar (c : UInt8) : List UInt8 := if c ∈ listingEscaped then percentX c else [c]

/-- `escaped_name`. -/
def escapedName (name : List UInt8) : List UInt8 := name.flatMap listingChar

/-- A directory has a slash at its end. -/
def dirMark (isDir : Bool) : List UInt8 := if isDir then [0x2F] else []

/-- The value of `HREF`. -/
def entryHref (name : List UInt8) (isDir : Bool) : List UInt8 := escapedName name ++ dirMark isDir

/-- What is printed for an entry. -/
def entryLink (name : List UInt8) (isDir : Bool) : List UInt8 :=
  bytes "<A HREF=\"" ++ entryHref name isDir ++ bytes "\">\n"

/-! ## Reading it -/

/-- The bytes of a document, as the tokenizer has them. -/
def charsOf (s : List UInt8) : List Char := s.map fun c => Char.ofNat c.toNat

/-- The bytes of a part of a token. -/
def bytesOf (s : List Char) : List UInt8 := s.map fun c => c.toNat.toUInt8

/-- The value of `href` in the token that a document begins with. -/
def readHref (t : UdmHtmlTok) (doc : List UInt8) : Option (List UInt8) :=
  match udmHTMLToken (some (charsOf doc)) none t with
  | some (.token _ _ t) =>
    ((t.toks.take t.ntoks).find? fun attr => strcaseeq (bytesOf attr.name) (bytes "href")).bind fun attr =>
      attr.val.map bytesOf
  | _ => none

/-- The link, wherever it stands in a document, is a relative reference, and its file name is the name of the entry. -/
def LinksTo (name : List UInt8) (isDir : Bool) : Prop :=
  ∀ (t : UdmHtmlTok) (rest : List UInt8), ∃ href url u, readHref t (entryLink name isDir ++ rest) = some href ∧
    Sgml.udmSGMLUnescape href = some url ∧ udmURLParse url = .ok u ∧ u.schema = none ∧
      u.filename.map udmUnescapeCGIQuery = some (name ++ dirMark isDir)

/-- What is in front of the first colon of the name is taken for a schema, or for a drive. -/
def Mistaken (name : List UInt8) : Prop :=
  ∃ front behind, name = front ++ 0x3A :: behind ∧ 0x3A ∉ front ∧
    ((∀ c ∈ front, isalnum c = true ∨ c = 0x2D ∨ c = 0x2E) ∨ ∃ c, front = [c] ∧ c ∉ listingEscaped)

/-! ## Characters -/

variable {c : UInt8} {front s name : List UInt8} {isDir : Bool} {u : UdmUrl}

theorem listingChar_of_mem (h : c ∈ listingEscaped) :
    listingChar c = [0x25, hexd (c.toNat / 16), hexd (c.toNat % 16)] := by
  have hall : ∀ c ∈ listingEscaped, listingChar c = [0x25, hexd (c.toNat / 16), hexd (c.toNat % 16)] := by
    decide +kernel
  exact hall c h

theorem listingChar_of_notMem (h : c ∉ listingEscaped) : listingChar c = [c] := if_neg h

theorem escapedName_cons (c : UInt8) (name : List UInt8) :
    escapedName (c :: name) = listingChar c ++ escapedName name := rfl

theorem escapedName_append (name name' : List UInt8) :
    escapedName (name ++ name') = escapedName name ++ escapedName name' := List.flatMap_append

theorem mem_escapedName (h : c ∈ escapedName name) :
    c ∈ name ∧ c ∉ listingEscaped ∨ c = 0x25 ∨ ∃ x < 16, c = hexd x := by
  obtain ⟨a, ha, hc⟩ := List.mem_flatMap.1 h
  by_cases hmem : a ∈ listingEscaped
  · rw [listingChar_of_mem hmem] at hc
    have hlt := a.toNat_lt
    simp only [List.mem_cons, List.not_mem_nil, or_false] at hc
    rcases hc with rfl | rfl | rfl
    · exact .inr (.inl rfl)
    · exact .inr (.inr ⟨_, by omega, rfl⟩)
    · exact .inr (.inr ⟨_, by omega, rfl⟩)
  · rw [listingChar_of_notMem hmem, List.mem_singleton] at hc
    subst hc
    exact .inl ⟨ha, hmem⟩

theorem notMem_escapedName (hc : c ∈ listingEscaped) (hne : c ≠ 0x25) (name : List UInt8) : c ∉ escapedName name := by
  intro h
  rcases mem_escapedName h with ⟨-, hno⟩ | rfl | ⟨x, hx, rfl⟩
  · exact hno hc
  · exact hne rfl
  · have hdigit : ∀ x < 16, hexd x ∉ listingEscaped := by decide
    exact hdigit x hx hc

theorem colon_notMem_escapedName (h : 0x3A ∉ name) : (0x3A : UInt8) ∉ escapedName name := by
  intro hmem
  rcases mem_escapedName hmem with ⟨hname, -⟩ | heq | ⟨x, hx, heq⟩
  · exact h hname
  · exact absurd heq (by decide)
  · have hdigit : ∀ x < 16, hexd x ≠ 0x3A := by decide
    exact hdigit x hx heq.symm

/-- **The escapes are read**, whatever is behind the name. -/
theorem unescapeFrom_escapedName (name s : List UInt8) :
    unescapeFrom (escapedName name ++ s) 0 = name ++ unescapeFrom s 0 := by
  induction name with
  | nil => rfl
  | cons c name ih =>
    rw [escapedName_cons, List.append_assoc, List.cons_append, ← ih]
    by_cases h : c ∈ listingEscaped
    · have hlt := c.toNat_lt
      have hhi := ch2x_of_url (ch2x_hexd (x := c.toNat / 16) (by omega))
      have hlo := ch2x_of_url (ch2x_hexd (x := c.toNat % 16) (by omega))
      have hbyte : c.toNat / 16 * 16 + c.toNat % 16 = c.toNat := by omega
      rw [listingChar_of_mem h]
      simp only [List.cons_append, List.nil_append]
      rw [unescapeFrom, Utils.escapedAt, hhi, hlo]
      dsimp only
      rw [hbyte, UInt8.ofNat_toNat, unescapeFrom_two]
    · have hpercent : c ≠ 0x25 := by
        rintro rfl
        exact h (by decide)
      have hplus : c ≠ 0x2B := by
        rintro rfl
        exact h (by decide)
      rw [listingChar_of_notMem h, List.singleton_append, unescapeFrom, escapedAt_of_ne _ hpercent]
      dsimp only
      rw [if_neg hplus]

theorem udmUnescapeCGIQuery_entryHref (name : List UInt8) (isDir : Bool) :
    udmUnescapeCGIQuery (entryHref name isDir) = name ++ dirMark isDir := by
  rw [udmUnescapeCGIQuery, entryHref, unescapeFrom_escapedName]
  cases isDir <;> rfl

/-! ## The token -/

theorem bytesOf_charsOf (s : List UInt8) : bytesOf (charsOf s) = s := by
  have hone (c : UInt8) : (Char.ofNat c.toNat).toNat.toUInt8 = c :=
    @forall_byte (fun c => (Char.ofNat c.toNat).toNat.toUInt8 = c) (by decide +kernel) c
  rw [bytesOf, charsOf, List.map_map]
  exact List.map_congr_left (fun c _ => hone c) |>.trans s.map_id

theorem charsOf_append (s s' : List UInt8) : charsOf (s ++ s') = charsOf s ++ charsOf s' := List.map_append

theorem quote_notMem_charsOf (h : 0x22 ∉ s) : '"' ∉ charsOf s := by
  intro hmem
  obtain ⟨c, hc, heq⟩ := List.mem_map.1 hmem
  have hone : Char.ofNat c.toNat = '"' → c = 0x22 :=
    @forall_byte (fun c => Char.ofNat c.toNat = '"' → c = 0x22) (by decide +kernel) c
  exact h (hone heq ▸ hc)

theorem write_spec (t : UdmHtmlTok) {nt : ℕ} (h : nt ≤ maxTagVal) (attr : TagAttr) :
    ∃ t', t.write nt attr = some t' ∧ t'.ntoks = t.ntoks ∧ t'.toks = t.toks.set nt attr := by
  have hlt : nt < t.toks.length := by
    rw [t.length_toks]
    omega
  exact ⟨_, if_pos hlt, rfl, rfl⟩

theorem toks_setFlags (t : UdmHtmlTok) (b : List Char) : (t.setFlags b).toks = t.toks := by
  unfold UdmHtmlTok.setFlags
  simp only
  split_ifs <;> rfl

theorem tagTurn_a {t : UdmHtmlTok} (ht : t.ntoks = 0) (b : List Char) :
    ∃ t', tagTurn ('A' :: ' ' :: 'H' :: b) t = some (.next ('H' :: b) t') ∧ t'.ntoks = 1 ∧
      t'.toks = t.toks.set 0 ⟨['A'], none⟩ := by
  obtain ⟨t', hwrite, hntoks, htoks⟩ :=
    write_spec { t with ntoks := if t.ntoks < maxTagVal then t.ntoks + 1 else t.ntoks } (Nat.zero_le maxTagVal)
      ⟨['A'], none⟩
  rw [ht] at hwrite hntoks
  refine ⟨t'.setFlags ('A' :: ' ' :: 'H' :: b), ?_, ?_, ?_⟩
  · have hturn : tagTurn ('A' :: ' ' :: 'H' :: b) t =
        (({ t with ntoks := if t.ntoks < maxTagVal then t.ntoks + 1 else t.ntoks } : UdmHtmlTok).write t.ntoks
          ⟨['A'], none⟩).bind fun t' => some (.next ('H' :: b)
            (if t.ntoks = 0 then t'.setFlags ('A' :: ' ' :: 'H' :: b) else t')) := rfl
    rw [hturn, ht, hwrite]
    rfl
  · rw [ntoks_setFlags, hntoks]
    rfl
  · rw [toks_setFlags, htoks]

theorem tagTurn_href {t : UdmHtmlTok} (ht : t.ntoks = 1) {val b : List Char} (hval : '"' ∉ val) :
    ∃ t', tagTurn ('H' :: 'R' :: 'E' :: 'F' :: '=' :: '"' :: (val ++ '"' :: b)) t = some (.next b t') ∧ t'.ntoks = 2 ∧
      t'.toks = (t.toks.set 1 ⟨"HREF".toList, none⟩).set 1 ⟨"HREF".toList, some val⟩ := by
  obtain ⟨t', hwrite, hntoks, htoks⟩ :=
    write_spec { t with ntoks := if t.ntoks < maxTagVal then t.ntoks + 1 else t.ntoks } (show 1 ≤ maxTagVal by decide)
      ⟨"HREF".toList, none⟩
  obtain ⟨t'', hwrite', hntoks', htoks'⟩ := write_spec t' (show 1 ≤ maxTagVal by decide) ⟨"HREF".toList, some val⟩
  rw [ht] at hwrite hntoks
  have hall : ∀ c ∈ val, (c != '"') = true := fun c hc => by
    simpa using fun heq : c = '"' => hval (heq ▸ hc)
  have hquoted : tagValue ('"' :: (val ++ '"' :: b)) = (val, b) := by
    rw [tagValue, List.takeWhile_append_of_pos hall, List.dropWhile_append_of_pos hall]
    simp
  have hafter (t : UdmHtmlTok) :
      tagAfterName 1 "HREF".toList t ('=' :: '"' :: (val ++ '"' :: b)) =
        (t.write 1 ⟨"HREF".toList, some val⟩).map (.next b) := by
    have hmatch : tagAfterName 1 "HREF".toList t ('=' :: '"' :: (val ++ '"' :: b)) =
        (t.write 1 ⟨"HREF".toList, some (tagValue ('"' :: (val ++ '"' :: b))).1⟩).map
          (.next (tagValue ('"' :: (val ++ '"' :: b))).2) := rfl
    rw [hmatch, hquoted]
  refine ⟨t'', ?_, ?_, ?_⟩
  · have hturn : tagTurn ('H' :: 'R' :: 'E' :: 'F' :: '=' :: '"' :: (val ++ '"' :: b)) t =
        (({ t with ntoks := if t.ntoks < maxTagVal then t.ntoks + 1 else t.ntoks } : UdmHtmlTok).write t.ntoks
          ⟨"HREF".toList, none⟩).bind fun t' => tagAfterName t.ntoks "HREF".toList
            (if t.ntoks = 0 then t'.setFlags ('H' :: 'R' :: 'E' :: 'F' :: '=' :: '"' :: (val ++ '"' :: b)) else t')
            ('=' :: '"' :: (val ++ '"' :: b)) := rfl
    rw [hturn, ht, hwrite, Option.bind_some, if_neg (by decide), hafter, hwrite']
    rfl
  · rw [hntoks', hntoks]
    rfl
  · rw [htoks', htoks]

theorem tagLoop_cons (fuel : ℕ) (c : Char) (b : List Char) (t : UdmHtmlTok) :
    tagLoop (fuel + 1) (c :: b) t = (tagTurn (c :: b) t).bind fun
      | .done lt t => some (lt, t)
      | .next b t => tagLoop fuel b t := rfl

theorem readHref_entryLink (t : UdmHtmlTok) {href : List UInt8} (h : 0x22 ∉ href) (rest : List UInt8) :
    readHref t (bytes "<A HREF=\"" ++ href ++ bytes "\">\n" ++ rest) = some href := by
  have hquote := quote_notMem_charsOf h
  have hdoc : charsOf (bytes "<A HREF=\"" ++ href ++ bytes "\">\n" ++ rest) =
      '<' :: 'A' :: ' ' :: 'H' :: 'R' :: 'E' :: 'F' :: '=' :: '"' ::
        (charsOf href ++ '"' :: '>' :: '\n' :: charsOf rest) := by
    simp only [charsOf_append, List.append_assoc]
    rfl
  have htype : tokenType (charsOf (bytes "<A HREF=\"" ++ href ++ bytes "\">\n" ++ rest)) = .tag := by
    rw [hdoc]
    rfl
  obtain ⟨t₁, h₁, hntoks₁, htoks₁⟩ := @tagTurn_a { t with ntoks := 0, type := .tag } rfl
    ('R' :: 'E' :: 'F' :: '=' :: '"' :: (charsOf href ++ '"' :: '>' :: '\n' :: charsOf rest))
  obtain ⟨t₂, h₂, hntoks₂, htoks₂⟩ := @tagTurn_href t₁ hntoks₁ (charsOf href) ('>' :: '\n' :: charsOf rest) hquote
  have h₃ : tagTurn ('>' :: '\n' :: charsOf rest) t₂ = some (.done ('\n' :: charsOf rest) t₂) := rfl
  have htoken : udmHTMLToken (some (charsOf (bytes "<A HREF=\"" ++ href ++ bytes "\">\n" ++ rest))) none t =
      some (.token (charsOf (bytes "<A HREF=\"" ++ href ++ bytes "\">\n" ++ rest)) ('\n' :: charsOf rest) t₂) := by
    rw [hdoc] at htype ⊢
    rw [udmHTMLToken]
    simp only [Option.some_or, htype]
    rw [List.length_cons, List.length_cons, List.length_cons, tagLoop_cons, h₁, Option.bind_some]
    dsimp only
    rw [tagLoop_cons, h₂, Option.bind_some]
    dsimp only
    rw [tagLoop_cons, h₃]
    rfl
  have htoks : t₂.toks.take t₂.ntoks = [⟨['A'], none⟩, ⟨"HREF".toList, some (charsOf href)⟩] := by
    obtain ⟨a, b, l, hl⟩ : ∃ a b l, t.toks = a :: b :: l := by
      have hlen := t.length_toks
      rcases hl : t.toks with _ | ⟨a, _ | ⟨b, l⟩⟩
      · rw [hl] at hlen; cases hlen
      · rw [hl] at hlen; cases hlen
      · exact ⟨a, b, l, rfl⟩
    rw [hntoks₂, htoks₂, htoks₁]
    simp only [hl, List.set_cons_zero, List.set_cons_succ]
    rfl
  have hhref : strcaseeq (bytesOf "HREF".toList) (bytes "href") = true := by decide
  have ha : strcaseeq (bytesOf ['A']) (bytes "href") = false := by decide
  rw [readHref, htoken]
  dsimp only
  rw [htoks, List.find?_cons_of_neg (by simp [ha]), List.find?_cons_of_pos (by simpa using hhref)]
  simp only [Option.bind_some, Option.map_some, bytesOf_charsOf]

/-! ## The URL -/

theorem udmSGMLUnescape_eq_self (h : 0x26 ∉ s) : Sgml.udmSGMLUnescape s = some s := by
  rw [Sgml.udmSGMLUnescape]
  induction s with
  | nil => rfl
  | cons c s ih =>
    rw [List.mem_cons, not_or] at h
    rw [Sgml.unescapeLoop, if_neg fun hc => h.1 hc.symm, ih h.2]
    rfl

theorem notMem_dirMark (h : c ≠ 0x2F) (isDir : Bool) : c ∉ dirMark isDir := by
  cases isDir
  · exact List.not_mem_nil
  · simpa [dirMark] using h

theorem notMem_entryHref (hc : c ∈ listingEscaped) (hpercent : c ≠ 0x25) (hslash : c ≠ 0x2F)
    (name : List UInt8) (isDir : Bool) : c ∉ entryHref name isDir := fun h =>
  (List.mem_append.1 h).elim (notMem_escapedName hc hpercent name) (notMem_dirMark hslash isDir)

theorem schema_of_splitSchema {src specific : List UInt8} (h : splitSchema src = some (name, specific))
    (hu : udmURLParse src = .ok u) : u.schema ≠ none := by
  have hpath {url u : UdmUrl} {path : List UInt8} (hu : parsePath url path = .ok u) : u.schema = url.schema := by
    rw [parsePath] at hu
    dsimp only at hu
    split_ifs at hu
    · cases hu
      rfl
    · cases hu
      rfl
    · split at hu
      · cases hu
      · cases hu
        rfl
  rw [udmURLParse, h] at hu
  dsimp only at hu
  split_ifs at hu
  · split at hu
    · cases hu
    · rw [hpath hu]
      exact Option.some_ne_none _
  · rw [hpath hu]
    exact Option.some_ne_none _
  · rw [hpath hu]
    exact Option.some_ne_none _

theorem nameOf_entryHref (name : List UInt8) (isDir : Bool) :
    nameOf (entryHref name isDir) = entryHref name isDir ∧ queryOf (cutAnchor (entryHref name isDir)) = none := by
  have hanchor : cutAnchor (entryHref name isDir) = entryHref name isDir :=
    takeWhile_eq_self (notMem_entryHref (by decide) (by decide) (by decide) name isDir)
  have hquery : (0x3F : UInt8) ∉ entryHref name isDir := notMem_entryHref (by decide) (by decide) (by decide) name isDir
  rw [nameOf, hanchor, queryOf, strchr_eq_none hquery]
  exact ⟨takeWhile_eq_self hquery, rfl⟩

theorem slash_notMem_escapedName (name : List UInt8) : (0x2F : UInt8) ∉ escapedName name :=
  notMem_escapedName (by decide) (by decide) name

theorem listingChar_ne_nil (c : UInt8) : listingChar c ≠ [] := by
  unfold listingChar percentX
  split_ifs <;> simp

theorem eq_of_escapedName_eq (h : escapedName name = [c]) : name = [c] := by
  cases name with
  | nil => cases h
  | cons a name =>
    rw [escapedName_cons] at h
    by_cases ha : a ∈ listingEscaped
    · rw [listingChar_of_mem ha] at h
      cases h
    · rw [listingChar_of_notMem ha, List.singleton_append] at h
      obtain ⟨rfl, hrest⟩ := List.cons.inj h
      cases name with
      | nil => rfl
      | cons b name =>
        rw [escapedName_cons] at hrest
        exact absurd (List.append_eq_nil_iff.1 hrest).1 (listingChar_ne_nil b)

theorem head_entryHref (hne : name ≠ []) (hdot : name ≠ [0x2E]) (isDir : Bool) :
    (entryHref name isDir).head? ≠ some 0x2F ∧ entryHref name isDir ≠ [] ∧
      (entryHref name isDir).take 2 ≠ [0x2E, 0x2F] := by
  have hslash := slash_notMem_escapedName name
  have hnil : escapedName name ≠ [] := by
    obtain ⟨c, name, rfl⟩ := List.exists_cons_of_ne_nil hne
    rw [escapedName_cons]
    exact fun h => listingChar_ne_nil c (List.append_eq_nil_iff.1 h).1
  have hone (c : UInt8) (h : escapedName name = [c]) : name = [c] := eq_of_escapedName_eq h
  rw [entryHref]
  generalize escapedName name = v at hslash hnil hone
  match v, hnil with
  | [c], _ =>
    refine ⟨by simpa [eq_comm] using hslash, by simp, fun h => hdot ?_⟩
    rw [hone c rfl]
    cases isDir <;> simp_all [dirMark]
  | c :: d :: v, _ =>
    simp only [List.mem_cons, not_or] at hslash
    refine ⟨by simpa [eq_comm] using hslash.1, by simp, fun h => ?_⟩
    obtain ⟨-, hd⟩ := List.cons.inj h
    exact hslash.2.1 (List.cons.inj hd).1.symm

theorem parsePath_entryHref (hne : name ≠ []) (hdot : name ≠ [0x2E])
    (hcolon : (entryHref name isDir)[1]? ≠ some 0x3A) (url : UdmUrl) :
    parsePath url (entryHref name isDir) = .ok { url with path := [], filename := some (entryHref name isDir) } := by
  obtain ⟨hname, hquery⟩ := nameOf_entryHref name isDir
  obtain ⟨hhead, hnil, hdots⟩ := head_entryHref hne hdot isDir
  rw [nameOf] at hname
  rw [parsePath]
  dsimp only
  rw [hname, hquery, if_pos ⟨hhead, hnil, hcolon⟩, if_neg hdots]
  rfl

/-! ## A drive -/

/-- A character of the path in canonical form. -/
def canonChar (c : UInt8) : List UInt8 :=
  if pathEncType c.toNat ≠ 0 then [0x25, hexd (c.toNat / 16), hexd (c.toNat % 16)] else [c]

theorem canonizePathFrom_two (a b : UInt8) (s : List UInt8) (query : Bool) (room : ℕ) :
    canonizePathFrom (a :: b :: s) 2 query room = canonizePathFrom s 0 query room := by
  rw [canonizePathFrom, canonizePathFrom]

theorem canonizePathFrom_escapedName (name : List UInt8) (isDir : Bool) {room : ℕ}
    (hroom : 3 * (entryHref name isDir).length < room) :
    canonizePathFrom (entryHref name isDir) 0 false room = name.flatMap canonChar ++ dirMark isDir := by
  induction name generalizing room with
  | nil =>
    cases isDir with
    | false => rfl
    | true =>
      have hesc : escapeAt [0x2F] = none := rfl
      simp only [entryHref, escapedName, List.flatMap_nil, List.nil_append, dirMark, if_true] at hroom ⊢
      rw [canonizePathFrom, if_neg (by simp at hroom; omega), hesc]
      rfl
  | cons c name ih =>
    have hcons : entryHref (c :: name) isDir = listingChar c ++ entryHref name isDir := by
      rw [entryHref, escapedName_cons, List.append_assoc, entryHref]
    have hlt := c.toNat_lt
    rw [hcons] at hroom ⊢
    rw [List.flatMap_cons, List.append_assoc, canonChar]
    by_cases h : c ∈ listingEscaped
    · have hbyte : c.toNat / 16 * 16 + c.toNat % 16 = c.toNat := by omega
      rw [listingChar_of_mem h] at hroom ⊢
      simp only [List.length_append, List.length_cons, List.length_nil] at hroom
      simp only [List.cons_append, List.nil_append]
      have hesc : escapeAt (0x25 :: hexd (c.toNat / 16) :: hexd (c.toNat % 16) :: entryHref name isDir) =
          some (c.toNat / 16, c.toNat % 16) := by
        rw [escapeAt, ch2x_hexd (by omega), ch2x_hexd (by omega)]
      rw [canonizePathFrom, if_neg (by omega), hesc]
      dsimp only
      rw [hbyte]
      by_cases henc : pathEncType c.toNat ≠ 0
      · rw [if_pos henc, if_pos henc, if_pos (by omega), canonizePathFrom_two, ih (by omega)]
        rfl
      · rw [if_neg henc, if_neg henc, canonizePathFrom_two, ih (by omega), UInt8.ofNat_toNat]
        rfl
    · have hpercent : c ≠ 0x25 := by
        rintro rfl
        exact h (by decide)
      have hquery : c ≠ 0x3F := by
        rintro rfl
        exact h (by decide)
      have hesc (s : List UInt8) : escapeAt (c :: s) = none := by
        rw [escapeAt.eq_def]
        split
        · rename_i heq
          exact absurd (List.cons.inj heq).1 hpercent
        · rfl
      rw [listingChar_of_notMem h] at hroom ⊢
      simp only [List.length_append, List.length_cons, List.length_nil] at hroom
      rw [List.singleton_append, canonizePathFrom, if_neg (by omega), hesc]
      dsimp only
      rw [if_neg fun hc => hquery hc.1]
      by_cases henc : pathEncType c.toNat = 0
      · rw [if_neg fun hc => hc.1 henc, if_neg (fun hc => hc henc), ih (by omega)]
        rfl
      · rw [if_pos ⟨henc, by simp⟩, if_pos henc, if_pos (by omega), ih (by omega)]
        rfl

theorem slash_notMem_canonChar (h : 0x2F ∉ name) : (0x2F : UInt8) ∉ name.flatMap canonChar := by
  intro hmem
  obtain ⟨c, hc, hcanon⟩ := List.mem_flatMap.1 hmem
  have hlt := c.toNat_lt
  have hdigit : ∀ x < 16, hexd x ≠ 0x2F := by decide
  rw [canonChar] at hcanon
  split_ifs at hcanon
  · simp only [List.mem_cons, List.not_mem_nil, or_false] at hcanon
    rcases hcanon with heq | heq | heq
    · exact absurd heq (by decide)
    · exact hdigit _ (by omega) heq.symm
    · exact hdigit _ (by omega) heq.symm
  · rw [List.mem_singleton] at hcanon
    exact h (hcanon ▸ hc)

theorem splitFile_mark {h : List UInt8} (hh : (0x2F : UInt8) ∉ h) (isDir : Bool) :
    (splitFile (h ++ dirMark isDir)).2 = none := by
  cases isDir with
  | false =>
    rw [dirMark, if_neg (by decide), List.append_nil, splitFile, if_neg fun hslash => hh hslash.1]
  | true =>
    have hfile : ((h ++ [0x2F]).reverse.takeWhile (· ≠ 0x2F)).reverse = [] := by simp
    rw [dirMark, if_pos rfl, splitFile, if_neg fun hslash => hslash.2 hfile]

theorem filename_drive (hslash : 0x2F ∉ name)
    (hcolon : (entryHref name isDir)[1]? = some 0x3A) {url : UdmUrl} (hu : parsePath url (entryHref name isDir) = .ok u) :
    u.filename = none := by
  obtain ⟨hname, hquery⟩ := nameOf_entryHref name isDir
  have hno : ¬ ((nameOf (entryHref name isDir)).head? ≠ some 0x2F ∧ nameOf (entryHref name isDir) ≠ [] ∧
      (nameOf (entryHref name isDir))[1]? ≠ some 0x3A) := fun h => h.2.2 (by rw [hname, hcolon])
  have hanchor : cutAnchor (entryHref name isDir) = entryHref name isDir :=
    takeWhile_eq_self (notMem_entryHref (by decide) (by decide) (by decide) name isDir)
  have hcanon : canonizedPath (entryHref name isDir) = name.flatMap canonChar ++ dirMark isDir := by
    rw [canonizedPath]
    rw [nameOf, hanchor] at hname
    rw [hanchor, hname, udmURLCanonizePath, canonizePathFrom_escapedName name isDir (by omega)]
  have hclean := slash_notMem_canonChar hslash
  have hcanonical := canonical_canonizedPath (entryHref name isDir)
  rw [hcanon] at hcanonical
  have hnormal : normalizePath (name.flatMap canonChar ++ dirMark isDir) =
      some (name.flatMap canonChar ++ dirMark isDir) := by
    cases isDir with
    | false =>
      simp only [dirMark, Bool.false_eq_true, if_false, List.append_nil] at hcanonical ⊢
      exact normalizePath_segment hclean hcanonical
    | true =>
      exact @normalizePath_settled _ [] [] hclean (by simp [Lib.Segments.Plain]) hcanonical (by simp) (by simp)
        (by simp)
  rw [parsePath_absolute hno, hcanon, hnormal] at hu
  dsimp only at hu
  rw [hquery, splitFile_mark hclean] at hu
  cases hu
  rfl

/-! ## Colons -/

theorem isSchema_escapedName (front : List UInt8) :
    isSchema (escapedName front) = true ↔ ∀ c ∈ front, isalnum c = true ∨ c = 0x2D ∨ c = 0x2E := by
  have hone (c : UInt8) : isSchema (listingChar c) = true ↔ isalnum c = true ∨ c = 0x2D ∨ c = 0x2E :=
    @forall_byte (fun c => isSchema (listingChar c) = true ↔ isalnum c = true ∨ c = 0x2D ∨ c = 0x2E)
      (by decide +kernel) c
  unfold isSchema at hone ⊢
  rw [escapedName, List.all_flatMap, List.all_eq_true]
  exact forall₂_congr fun c _ => hone c

theorem splitSchema_entryHref (h : 0x3A ∉ front) (behind : List UInt8) (isDir : Bool) :
    splitSchema (entryHref (front ++ 0x3A :: behind) isDir) =
      if isSchema (escapedName front) then some (escapedName front, escapedName behind ++ dirMark isDir) else none := by
  have hsplit : entryHref (front ++ 0x3A :: behind) isDir =
      escapedName front ++ 0x3A :: (escapedName behind ++ dirMark isDir) := by
    rw [entryHref, escapedName_append, escapedName_cons, listingChar_of_notMem (by decide), List.append_assoc]
    rfl
  rw [splitSchema, hsplit, strchr_append (colon_notMem_escapedName h), Option.filter_some]

/-- The colon is in the second place of the value, where the name begins with a character that is not escaped, and a
colon. -/
theorem colon_second_iff (h : 0x3A ∉ front) (hne : front ≠ []) (behind : List UInt8) (isDir : Bool) :
    (entryHref (front ++ 0x3A :: behind) isDir)[1]? = some 0x3A ↔ ∃ c, front = [c] ∧ c ∉ listingEscaped := by
  obtain ⟨c, front, rfl⟩ := List.exists_cons_of_ne_nil hne
  have hdigit : ∀ x < 16, hexd x ≠ 0x3A := by decide
  have hlt := c.toNat_lt
  have hcons : entryHref (c :: front ++ 0x3A :: behind) isDir =
      listingChar c ++ (escapedName (front ++ 0x3A :: behind) ++ dirMark isDir) := by
    rw [entryHref, List.cons_append, escapedName_cons, List.append_assoc]
  rw [hcons]
  by_cases hc : c ∈ listingEscaped
  · rw [listingChar_of_mem hc]
    refine iff_of_false (fun heq => hdigit _ (by omega) (Option.some_injective _ heq)) ?_
    rintro ⟨a, ha, hno⟩
    exact hno ((List.cons.inj ha).1 ▸ hc)
  · rw [listingChar_of_notMem hc, List.singleton_append, List.getElem?_cons_succ]
    cases front with
    | nil =>
      rw [List.nil_append, escapedName_cons, listingChar_of_notMem (by decide)]
      exact iff_of_true rfl ⟨c, rfl, hc⟩
    | cons d front =>
      refine iff_of_false (fun heq => ?_) fun ⟨a, ha, _⟩ => by cases ha
      rw [List.cons_append, escapedName_cons] at heq
      by_cases hd : d ∈ listingEscaped
      · rw [listingChar_of_mem hd] at heq
        exact absurd (Option.some_injective _ heq) (by decide)
      · rw [listingChar_of_notMem hd] at heq
        have hcolon : d = 0x3A := Option.some_injective _ heq
        exact h (by simp [hcolon])

theorem mistaken_iff (h : 0x3A ∉ front) (behind : List UInt8) :
    Mistaken (front ++ 0x3A :: behind) ↔
      (∀ c ∈ front, isalnum c = true ∨ c = 0x2D ∨ c = 0x2E) ∨ ∃ c, front = [c] ∧ c ∉ listingEscaped := by
  refine ⟨?_, fun hfront => ⟨front, behind, rfl, h, hfront⟩⟩
  rintro ⟨front', behind', heq, h', hfront⟩
  have hfirst := strchr_append h behind
  rw [heq, strchr_append h'] at hfirst
  cases hfirst
  exact hfront

/-- The parser finds no schema and no drive, exactly if the name has none in front of its first colon. -/
theorem not_mistaken_iff (name : List UInt8) (isDir : Bool) :
    ¬ Mistaken name ↔ splitSchema (entryHref name isDir) = none ∧ (entryHref name isDir)[1]? ≠ some 0x3A := by
  by_cases hmem : 0x3A ∈ name
  · obtain ⟨hname, hfront⟩ := strchr_some (if_pos hmem : strchr name 0x3A = some _)
    generalize name.takeWhile (· ≠ 0x3A) = front at hname hfront
    generalize (name.dropWhile (· ≠ 0x3A)).tail = behind at hname
    subst hname
    rw [mistaken_iff hfront, not_or, ← isSchema_escapedName, splitSchema_entryHref hfront]
    by_cases hschema : isSchema (escapedName front) = true
    · exact iff_of_false (fun h => h.1 hschema) fun h => by simp [hschema] at h
    · have hne : front ≠ [] := by
        rintro rfl
        exact hschema rfl
      rw [← colon_second_iff hfront hne behind isDir, if_neg hschema]
      exact and_congr_left' (iff_of_true hschema rfl)
  · have hvalue : (0x3A : UInt8) ∉ entryHref name isDir := fun h =>
      (List.mem_append.1 h).elim (colon_notMem_escapedName hmem) (notMem_dirMark (by decide) isDir)
    refine iff_of_true ?_ ⟨by rw [splitSchema, strchr_eq_none hvalue]; rfl, fun h => hvalue (List.mem_of_getElem? h)⟩
    rintro ⟨front, behind, rfl, -, -⟩
    exact hmem (by simp)

/-! ## The entries -/

/-- **The link of an entry**: it is a relative reference to the entry, exactly if its name does not begin with what is
taken for a schema or for a drive. -/
theorem linksTo_iff {name : List UInt8} (hne : name ≠ []) (hslash : 0x2F ∉ name) (hdot : name ≠ [0x2E]) (isDir : Bool) :
    LinksTo name isDir ↔ ¬ Mistaken name := by
  have hquote : (0x22 : UInt8) ∉ entryHref name isDir := notMem_entryHref (by decide) (by decide) (by decide) name isDir
  have hamp : (0x26 : UInt8) ∉ entryHref name isDir := notMem_entryHref (by decide) (by decide) (by decide) name isDir
  have hread (t : UdmHtmlTok) (rest : List UInt8) :
      readHref t (entryLink name isDir ++ rest) = some (entryHref name isDir) := readHref_entryLink t hquote rest
  have hentity := udmSGMLUnescape_eq_self hamp
  rw [not_mistaken_iff name isDir]
  constructor
  · intro hlinks
    obtain ⟨href, url, u, hhref, hurl, hu, hschema, hfile⟩ := hlinks udmHTMLTOKInit []
    rw [hread] at hhref
    cases hhref
    rw [hentity] at hurl
    cases hurl
    have hsplit : splitSchema (entryHref name isDir) = none := by
      cases h : splitSchema (entryHref name isDir) with
      | none => rfl
      | some parts => exact absurd hschema (schema_of_splitSchema h hu)
    refine ⟨hsplit, fun hcolon => ?_⟩
    rw [udmURLParse, hsplit] at hu
    rw [filename_drive hslash hcolon hu] at hfile
    cases hfile
  · rintro ⟨hsplit, hcolon⟩ t rest
    have hu : udmURLParse (entryHref name isDir) =
        parsePath ⟨none, [], none, none, [], none, 0, 0⟩ (entryHref name isDir) := by
      rw [udmURLParse, hsplit]
    rw [parsePath_entryHref hne hdot hcolon] at hu
    refine ⟨_, _, _, hread t rest, hentity, hu, rfl, ?_⟩
    rw [Option.map_some, udmUnescapeCGIQuery_entryHref]

/-- A name with a blank and a per cent sign. -/
theorem linksTo_blank : LinksTo (bytes "50% off") false :=
  (linksTo_iff (by decide) (by decide) (by decide) false).2 (by
    rintro ⟨front, behind, heq, -, -⟩
    have hmem : (0x3A : UInt8) ∈ bytes "50% off" := by rw [heq]; simp
    exact absurd hmem (by decide))

/-- The link of `a:b` has a schema. -/
theorem not_forall_linksTo :
    ¬ ∀ (name : List UInt8) (isDir : Bool), name ≠ [] → 0 ∉ name → 0x2F ∉ name → name ≠ [0x2E] → name ≠ [0x2E, 0x2E] →
      LinksTo name isDir := by
  intro h
  obtain ⟨href, url, u, hhref, hurl, hu, -, -⟩ :=
    h (bytes "a:b") false (by decide) (by decide) (by decide) (by decide) (by decide) udmHTMLTOKInit []
  have hread : readHref udmHTMLTOKInit (entryLink (bytes "a:b") false ++ []) = some (bytes "a:b") :=
    readHref_entryLink udmHTMLTOKInit (by decide) []
  rw [hread] at hhref
  cases hhref
  rw [udmSGMLUnescape_eq_self (by decide)] at hurl
  cases hurl
  have hbad : udmURLParse (bytes "a:b") = .error .bad := by decide
  rw [hbad] at hu
  cases hu

end MnoGoSearch.Http
