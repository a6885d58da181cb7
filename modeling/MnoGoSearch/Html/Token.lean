import MnoGoSearch.Robots.RobotParse
import Mathlib.Data.List.Infix
import Mathlib.Tactic.SplitIfs
import Mathlib.Tactic.Tauto

/-!
# HTML tokens

`UdmHTMLToken` (`parsehtml.c`) cuts a document into tags, comments and text. It is called with the document first and
then with NULL: it goes on where the last token ended (`*lt`). A pointer into the document is the rest of the document
from there on; the zero byte is the end of the list.

`udmHTMLTokens_spec` says that the calls come to an end for any bytes whatsoever, that no token is empty, that the
tokens together are the document, and that no attribute is written behind the last slot of the token.
-/

namespace MnoGoSearch.Html

open Robots (hasPrefix)

/-! ### The token -/

/-- `UDM_MAXTAGVAL`. -/
def maxTagVal : ℕ := 64

/-- What a token is. -/
inductive HtmlType where
  /-- `UDM_HTML_TAG`. -/
  | tag
  /-- `UDM_HTML_COM`. -/
  | com
  /-- `UDM_HTML_TXT`. -/
  | txt
  deriving DecidableEq, Repr

/-- An attribute: an element of `toks`. -/
structure TagAttr where
  /-- `name` with `nlen`. -/
  name : List Char
  /-- `val` with `vlen`, or NULL. -/
  val : Option (List Char)
  deriving DecidableEq, Repr

/-- `UDM_HTMLTOK`, as far as the function reads and writes it. -/
structure UdmHtmlTok where
  type : HtmlType
  /-- Inside of `script`. -/
  script : Bool
  /-- Inside of `style`. -/
  style : Bool
  /-- Inside of `body`. -/
  body : Bool
  /-- Inside of a part that is not to be indexed. -/
  comment : Bool
  ntoks : ℕ
  /-- The slots for attributes. -/
  toks : List TagAttr
  /-- There is one more slot than attributes are counted. -/
  length_toks : toks.length = maxTagVal + 1

/-- `UdmHTMLTOKInit`. -/
def udmHTMLTOKInit : UdmHtmlTok where
  type := .tag
  script := false
  style := false
  body := false
  comment := false
  ntoks := 0
  toks := List.replicate (maxTagVal + 1) ⟨[], none⟩
  length_toks := List.length_replicate

/-- Write a slot; nothing, if there is no such slot. -/
def UdmHtmlTok.write (t : UdmHtmlTok) (nt : ℕ) (attr : TagAttr) : Option UdmHtmlTok :=
  if nt < t.toks.length then
    some { t with toks := t.toks.set nt attr, length_toks := List.length_set.trans t.length_toks }
  else none

/-! ### Tags -/

/-- `IsSpaceChar`. -/
def isSpaceChar (c : Char) : Bool := c ∈ ['\t', '\n', '\x0b', '\x0c', '\r', ' ']

/-- A byte of a name. -/
def isNameChar (c : Char) : Bool := c ∉ [' ', '=', '>', '\t', '\r', '\n']

/-- A byte of a value without quotes. -/
def isValueChar (c : Char) : Bool := c ∉ [' ', '>', '\t', '\r', '\n']

/-- The flags that a tag sets by its name, and resets if `/` stands in front. -/
def UdmHtmlTok.setFlags (t : UdmHtmlTok) (b : List Char) : UdmHtmlTok :=
  let val := b.head? != some '/'
  let beg := if val then b else b.tail
  if hasPrefix "script".toList beg then { t with script := val }
  else if hasPrefix "noindex".toList beg then { t with comment := val }
  else if hasPrefix "style".toList beg then { t with style := val }
  else if hasPrefix "body".toList beg then { t with body := val }
  else t

/-- The value that begins at `b`, and where it ends: in quotes up to the other quote. -/
def tagValue : List Char → List Char × List Char
  | '"' :: b => (b.takeWhile (· != '"'), (b.dropWhile (· != '"')).drop 1)
  | '\'' :: b => (b.takeWhile (· != '\''), (b.dropWhile (· != '\'')).drop 1)
  | b => (b.takeWhile isValueChar, b.dropWhile isValueChar)

/-- What a turn of the loop comes to. -/
inductive TagTurn where
  /-- The function returns with `*lt`. -/
  | done (lt : List Char) (t : UdmHtmlTok)
  /-- The loop goes on at `b`, and `*lt` is `b`. -/
  | next (b : List Char) (t : UdmHtmlTok)

/-- What follows the name of the attribute `nt` at `e`; nothing, if it writes behind the last slot. -/
def tagAfterName (nt : ℕ) (name : List Char) (t : UdmHtmlTok) : List Char → Option TagTurn
  | [] => some (.done [] t)
  | '>' :: rest => some (.done rest t)
  | e =>
    match e.dropWhile isSpaceChar with
    | '=' :: rest =>
      let (val, b) := tagValue (rest.dropWhile isSpaceChar)
      (t.write nt ⟨name, some val⟩).map (.next b)
    | e => some (.next e t)

/-- One turn of the loop over the attributes. -/
def tagTurn (b : List Char) (t : UdmHtmlTok) : Option TagTurn :=
  match b.dropWhile isSpaceChar with
  | '>' :: rest => some (.done rest t)
  -- Probably broken tag occure
  | '<' :: rest => some (.done ('<' :: rest) t)
  | b =>
    let nt := t.ntoks
    let name := b.takeWhile isNameChar
    ({ t with ntoks := if nt < maxTagVal then nt + 1 else nt }.write nt ⟨name, none⟩).bind fun t =>
      tagAfterName nt name (if nt = 0 then t.setFlags b else t) (b.dropWhile isNameChar)

/-- The loop; nothing, if it takes more than `fuel` turns. -/
def tagLoop : ℕ → List Char → UdmHtmlTok → Option (List Char × UdmHtmlTok)
  | 0, _, _ => none
  | _ + 1, [], t => some ([], t)
  | fuel + 1, b, t =>
    (tagTurn b t).bind fun
      | .done lt t => some (lt, t)
      | .next b t => tagLoop fuel b t

/-! ### Comments and text -/

/-- The comments that begin and end a part that is not to be indexed. -/
def UdmHtmlTok.setComment (t : UdmHtmlTok) (src : List Char) : UdmHtmlTok :=
  if hasPrefix "<!--UdmComment-->".toList src || hasPrefix "<!--noindex-->".toList src ||
      hasPrefix "<!--X-BotPNI-->".toList src then { t with comment := true }
  else if hasPrefix "<!--/UdmComment-->".toList src || hasPrefix "<!--/noindex-->".toList src ||
      hasPrefix "<!--X-BotPNI-End-->".toList src then { t with comment := false }
  else t

/-- Where a comment ends. -/
def comEnd : List Char → List Char
  | [] => []
  | c :: e => if "-->".toList.isPrefixOf (c :: e) then (c :: e).drop 3 else comEnd e

/-- Where a text ends: inside of a script at its end, or at a comment. -/
def txtEnd (script : Bool) : List Char → List Char
  | [] => []
  | c :: e =>
    if c = '<' && (!script || hasPrefix "</script>".toList (c :: e) || "<!--".toList.isPrefixOf (c :: e)) then c :: e
    else txtEnd script e

/-! ### The function -/

/-- What a call comes to. -/
inductive TokenResult where
  /-- NULL: there are no more tokens. -/
  | null
  /-- The token from `src` to `*lt`. -/
  | token (src lt : List Char) (t : UdmHtmlTok)

/-- The type of the token at `src`. -/
def tokenType (src : List Char) : HtmlType :=
  if src.head? = some '<' then if "<!--".toList.isPrefixOf src then .com else .tag else .txt

/-- `UdmHTMLToken` with the document or, if `src` is NULL, with the place where the last token ended. -/
def udmHTMLToken (src lt : Option (List Char)) (t : UdmHtmlTok) : Option TokenResult :=
  match src.or lt with
  | none | some [] => some .null
  | some (c :: rest) =>
    let src := c :: rest
    let t := { t with ntoks := 0, type := tokenType src }
    match t.type with
    | .tag => (tagLoop src.length rest t).map fun p => .token src p.1 p.2
    | .com => some (.token src (comEnd src) (t.setComment src))
    | .txt => some (.token src (txtEnd t.script src) t)

/-- The text of a token. -/
def tokenText (src lt : List Char) : List Char := src.take (src.length - lt.length)

/-- The calls with NULL until the function returns NULL; `between` is what the caller does to the token structure
between two of them. Nothing, if there are more than `fuel` calls. -/
def nextTokens (between : List Char → UdmHtmlTok → UdmHtmlTok) :
    ℕ → List Char → UdmHtmlTok → Option (List (List Char))
  | 0, _, _ => none
  | fuel + 1, lt, t =>
    (udmHTMLToken none (some lt) t).bind fun
      | .null => some []
      | .token src lt t =>
        (nextTokens between fuel lt (between (tokenText src lt) t)).map fun toks => tokenText src lt :: toks

/-- The calls for a document. -/
def udmHTMLTokens (between : List Char → UdmHtmlTok → UdmHtmlTok) (fuel : ℕ) (content : List Char) (t : UdmHtmlTok) :
    Option (List (List Char)) :=
  (udmHTMLToken (some content) none t).bind fun
    | .null => some []
    | .token src lt t =>
      (nextTokens between fuel lt (between (tokenText src lt) t)).map fun toks => tokenText src lt :: toks

/-! ### One turn of the loop -/

variable {nt : ℕ} {rest e : List Char} {t : UdmHtmlTok} {c : Char}

theorem exists_write (t : UdmHtmlTok) (hnt : nt ≤ maxTagVal) (attr : TagAttr) :
    ∃ t', t.write nt attr = some t' ∧ t'.ntoks = t.ntoks := by
  have hlt : nt < t.toks.length := by
    rw [t.length_toks]
    omega
  rw [UdmHtmlTok.write, if_pos hlt]
  exact ⟨_, rfl, rfl⟩

theorem ntoks_setFlags (t : UdmHtmlTok) (b : List Char) : (t.setFlags b).ntoks = t.ntoks := by
  simp only [UdmHtmlTok.setFlags]
  split_ifs <;> rfl

theorem tagValue_suffix (b : List Char) : (tagValue b).2 <:+ b := by
  unfold tagValue
  split
  · exact ((List.drop_suffix _ _).trans (List.dropWhile_suffix _)).trans (List.suffix_cons _ _)
  · exact ((List.drop_suffix _ _).trans (List.dropWhile_suffix _)).trans (List.suffix_cons _ _)
  · exact List.dropWhile_suffix _

/-- A turn of the loop leaves a rest, which is shorter if the loop goes on. -/
def TagTurn.Ok (b : List Char) : TagTurn → Prop
  | .done lt _ => lt <:+ b
  | .next b' t => b' <:+ b ∧ b'.length < b.length ∧ t.ntoks ≤ maxTagVal

theorem length_dropWhile_lt (hname : isNameChar c = false) (hgt : c ≠ '>')
    (heq : ∀ rest, (c :: e).dropWhile isSpaceChar ≠ '=' :: rest) :
    ((c :: e).dropWhile isSpaceChar).length < (c :: e).length := by
  have hspace : isSpaceChar c = true := by
    by_contra hns
    have hc : c ≠ '=' := by
      rintro rfl
      exact heq e rfl
    simp [isNameChar, isSpaceChar] at hname hns
    tauto
  rw [List.dropWhile_cons_of_pos hspace, List.length_cons]
  exact Nat.lt_succ_of_le (List.dropWhile_suffix _).length_le

theorem TagTurn.Ok.mono {b : List Char} {turn : TagTurn} (h : turn.Ok e) (he : e <:+ b) : turn.Ok b := by
  cases turn with
  | done lt t => exact List.IsSuffix.trans h he
  | next b' t => exact ⟨h.1.trans he, Nat.lt_of_lt_of_le h.2.1 he.length_le, h.2.2⟩

theorem exists_tagAfterName (hnt : nt ≤ maxTagVal) (name : List Char)
    (ht : t.ntoks ≤ maxTagVal) (he : ∀ c ∈ e.head?, isNameChar c = false) :
    ∃ turn, tagAfterName nt name t e = some turn ∧ turn.Ok e := by
  unfold tagAfterName
  split
  · exact ⟨_, rfl, List.suffix_refl _⟩
  · exact ⟨_, rfl, List.suffix_cons _ _⟩
  · rename_i hne hgt
    obtain ⟨c, e, rfl⟩ := List.exists_cons_of_ne_nil hne
    have hsuffix := List.dropWhile_suffix (l := c :: e) isSpaceChar
    split
    · rename_i rest hrest
      rw [hrest] at hsuffix
      have hval := (tagValue_suffix (rest.dropWhile isSpaceChar)).trans (List.dropWhile_suffix _)
      obtain ⟨t', ht', hntoks⟩ := exists_write t hnt ⟨name, some (tagValue (rest.dropWhile isSpaceChar)).1⟩
      simp only [ht', Option.map_some]
      refine ⟨_, rfl, hval.trans ((List.suffix_cons _ _).trans hsuffix), ?_, hntoks ▸ ht⟩
      exact Nat.lt_of_lt_of_le (Nat.lt_succ_of_le hval.length_le) hsuffix.length_le
    · rename_i heq
      refine ⟨_, rfl, hsuffix, ?_, ht⟩
      exact length_dropWhile_lt (he c rfl) (fun h => hgt e (h ▸ rfl)) heq

theorem exists_tagTurn (b : List Char) (ht : t.ntoks ≤ maxTagVal) : ∃ turn, tagTurn b t = some turn ∧ turn.Ok b := by
  have hb := List.dropWhile_suffix (l := b) isSpaceChar
  unfold tagTurn
  split
  · rename_i rest hrest
    exact ⟨_, rfl, (hrest ▸ List.suffix_cons '>' rest).trans hb⟩
  · rename_i rest hrest
    exact ⟨_, rfl, hrest ▸ hb⟩
  · generalize b.dropWhile isSpaceChar = b1 at hb
    have hname : ∀ c ∈ (b1.dropWhile isNameChar).head?, isNameChar c = false := by
      intro c hc
      have h := List.head?_dropWhile_not isNameChar b1
      rw [Option.mem_def.mp hc] at h
      simpa using h
    have hcount : (if t.ntoks < maxTagVal then t.ntoks + 1 else t.ntoks) ≤ maxTagVal := by
      split <;> omega
    obtain ⟨t', ht', hntoks⟩ := exists_write
      { t with ntoks := if t.ntoks < maxTagVal then t.ntoks + 1 else t.ntoks } ht ⟨b1.takeWhile isNameChar, none⟩
    have hflags : (if t.ntoks = 0 then t'.setFlags b1 else t').ntoks ≤ maxTagVal := by
      split
      · rwa [ntoks_setFlags, hntoks]
      · rwa [hntoks]
    obtain ⟨turn, hturn, hok⟩ := exists_tagAfterName ht (b1.takeWhile isNameChar) hflags hname
    refine ⟨turn, ?_, hok.mono ((List.dropWhile_suffix _).trans hb)⟩
    simp only [ht', Option.bind_some]
    exact hturn

/-! ### One token -/

theorem exists_tagLoop {fuel : ℕ} {b : List Char} {t : UdmHtmlTok} (hfuel : b.length < fuel)
    (ht : t.ntoks ≤ maxTagVal) : ∃ lt t', tagLoop fuel b t = some (lt, t') ∧ lt <:+ b := by
  induction fuel generalizing b t with
  | zero => exact absurd hfuel (Nat.not_lt_zero _)
  | succ fuel ih =>
    cases b with
    | nil => exact ⟨[], t, rfl, List.suffix_refl _⟩
    | cons c b =>
      obtain ⟨turn, hturn, hok⟩ := exists_tagTurn (c :: b) ht
      rw [tagLoop, hturn, Option.bind_some]
      · cases turn with
        | done lt t' => exact ⟨lt, t', rfl, hok⟩
        | next b' t' =>
          have hlen := hok.2.1
          obtain ⟨lt, t'', hloop, hlt⟩ := @ih b' t' (by omega) hok.2.2
          exact ⟨lt, t'', hloop, hlt.trans hok.1⟩
      · exact List.cons_ne_nil c b

theorem comEnd_suffix (e : List Char) : comEnd e <:+ e := by
  induction e with
  | nil => exact List.suffix_refl _
  | cons c e ih =>
    rw [comEnd]
    split
    · exact List.drop_suffix _ _
    · exact ih.trans (List.suffix_cons c e)

theorem txtEnd_suffix (script : Bool) (e : List Char) : txtEnd script e <:+ e := by
  induction e with
  | nil => exact List.suffix_refl _
  | cons c e ih =>
    rw [txtEnd]
    split
    · exact List.suffix_refl _
    · exact ih.trans (List.suffix_cons c e)

theorem eq_lt_of_tokenType_eq_com (h : tokenType (c :: rest) = .com) : c = '<' := by
  by_contra hc
  simp [tokenType, hc] at h

theorem ne_lt_of_tokenType_eq_txt (h : tokenType (c :: rest) = .txt) : c ≠ '<' := by
  rintro rfl
  rw [tokenType, List.head?_cons, if_pos rfl] at h
  split at h <;> exact nomatch h

theorem exists_udmHTMLToken {src lt : Option (List Char)} {c : Char} {rest : List Char}
    (hsrc : src.or lt = some (c :: rest)) (t : UdmHtmlTok) :
    ∃ lt' t', udmHTMLToken src lt t = some (.token (c :: rest) lt' t') ∧ lt' <:+ rest := by
  rw [udmHTMLToken, hsrc]
  cases htype : tokenType (c :: rest) with
  | tag =>
    obtain ⟨lt', t', hloop, hsuffix⟩ := @exists_tagLoop (c :: rest).length rest
      { t with ntoks := 0, type := .tag } (Nat.lt_succ_self _) (Nat.zero_le _)
    simp only [htype, hloop, Option.map_some]
    exact ⟨lt', t', rfl, hsuffix⟩
  | com =>
    obtain rfl := eq_lt_of_tokenType_eq_com htype
    simp only [htype]
    refine ⟨_, _, rfl, ?_⟩
    -- a comment does not end at its first byte
    rw [comEnd, if_neg (by simp)]
    exact comEnd_suffix rest
  | txt =>
    have hlt := ne_lt_of_tokenType_eq_txt htype
    simp only [htype]
    refine ⟨_, _, rfl, ?_⟩
    rw [txtEnd, if_neg (by simp [hlt])]
    exact txtEnd_suffix _ rest

/-! ### All tokens -/

theorem tokenText_append {c : Char} {rest lt : List Char} (h : lt <:+ rest) :
    tokenText (c :: rest) lt ++ lt = c :: rest ∧ tokenText (c :: rest) lt ≠ [] := by
  obtain ⟨text, rfl⟩ := h
  have htext : tokenText (c :: (text ++ lt)) lt = c :: text := by
    rw [tokenText, ← List.cons_append, List.length_append, Nat.add_sub_cancel, List.take_left]
  rw [htext]
  exact ⟨rfl, List.cons_ne_nil c text⟩

theorem exists_nextTokens (between : List Char → UdmHtmlTok → UdmHtmlTok) {fuel : ℕ} {lt : List Char} (t : UdmHtmlTok)
    (hfuel : lt.length < fuel) :
    ∃ toks, nextTokens between fuel lt t = some toks ∧ toks.flatten = lt ∧ ∀ tok ∈ toks, tok ≠ [] := by
  induction fuel generalizing lt t with
  | zero => exact absurd hfuel (Nat.not_lt_zero _)
  | succ fuel ih =>
    cases lt with
    | nil => exact ⟨[], rfl, rfl, fun tok h => absurd h List.not_mem_nil⟩
    | cons c rest =>
      obtain ⟨lt', t', htoken, hsuffix⟩ := @exists_udmHTMLToken none (some (c :: rest)) c rest rfl t
      have hlen : lt'.length < fuel := by
        have := hsuffix.length_le
        rw [List.length_cons] at hfuel
        omega
      obtain ⟨toks, htoks, hflat, hne⟩ := ih (between (tokenText (c :: rest) lt') t') hlen
      obtain ⟨happ, htext⟩ := @tokenText_append c rest lt' hsuffix
      simp only [nextTokens, htoken, Option.bind_some, htoks, Option.map_some]
      refine ⟨_, rfl, ?_, List.forall_mem_cons.mpr ⟨htext, hne⟩⟩
      rw [List.flatten_cons, hflat, happ]

/-- **The tokens of a document**, whatever its bytes are and whatever the caller does to the flags between the calls:
the calls come to an end after a call for every byte at most, no token is empty, one begins where the last ended, and
together they are the document. -/
theorem udmHTMLTokens_spec (between : List Char → UdmHtmlTok → UdmHtmlTok) (content : List Char) (t : UdmHtmlTok) :
    ∃ toks, udmHTMLTokens between content.length content t = some toks ∧ toks.flatten = content ∧
      ∀ tok ∈ toks, tok ≠ [] := by
  cases content with
  | nil => exact ⟨[], rfl, rfl, fun tok h => absurd h List.not_mem_nil⟩
  | cons c rest =>
    obtain ⟨lt, t', htoken, hsuffix⟩ := @exists_udmHTMLToken (some (c :: rest)) none c rest rfl t
    have hlen : lt.length < (c :: rest).length := Nat.lt_succ_of_le hsuffix.length_le
    obtain ⟨toks, htoks, hflat, hne⟩ := exists_nextTokens between (between (tokenText (c :: rest) lt) t') hlen
    obtain ⟨happ, htext⟩ := @tokenText_append c rest lt hsuffix
    simp only [udmHTMLTokens, htoken, Option.bind_some, htoks, Option.map_some]
    refine ⟨_, rfl, ?_, List.forall_mem_cons.mpr ⟨htext, hne⟩⟩
    rw [List.flatten_cons, hflat, happ]

example : udmHTMLTokens (fun _ t => t) 5 "<a b=\"c>d\">e<!--f".toList udmHTMLTOKInit =
    some ["<a b=\"c>d\">".toList, "e".toList, "<!--f".toList] := by
  decide

end MnoGoSearch.Html
