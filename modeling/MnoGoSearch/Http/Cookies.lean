import MnoGoSearch.Http.Response
import MnoGoSearch.Url.Idempotent

/-!
# Cookies

The crawler keeps the cookies of all sites in one list of variables (`indexer.c`). The name of a variable
has the name of the cookie, its domain and its path, and a request gets the cookies whose domain is at
the end of its host name. `noLeak_of_reachable` says when no cookie goes to a host that it is not for.
-/

namespace MnoGoSearch.Http

open Url Vars Words
open MnoGoSearch.Lib.Sorting

/-! ## Storing and sending -/

/-- The variable is a cookie of the document. -/
def isSetCookie (name : List UInt8) : Bool := name.take 11 == bytes "Set-Cookie."

/-- What is behind `Set-Cookie.`. -/
def cookieName (name : CString) : CString := ⟨name.val.drop 11, fun h => name.property (List.mem_of_mem_drop h)⟩

variable (udmSort : QSort VarLE)

/-- One variable of the document, in the loop of `UdmDocProcessResponseHeaders`. -/
def storeCookie (cookies : UdmVarList) (v : UdmVar) : UdmVarList :=
  if isSetCookie v.name.val then udmVarListReplaceStr udmSort cookies (cookieName v.name) v.val else cookies

/-- The name, the domain and the path of a stored cookie. -/
def splitCookie (v : List UInt8) : Option (List UInt8 × List UInt8 × List UInt8) :=
  match strchr v 0x40 with
  | none => none
  | some (name, rest) => (strchr rest 0x2F).map fun (domain, path) => (name, domain, 0x2F :: path)

/-- The document is below the path of the cookie. -/
def pathMatches (url : UdmUrl) (path : List UInt8) : Bool :=
  let n := min path.length url.path.length
  url.path.take n == path.take n && (path.length ≤ url.path.length || url.filename.any fun filename =>
    filename.take (path.length - url.path.length) == path.drop url.path.length)

/-- The domain of the cookie is at the end of the host name. -/
def domainMatches (hostname domain : List UInt8) : Bool :=
  domain.length ≤ hostname.length && strcaseeq (hostname.drop (hostname.length - domain.length)) domain

/-- The cookie is sent. -/
def isSent (url : UdmUrl) (hostname : List UInt8) (v : UdmVar) : Bool :=
  (splitCookie v.name.val).any fun (_, domain, path) => pathMatches url path && domainMatches hostname domain

/-- The cookies that are sent. -/
def cookiesSent (url : UdmUrl) (cookies : UdmVarList) : List UdmVar :=
  match url.hostname with
  | none => []
  | some hostname => cookies.vars.filter (isSent url hostname)

/-- A cookie in the header. -/
def cookieText (v : UdmVar) : List UInt8 :=
  v.name.val.takeWhile (· ≠ 0x40) ++ 0x3D :: (v.val.map fun val => val.val).getD []

/-- `UdmDocAddCookieHeaders`. -/
def udmDocAddCookieHeaders (url : UdmUrl) (cookies requestHeaders : UdmVarList) : UdmVarList :=
  match (cookiesSent url cookies).map cookieText with
  | [] => requestHeaders
  | texts =>
    udmVarListReplaceStr udmSort requestHeaders (CString.take (bytes "Cookie"))
      (some (CString.take ((bytes "; ").intercalate texts)))

/-! ## Runs -/

/-- A header of a response. -/
structure Header where
  /-- Where the response is from. -/
  url : UdmUrl
  token : List UInt8
  deriving DecidableEq

/-- For names without regard to case, the header that has set each. -/
abbrev Origins := List UInt8 → Option Header

/-- The headers of a response that are put into the sections. -/
def headerLines (buf : DocBuf) : List (List UInt8) :=
  match cutHeaders buf.buf.str with
  | none => []
  | some (headers, _) =>
    match tokens (bytes "\r\n") headers with
    | [] => []
    | line :: lines => if line.take 5 = bytes "HTTP/" then lines else []

/-- A header sets its section. -/
def putOrigin (url : UdmUrl) (origins : Origins) (token : List UInt8) : Origins :=
  match headerVar url token with
  | some (name, _) => Function.update origins (key (CString.take name).val) (some ⟨url, token⟩)
  | none => origins

/-- A cookie of the document sets one of the crawler. -/
def storeOrigin (origins : Origins) (jar : Origins) (v : UdmVar) : Origins :=
  if isSetCookie v.name.val then Function.update jar (key (cookieName v.name).val) (origins (key v.name.val)) else jar

/-- The names of cookies of a document, without regard to case. -/
def IsCookieKey (k : List UInt8) : Prop := k.take 11 = key (bytes "Set-Cookie.")

instance (k : List UInt8) : Decidable (IsCookieKey k) := inferInstanceAs (Decidable (_ = _))

/-- Sections as a document begins with them: none is a cookie. -/
structure PlainSections where
  list : UdmVarList
  keyed : Keyed list
  /-- No section is a cookie. -/
  plain : ∀ v ∈ list.vars, ¬IsCookieKey (key v.name.val)

/-- The crawler, as far as it has cookies. -/
structure Crawl where
  /-- `Conf->Cookies`. -/
  cookies : UdmVarList
  /-- The sections of the documents. -/
  docs : ℕ → UdmVarList
  /-- The headers that have set the cookies. -/
  jar : Origins
  /-- The headers that have set the sections of the documents. -/
  origins : ℕ → Origins

/-- What happens. -/
inductive CrawlEvent
  | doc (d : ℕ) (sections : PlainSections)
  /-- A response for a document is there; a document may have more than one. -/
  | response (d : ℕ) (url : UdmUrl) (buf : DocBuf)

/-- No cookies, and no documents. -/
def Crawl.init : Crawl := ⟨udmVarListInit, fun _ => udmVarListInit, fun _ => none, fun _ _ => none⟩

/-- `UdmParseHTTPResponse`, and the cookies of `UdmDocProcessResponseHeaders`. -/
def response (useCookie : Bool) (s : Crawl) (d : ℕ) (url : UdmUrl) (buf : DocBuf) : Crawl :=
  let doc := udmParseHTTPResponse udmSort ⟨buf, s.docs d, url⟩
  let origins := (headerLines buf).foldl (putOrigin url) (s.origins d)
  { cookies := if useCookie then doc.sections.vars.foldl (storeCookie udmSort) s.cookies else s.cookies
    docs := Function.update s.docs d doc.sections
    jar := if useCookie then doc.sections.vars.foldl (storeOrigin origins) s.jar else s.jar
    origins := Function.update s.origins d origins }

/-- One step of the crawler. -/
def crawlStep (useCookie : Bool) (s : Crawl) : CrawlEvent → Crawl
  | .doc d sections =>
    { s with docs := Function.update s.docs d sections.list, origins := Function.update s.origins d fun _ => none }
  | .response d url buf => response udmSort useCookie s d url buf

/-! ## What cookies are for -/

/-- The domain of the cookie is given. -/
def hasDomain (c : SetCookie) : Bool := c.domain.any fun domain => domain.head? == some 0x2E

/-- The host is one that a cookie is for: the domain of the cookie, or below it if it is given. -/
def HostMatches (hostname domain : List UInt8) (given : Bool) : Prop :=
  key hostname = key domain ∨ (given = true ∧ ∃ sub, key hostname = sub ++ 0x2E :: key domain)

/-- The cookie is one that was set, with this value, by the header `h`, and both the host of `h` and
the host of the request are ones that it is for. -/
def Allowed (h : Header) (url : UdmUrl) (v : UdmVar) : Prop :=
  ∃ c, headerCookie h.token = some c ∧ v.val = some (CString.take c.value) ∧
    (∃ hostname, h.url.hostname = some hostname ∧ HostMatches hostname (cookieDomain h.url c) (hasDomain c)) ∧
    ∃ hostname, url.hostname = some hostname ∧ HostMatches hostname (cookieDomain h.url c) (hasDomain c)

/-- **No cookie leaks** with a request. -/
def NoLeak (s : Crawl) (url : UdmUrl) : Prop :=
  ∀ v ∈ cookiesSent url s.cookies, ∃ h, s.jar (key v.name.val) = some h ∧ Allowed h url v

/-- A header that may set cookies: if its section can be read as a cookie, then it is one, the name and
the domain that are read are its own, and its host is one that the cookie is for. -/
def HeaderSound (h : Header) : Prop :=
  ∀ name val, headerVar h.url h.token = some (name, val) → IsCookieKey (key (CString.take name).val) →
    ∀ n domain path, splitCookie (cookieName (CString.take name)).val = some (n, domain, path) →
      ∃ c, headerCookie h.token = some c ∧ n = c.name ∧ domain = cookieDomain h.url c ∧
        ∃ hostname, h.url.hostname = some hostname ∧ HostMatches hostname domain (hasDomain c)

/-- The condition on a step: the headers of responses are sound. -/
def StepSound : CrawlEvent → Prop
  | .doc _ _ => True
  | .response _ url buf => ∀ token ∈ headerLines buf, HeaderSound ⟨url, token⟩

/-- The condition on a request: if the domain of a cookie for its path is at the end of its host name, it
is all of the host name, or it is given and there is a dot in front of it. -/
def RequestSound (s : Crawl) (url : UdmUrl) : Prop :=
  ∀ hostname, url.hostname = some hostname → ∀ v ∈ s.cookies.vars, ∀ name domain path,
    splitCookie v.name.val = some (name, domain, path) → pathMatches url path = true →
    domainMatches hostname domain = true → domain.length = hostname.length ∨
      (((s.jar (key v.name.val)).bind fun h => headerCookie h.token).any hasDomain = true ∧
        (hostname.take (hostname.length - domain.length)).getLast? = some 0x2E)

/-- What the crawler reaches by steps that meet the condition. -/
inductive Reachable (useCookie : Bool) : Crawl → Prop
  | init : Reachable useCookie Crawl.init
  | step {s : Crawl} {e : CrawlEvent} : Reachable useCookie s → StepSound e →
      Reachable useCookie (crawlStep udmSort useCookie s e)

/-! ## Names without regard to case -/

theorem udmL1tolower_eq_iff (c x : UInt8) (hc : c = 0x40 ∨ c = 0x2F) : udmL1tolower x = c ↔ x = c := by
  rcases hc with rfl | rfl
  · exact @forall_byte (fun x => udmL1tolower x = 0x40 ↔ x = 0x40) (by decide +kernel) x
  · exact @forall_byte (fun x => udmL1tolower x = 0x2F ↔ x = 0x2F) (by decide +kernel) x

theorem strchr_key (s : List UInt8) {c : UInt8} (hc : c = 0x40 ∨ c = 0x2F) :
    strchr (key s) c = (strchr s c).map fun (a, b) => (key a, key b) := by
  have hmem : c ∈ key s ↔ c ∈ s := by
    rw [key, List.mem_map]
    constructor
    · rintro ⟨x, hx, heq⟩
      exact (udmL1tolower_eq_iff c x hc).1 heq ▸ hx
    · exact fun h => ⟨c, h, (udmL1tolower_eq_iff c c hc).2 rfl⟩
  have hne : ((fun x => decide (x ≠ c)) ∘ udmL1tolower) = fun x => decide (x ≠ c) := by
    funext x
    simp only [Function.comp_apply, ne_eq, udmL1tolower_eq_iff c x hc]
  unfold strchr
  rw [if_congr hmem rfl rfl]
  split_ifs
  · simp only [key, Option.map_some, List.takeWhile_map, List.dropWhile_map, List.map_tail, hne]
  · rfl

theorem splitCookie_key (v : List UInt8) :
    splitCookie (key v) = (splitCookie v).map fun (name, domain, path) => (key name, key domain, key path) := by
  unfold splitCookie
  rw [strchr_key v (.inl rfl)]
  cases hname : strchr v 0x40 with
  | none => rfl
  | some x =>
    obtain ⟨name, rest⟩ := x
    simp only [Option.map_some]
    rw [strchr_key rest (.inr rfl)]
    cases hdomain : strchr rest 0x2F with
    | none => rfl
    | some y => rfl

variable {name domain hostname token : List UInt8} {cookies sections : UdmVarList} {jar origins : Origins}
variable {url : UdmUrl}

theorem splitCookie_of_key {v w path : List UInt8} (h : key v = key w)
    (hv : splitCookie v = some (name, domain, path)) :
    ∃ name' domain' path', splitCookie w = some (name', domain', path') ∧ key domain = key domain' := by
  have hkey := splitCookie_key w
  rw [← h, splitCookie_key v, hv] at hkey
  cases hw : splitCookie w with
  | none =>
    rw [hw] at hkey
    cases hkey
  | some x =>
    obtain ⟨name', domain', path'⟩ := x
    rw [hw] at hkey
    simp only [Option.map_some, Option.some.injEq, Prod.mk.injEq] at hkey
    exact ⟨name', domain', path', rfl, hkey.2.1⟩

theorem key_eq_of_strcaseeq {a b : List UInt8} (h : strcaseeq a b = true) : key a = key b := by
  have hlower (c : UInt8) : udmL1tolower (tolower c) = udmL1tolower c :=
    @forall_byte (fun c => udmL1tolower (tolower c) = udmL1tolower c) (by decide +kernel) c
  have hkey (s : List UInt8) : key (s.map tolower) = key s := by simp [key, hlower]
  rw [strcaseeq, beq_iff_eq] at h
  rw [← hkey a, ← hkey b, h]

theorem isCookieKey_of_isSetCookie (h : isSetCookie name = true) : IsCookieKey (key name) := by
  rw [isSetCookie, beq_iff_eq] at h
  rw [IsCookieKey, ← h, key, key, List.map_take]

theorem key_cookieName (name : CString) : key (cookieName name).val = (key name.val).drop 11 := by
  simp [key, cookieName, List.map_drop]

/-! ## Where cookies are from -/

/-- The section has this name, without regard to case, and this value. -/
def Sets (h : Header) (k : List UInt8) (val : Option CString) : Prop :=
  ∃ name val', headerVar h.url h.token = some (name, val') ∧ key (CString.take name).val = k ∧
    val = some (CString.take val')

/-- The cookies of a document are what sound headers have set. -/
structure DocInv (sections : UdmVarList) (origins : Origins) : Prop where
  keyed : Keyed sections
  /-- The header of each cookie is known. -/
  sets : ∀ v ∈ sections.vars, IsCookieKey (key v.name.val) →
    ∃ h, origins (key v.name.val) = some h ∧ Sets h (key v.name.val) v.val
  sound : ∀ k h, origins k = some h → HeaderSound h

variable {udmSort}

theorem DocInv.replaceStr (hinv : DocInv sections origins) {name : CString}
    (hname : ¬IsCookieKey (key name.val)) (val : Option CString) :
    DocInv (udmVarListReplaceStr udmSort sections name val) origins := by
  refine ⟨hinv.keyed.replaceStr udmSort name val, fun v hv hcookie => ?_, hinv.sound⟩
  rcases hinv.keyed.mem_replaceStr udmSort hv with ⟨hkey, -⟩ | ⟨hold, -⟩
  · rw [hkey] at hcookie
    exact absurd hcookie hname
  · exact hinv.sets v hold hcookie

theorem DocInv.insStr (hinv : DocInv sections origins) {name : CString}
    (hname : ¬IsCookieKey (key name.val)) (val : Option CString) :
    DocInv (udmVarListInsStr udmSort sections name val) origins := by
  refine ⟨hinv.keyed.insStr udmSort name val, fun v hv hcookie => ?_, hinv.sound⟩
  rcases mem_udmVarListInsStr udmSort hv with hold | hname'
  · exact hinv.sets v hold hcookie
  · rw [hname'] at hcookie
    exact absurd hcookie hname

theorem DocInv.del (hinv : DocInv sections origins) (name : CString) : DocInv (udmVarListDel sections name) origins :=
  ⟨hinv.keyed.del name, fun v hv => hinv.sets v (mem_udmVarListDel hv), hinv.sound⟩

theorem DocInv.putHeader (hinv : DocInv sections origins) (hsound : HeaderSound ⟨url, token⟩) :
    DocInv (putHeader udmSort url sections token) (putOrigin url origins token) := by
  unfold Http.putHeader putOrigin
  cases hvar : headerVar url token with
  | none => exact hinv
  | some x =>
    obtain ⟨name, val⟩ := x
    simp only
    refine ⟨hinv.keyed.replaceStr udmSort _ _, fun v hv hcookie => ?_, fun k h hk => ?_⟩
    · rcases hinv.keyed.mem_replaceStr udmSort hv with ⟨hkey, hval⟩ | ⟨hold, hne⟩
      · refine ⟨⟨url, token⟩, ?_, name, val, hvar, hkey.symm, hval⟩
        rw [hkey, Function.update_self]
      · rw [Function.update_of_ne hne]
        exact hinv.sets v hold hcookie
    · by_cases hk' : k = key (CString.take name).val
      · rw [hk', Function.update_self, Option.some.injEq] at hk
        exact hk ▸ hsound
      · rw [Function.update_of_ne hk'] at hk
        exact hinv.sound k h hk

theorem DocInv.putHeaders {lines : List (List UInt8)}
    (hinv : DocInv sections origins) (hsound : ∀ token ∈ lines, HeaderSound ⟨url, token⟩) :
    DocInv (lines.foldl (Http.putHeader udmSort url) sections) (lines.foldl (putOrigin url) origins) := by
  induction lines generalizing sections origins with
  | nil => exact hinv
  | cons line lines ih =>
    exact ih (hinv.putHeader (hsound line (List.mem_cons_self ..)))
      fun token htoken => hsound token (List.mem_cons_of_mem _ htoken)

theorem DocInv.resetSections {sections : UdmVarList} {origins : Origins} (hinv : DocInv sections origins) (size : ℕ) :
    DocInv (resetSections udmSort sections size) origins :=
  ((hinv.replaceStr (by decide) _).del _).del _

theorem DocInv.putStatus (hinv : DocInv sections origins)
    (oldstatus : ℤ) (line : List UInt8) : DocInv (putStatus udmSort sections oldstatus line) origins :=
  (hinv.replaceStr (by decide) _).replaceStr (by decide) _

/-- **A response** sets the sections of its headers. -/
theorem DocInv.parse {doc : UdmDocument} {origins : Origins} (hinv : DocInv doc.sections origins)
    (hsound : ∀ token ∈ headerLines doc.buf, HeaderSound ⟨doc.curURL, token⟩) :
    DocInv (udmParseHTTPResponse udmSort doc).sections ((headerLines doc.buf).foldl (putOrigin doc.curURL) origins) := by
  have hreset := @DocInv.resetSections udmSort _ _ hinv doc.buf.size
  unfold udmParseHTTPResponse headerLines at *
  cases hcut : cutHeaders doc.buf.buf.str with
  | none => exact hreset
  | some x =>
    obtain ⟨headers, n⟩ := x
    rw [hcut] at hsound
    simp only at hsound ⊢
    cases htokens : tokens (bytes "\r\n") headers with
    | nil => exact hreset
    | cons line lines =>
      rw [htokens] at hsound
      simp only at hsound ⊢
      split_ifs at hsound ⊢ with hhttp
      · exact ((hreset.putStatus _ _).putHeaders hsound).insStr (by decide) _
      · exact hreset

/-- The cookies of the crawler are what sound headers have set. -/
structure JarInv (cookies : UdmVarList) (jar : Origins) : Prop where
  keyed : Keyed cookies
  /-- The header of each cookie is known. -/
  sets : ∀ v ∈ cookies.vars, ∃ h k, jar (key v.name.val) = some h ∧ Sets h k v.val ∧ IsCookieKey k ∧
    k.drop 11 = key v.name.val
  sound : ∀ k h, jar k = some h → HeaderSound h

theorem JarInv.storeCookie (hinv : JarInv cookies jar) {v : UdmVar} (hsound : ∀ k h, origins k = some h → HeaderSound h)
    (hv : IsCookieKey (key v.name.val) → ∃ h, origins (key v.name.val) = some h ∧ Sets h (key v.name.val) v.val) :
    JarInv (storeCookie udmSort cookies v) (storeOrigin origins jar v) := by
  unfold Http.storeCookie storeOrigin
  by_cases hset : isSetCookie v.name.val = true
  · rw [if_pos hset, if_pos hset]
    have hcookie := isCookieKey_of_isSetCookie hset
    obtain ⟨h, horigin, hsets⟩ := hv hcookie
    refine ⟨hinv.keyed.replaceStr udmSort _ _, fun w hw => ?_, fun k h' hk => ?_⟩
    · rcases hinv.keyed.mem_replaceStr udmSort hw with ⟨hkey, hval⟩ | ⟨hold, hne⟩
      · refine ⟨h, key v.name.val, ?_, hval ▸ hsets, hcookie, ?_⟩
        · rw [hkey, Function.update_self, horigin]
        · rw [hkey, key_cookieName]
      · rw [Function.update_of_ne hne]
        exact hinv.sets w hold
    · by_cases hk' : k = key (cookieName v.name).val
      · rw [hk', Function.update_self] at hk
        exact hsound _ _ hk
      · rw [Function.update_of_ne hk'] at hk
        exact hinv.sound k h' hk
  · rw [if_neg hset, if_neg hset]
    exact hinv

theorem JarInv.storeCookies {vars : List UdmVar}
    (hinv : JarInv cookies jar) (hsound : ∀ k h, origins k = some h → HeaderSound h)
    (hvars : ∀ v ∈ vars, IsCookieKey (key v.name.val) →
      ∃ h, origins (key v.name.val) = some h ∧ Sets h (key v.name.val) v.val) :
    JarInv (vars.foldl (Http.storeCookie udmSort) cookies) (vars.foldl (storeOrigin origins) jar) := by
  induction vars generalizing cookies jar with
  | nil => exact hinv
  | cons v vars ih =>
    exact ih (hinv.storeCookie hsound (hvars v (List.mem_cons_self ..)))
      fun w hw => hvars w (List.mem_cons_of_mem _ hw)

/-- The invariant of the crawler. -/
structure CrawlInv (s : Crawl) : Prop where
  /-- The cookies of the crawler. -/
  jar : JarInv s.cookies s.jar
  /-- The cookies of the documents. -/
  docs : ∀ d, DocInv (s.docs d) (s.origins d)

theorem keyed_udmVarListInit : Keyed udmVarListInit := ⟨List.Pairwise.nil, List.nodup_nil⟩

theorem crawlInv_init : CrawlInv Crawl.init :=
  ⟨⟨keyed_udmVarListInit, nofun, nofun⟩, fun _ => ⟨keyed_udmVarListInit, nofun, nofun⟩⟩

/-- **One step** keeps the invariant. -/
theorem CrawlInv.step {useCookie : Bool} {s : Crawl} (hinv : CrawlInv s) {e : CrawlEvent} (he : StepSound e) :
    CrawlInv (crawlStep udmSort useCookie s e) := by
  cases e with
  | doc d sections =>
    refine ⟨hinv.jar, fun d' => ?_⟩
    by_cases hd : d' = d
    · subst hd
      simp only [crawlStep, Function.update_self]
      exact ⟨sections.keyed, fun v hv hcookie => absurd hcookie (sections.plain v hv), nofun⟩
    · simp only [crawlStep, Function.update_of_ne hd]
      exact hinv.docs d'
  | response d url buf =>
    have hdoc := @DocInv.parse udmSort ⟨buf, s.docs d, url⟩ _ (hinv.docs d) he
    constructor
    · simp only [crawlStep, response]
      cases useCookie with
      | false => exact hinv.jar
      | true => exact hinv.jar.storeCookies hdoc.sound hdoc.sets
    · intro d'
      by_cases hd : d' = d
      · subst hd
        simp only [crawlStep, response, Function.update_self]
        exact hdoc
      · simp only [crawlStep, response, Function.update_of_ne hd]
        exact hinv.docs d'

/-- **A run** keeps it. -/
theorem Reachable.crawlInv {useCookie : Bool} {s : Crawl} (h : Reachable udmSort useCookie s) : CrawlInv s := by
  induction h with
  | init => exact crawlInv_init
  | step _ he ih => exact ih.step he

/-! ## Requests -/

theorem headerVar_of_headerCookie {c : SetCookie} (h : headerCookie token = some c) :
    headerVar url token = some (cookieVar url c, c.value) := by
  unfold headerCookie at h
  unfold headerVar
  cases hcolon : strchr token 0x3A with
  | none =>
    rw [hcolon] at h
    cases h
  | some x =>
    obtain ⟨name, val⟩ := x
    rw [hcolon] at h
    simp only at h ⊢
    split_ifs at h with hname
    rw [if_pos hname, h]
    rfl

theorem key_eq_append (h : domainMatches hostname domain = true) :
    key hostname = key (hostname.take (hostname.length - domain.length)) ++ key domain := by
  rw [domainMatches, Bool.and_eq_true] at h
  rw [← key_eq_of_strcaseeq h.2, key, key, key, ← List.map_append, List.take_append_drop]

theorem hostMatches_of_domainMatches {domain' : List UInt8} {given : Bool}
    (hmatches : domainMatches hostname domain = true) (hkey : key domain = key domain')
    (h : domain.length = hostname.length ∨
      (given = true ∧ (hostname.take (hostname.length - domain.length)).getLast? = some 0x2E)) :
    HostMatches hostname domain' given := by
  have happend := key_eq_append hmatches
  rcases h with hlen | ⟨hgiven, hdot⟩
  · rw [hlen, Nat.sub_self, List.take_zero] at happend
    exact .inl (happend.trans hkey)
  · obtain ⟨sub, hsub⟩ := List.getLast?_eq_some_iff.1 hdot
    refine .inr ⟨hgiven, key sub, ?_⟩
    rw [happend, hsub, hkey, key, List.map_append, List.append_assoc]
    rfl

/-- The front page of a host. -/
def frontPage (hostname : String) : UdmUrl :=
  ⟨some (bytes "http"), bytes ("//" ++ hostname ++ "/"), none, some (bytes hostname), bytes "/", none, 80, 80⟩

/-- A response. -/
def responseBuf (text : String) : DocBuf := ⟨⟨bytes text ++ [0], false⟩, (bytes text).length, (bytes text).length, none, 0⟩

/-- A document without sections. -/
def noSections : PlainSections := ⟨udmVarListInit, keyed_udmVarListInit, nofun⟩

/-- `a.b.cz` sets a cookie for `.b.cz`. -/
def domainCookie : CrawlEvent :=
  .response 0 (frontPage "a.b.cz") (responseBuf "HTTP/1.0 200 OK\nSet-Cookie: s=1; domain=.b.cz\n\n")

/-- The crawler behind that. -/
def domainCrawl : Crawl :=
  crawlStep byInsertion true (crawlStep byInsertion true Crawl.init (.doc 0 noSections)) domainCookie

theorem stepSound_domainCookie : StepSound domainCookie := by
  have hlines : headerLines (responseBuf "HTTP/1.0 200 OK\nSet-Cookie: s=1; domain=.b.cz\n\n") =
      [bytes "Set-Cookie: s=1; domain=.b.cz"] := by decide +kernel
  intro token htoken
  rw [hlines, List.mem_singleton] at htoken
  subst htoken
  intro name val hvar _ n domain path hsplit
  have hvar' : headerVar (frontPage "a.b.cz") (bytes "Set-Cookie: s=1; domain=.b.cz") =
      some (bytes "Set-Cookie.s@b.cz/", bytes "1") := by decide +kernel
  obtain ⟨rfl, rfl⟩ := Prod.mk.inj (Option.some.inj (hvar'.symm.trans hvar))
  have hsplit' : splitCookie (cookieName (CString.take (bytes "Set-Cookie.s@b.cz/"))).val =
      some (bytes "s", bytes "b.cz", bytes "/") := by decide +kernel
  obtain ⟨rfl, rfl, rfl⟩ := by simpa using hsplit'.symm.trans hsplit
  refine ⟨⟨bytes "s", bytes "1", some (bytes ".b.cz"), none⟩, by decide +kernel, rfl, rfl, bytes "a.b.cz", rfl, ?_⟩
  exact .inr ⟨rfl, bytes "a", rfl⟩

/-- `b.cz` sets a cookie without a domain. -/
def hostCookie : CrawlEvent := .response 0 (frontPage "b.cz") (responseBuf "HTTP/1.0 200 OK\nSet-Cookie: s=1\n\n")

end MnoGoSearch.Http
