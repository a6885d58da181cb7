import MnoGoSearch.Lib.Written
import MnoGoSearch.Url.Idempotent
import Mathlib

/-!
# The buffers of a URL

`UdmURLParse` allocates as many bytes for the path and for the file name as the path could have with
every character escaped, and `UdmURLCanonize` has ten bytes for the port (`url.c`). Here the passes and
the query string are written in place, with how far they come. `fit_iff`: the two allocated buffers are
always large enough, the one of the port is for a port of nine characters.

Some things are not defined by the language: what is in front of the path, where `/..` is the whole of
it, and the value of `atoi` for a number that is not an `int`. They are parameters, `before` and `other`.
-/

namespace MnoGoSearch.Url

open Lib Lib.Segments

/-! ## The passes, in place -/

/-- `removeDotDot`, in place. -/
def removeDotDotIn (b : Written UInt8) (d : ℕ) : Written UInt8 :=
  if 0 < d then b.puts (skipSlashes b.str (skipNonSlashes b.str (d - 1))) (b.str.drop (d + 3))
  else b.puts 0 (b.str.drop 3)

/-- `removeTrailingDotDot`, in place. -/
def removeTrailingDotDotIn (before : UInt8) (b : Written UInt8) : Written UInt8 :=
  if 2 < b.str.length ∧ b.str.drop (b.str.length - 3) = [0x2F, 0x2E, 0x2E] then
    if b.str.length = 3 then if before = 0x2F then b.puts 0 [] else b.puts 0 [0x2F]
    else
      let d := skipNonSlashes b.str (b.str.length - 4)
      if b.str[d]? = some 0x2F then b.puts (d + 1) [] else b.puts 0 [0x2F]
  else b

/-- `removeTrailingDot`, in place. -/
def removeTrailingDotIn (b : Written UInt8) : Written UInt8 :=
  if 2 < b.str.length ∧ b.str.drop (b.str.length - 2) = [0x2F, 0x2E] then b.puts (b.str.length - 1) [] else b

/-- The loop of a pass, in place. -/
def loopIn (w : List UInt8) (f : Written UInt8 → ℕ → Written UInt8) (b : Written UInt8) : Written UInt8 :=
  b.rewriteAll w f b.str.length

/-- `normalizePath`, in place. -/
def normalizePathIn (before : UInt8) (b : Written UInt8) : Written UInt8 :=
  let b := removeTrailingDotDotIn before (loopIn [0x2F, 0x2E, 0x2E, 0x2F] removeDotDotIn b)
  let b := removeTrailingDotIn (loopIn [0x2F, 0x2E, 0x2F] (fun b d => b.puts d (b.str.drop (d + 2))) b)
  let b := loopIn [0x2F, 0x2F] (fun b d => b.puts d (b.str.drop (d + 1))) b
  loopIn [0x25, 0x37, 0x45] (fun b d => b.puts d (0x7E :: b.str.drop (d + 3))) b

/-- `UdmURLNormalizePath`, in place: the query string is hidden, unless it is empty. -/
def udmURLNormalizePathIn (before : UInt8) (b : Written UInt8) : Written UInt8 :=
  match strchr b.str 0x3F with
  | none => normalizePathIn before b
  | some (path, query) =>
    let b := normalizePathIn before (b.puts path.length [])
    if query = [] then b else b.puts b.str.length (0x3F :: query)

theorem skipNonSlashes_le (s : List UInt8) (p : ℕ) : skipNonSlashes s p ≤ p := by
  induction p with
  | zero => exact le_rfl
  | succ p ih =>
    rw [skipNonSlashes]
    split_ifs
    · exact le_rfl
    · exact ih.trans (Nat.le_succ p)

theorem skipSlashes_le (s : List UInt8) (p : ℕ) : skipSlashes s p ≤ p := by
  induction p with
  | zero => exact le_rfl
  | succ p ih =>
    cases p with
    | zero => exact le_rfl
    | succ p =>
      rw [skipSlashes]
      split_ifs
      · exact ih.trans (Nat.le_succ _)
      · exact le_rfl

variable {d : ℕ} {src : List UInt8} {before : UInt8} {b : Written UInt8}

theorem add_le_of_strstr {s w : List UInt8} (h : strstr s w = some d) : d + w.length ≤ s.length := by
  obtain ⟨A, B, rfl, rfl⟩ := strstr_some h
  simp only [List.length_append]
  omega

theorem str_removeDotDotIn (b : Written UInt8) (d : ℕ) : (removeDotDotIn b d).str = removeDotDot b.str d := by
  rw [removeDotDotIn, removeDotDot]
  split_ifs
  · rfl
  · rfl

theorem shrinks_removeDotDotIn (h : strstr b.str [0x2F, 0x2E, 0x2E, 0x2F] = some d) :
    b.Shrinks (removeDotDotIn b d) := by
  have hend := add_le_of_strstr h
  simp only [List.length_cons, List.length_nil] at hend
  have hle := (skipSlashes_le b.str (skipNonSlashes b.str (d - 1))).trans (skipNonSlashes_le b.str (d - 1))
  rw [removeDotDotIn]
  split_ifs with hd
  · apply Written.shrinks_puts
    rw [List.length_drop]
    omega
  · apply Written.shrinks_puts
    rw [List.length_drop]
    omega

theorem str_removeTrailingDotDotIn {before : UInt8} {b : Written UInt8} {s : List UInt8}
    (h : removeTrailingDotDot b.str = some s) : (removeTrailingDotDotIn before b).str = s := by
  rw [removeTrailingDotDot] at h
  rw [removeTrailingDotDotIn]
  by_cases hend : 2 < b.str.length ∧ b.str.drop (b.str.length - 3) = [0x2F, 0x2E, 0x2E]
  · rw [if_pos hend] at h ⊢
    by_cases hlen : b.str.length = 3
    · rw [if_pos hlen] at h
      cases h
    · rw [if_neg hlen] at h ⊢
      dsimp only at h ⊢
      split_ifs at h ⊢ with hslash
      · cases h
        exact List.append_nil _
      · cases h
        rfl
  · rw [if_neg hend] at h ⊢
    exact Option.some.inj h

theorem shrinks_removeTrailingDotDotIn (before : UInt8) (b : Written UInt8) :
    b.Shrinks (removeTrailingDotDotIn before b) := by
  have hle := skipNonSlashes_le b.str (b.str.length - 4)
  rw [removeTrailingDotDotIn]
  split_ifs with hend hlen
  · exact Written.shrinks_puts (Nat.zero_le _)
  · exact Written.shrinks_puts (by simp only [List.length_singleton]; omega)
  · dsimp only
    split_ifs
    · exact Written.shrinks_puts (by simp only [List.length_nil]; omega)
    · exact Written.shrinks_puts (by simp only [List.length_singleton]; omega)
  · exact Written.Shrinks.refl b

theorem str_removeTrailingDotIn (b : Written UInt8) : (removeTrailingDotIn b).str = removeTrailingDot b.str := by
  rw [removeTrailingDotIn, removeTrailingDot]
  split_ifs
  · exact List.append_nil _
  · rfl

theorem shrinks_removeTrailingDotIn (b : Written UInt8) : b.Shrinks (removeTrailingDotIn b) := by
  rw [removeTrailingDotIn]
  split_ifs with hend
  · exact Written.shrinks_puts (by simp only [List.length_nil]; omega)
  · exact Written.Shrinks.refl b

theorem str_normalizePathIn {s : List UInt8} (h : normalizePath b.str = some s) :
    (normalizePathIn before b).str = s := by
  obtain ⟨t, ht, rfl⟩ := Option.map_eq_some_iff.mp h
  have h1 : (loopIn [0x2F, 0x2E, 0x2E, 0x2F] removeDotDotIn b).str = removeDotDots b.str :=
    Written.str_rewriteAll str_removeDotDotIn _ b
  have h2 := @str_removeTrailingDotDotIn before (loopIn [0x2F, 0x2E, 0x2E, 0x2F] removeDotDotIn b) t (by rw [h1, ht])
  rw [normalizePathIn]
  generalize removeTrailingDotDotIn before (loopIn [0x2F, 0x2E, 0x2E, 0x2F] removeDotDotIn b) = b at h2 ⊢
  have h3 : (loopIn [0x2F, 0x2E, 0x2F] (fun b d => b.puts d (b.str.drop (d + 2))) b).str = removeDots t := by
    rw [removeDots, ← h2]
    exact Written.str_rewriteAll (fun _ _ => rfl) _ b
  have h4 := str_removeTrailingDotIn (loopIn [0x2F, 0x2E, 0x2F] (fun b d => b.puts d (b.str.drop (d + 2))) b)
  rw [h3] at h4
  generalize removeTrailingDotIn (loopIn [0x2F, 0x2E, 0x2F] (fun b d => b.puts d (b.str.drop (d + 2))) b) = b at h4 ⊢
  have h5 : (loopIn [0x2F, 0x2F] (fun b d => b.puts d (b.str.drop (d + 1))) b).str =
      removeSlashes (removeTrailingDot (removeDots t)) := by
    rw [removeSlashes, ← h4]
    exact Written.str_rewriteAll (fun _ _ => rfl) _ b
  rw [← h5, replaceTilde]
  exact Written.str_rewriteAll (fun _ _ => rfl) _ _

theorem shrinks_loopIn {w : List UInt8} {f : Written UInt8 → ℕ → Written UInt8}
    (hf : ∀ (b : Written UInt8) d, strstr b.str w = some d → b.Shrinks (f b d)) (b : Written UInt8) :
    b.Shrinks (loopIn w f b) :=
  Written.shrinks_rewriteAll hf _ b

/-- **The passes write nothing behind the path.** -/
theorem shrinks_normalizePathIn (before : UInt8) (b : Written UInt8) : b.Shrinks (normalizePathIn before b) := by
  have hdrop : ∀ {w : List UInt8} {k : ℕ}, k ≤ w.length → ∀ (b : Written UInt8) d, strstr b.str w = some d →
      b.Shrinks (b.puts d (b.str.drop (d + k))) := by
    intro w k hk b d h
    have hend := add_le_of_strstr h
    apply Written.shrinks_puts
    rw [List.length_drop]
    omega
  have htilde : ∀ (b : Written UInt8) d, strstr b.str [0x25, 0x37, 0x45] = some d →
      b.Shrinks (b.puts d (0x7E :: b.str.drop (d + 3))) := by
    intro b d h
    have hend := add_le_of_strstr h
    simp only [List.length_cons, List.length_nil] at hend
    apply Written.shrinks_puts
    rw [List.length_cons, List.length_drop]
    omega
  rw [normalizePathIn]
  refine (shrinks_loopIn (fun b d => shrinks_removeDotDotIn) b).trans ?_
  refine (shrinks_removeTrailingDotDotIn before _).trans ?_
  refine (shrinks_loopIn (@hdrop [0x2F, 0x2E, 0x2F] 2 (by decide)) _).trans ?_
  refine (shrinks_removeTrailingDotIn _).trans ?_
  exact (shrinks_loopIn (@hdrop [0x2F, 0x2F] 1 (by decide)) _).trans (shrinks_loopIn htilde _)

theorem shrinks_udmURLNormalizePathIn (before : UInt8) (b : Written UInt8) :
    b.Shrinks (udmURLNormalizePathIn before b) := by
  rw [udmURLNormalizePathIn]
  split
  · exact shrinks_normalizePathIn before b
  · rename_i path query heq
    have hlen := congrArg List.length (strchr_some heq).1
    rw [List.length_append, List.length_cons] at hlen
    have hhide : b.Shrinks (b.puts path.length []) := Written.shrinks_puts (by rw [List.length_nil]; omega)
    have hpath := shrinks_normalizePathIn before (b.puts path.length [])
    have hle := hpath.length_le
    rw [Written.str_puts, List.append_nil, List.length_take] at hle
    dsimp only
    split_ifs
    · exact hhide.trans hpath
    · have htop := (hhide.trans hpath).top_eq
      have hroom := b.lt_top
      refine ⟨?_, ?_⟩
      · rw [Written.top_puts_length, htop, List.length_cons]
        omega
      · rw [Written.str_puts, List.take_length, List.length_append, List.length_cons]
        omega

/-! ## The path and the file name -/

/-- The buffers that `UdmURLParse` allocates. -/
structure UrlBuffers where
  /-- `url->path`, where it has been allocated anew. -/
  path : Option (Written UInt8)
  /-- `url->filename`. -/
  filename : Option (Written UInt8)

/-- `UdmURLQueryStringAppend`, in place. -/
def udmURLQueryStringAppendIn (filename : Option (Written UInt8)) (query : Option (List UInt8)) : Option (Written UInt8) :=
  match query with
  | some q =>
    let b := filename.getD (Written.new [])
    some (b.puts b.str.length (0x3F :: udmURLQueryStringCanonize q))
  | none => filename

/-- The size of the buffers. -/
def newlen (path : List UInt8) : ℕ := 3 * (cutAnchor path).length + 1

/-- The end of `UdmURLParse`, in place. -/
def parsePathIn (before : UInt8) (path : List UInt8) : UrlBuffers :=
  let query := queryOf (cutAnchor path)
  let name := (cutAnchor path).takeWhile (· ≠ 0x3F)
  if name.head? ≠ some 0x2F ∧ name ≠ [] ∧ name[1]? ≠ some 0x3A then
    let file := if name.take 2 = [0x2E, 0x2F] then name.drop 2 else name
    ⟨none, udmURLQueryStringAppendIn (some (Written.new file)) query⟩
  else
    let b := udmURLNormalizePathIn before (Written.new (udmURLCanonizePath (newlen path) name))
    match splitFile b.str with
    | (dir, some file) => ⟨some (b.puts dir.length []), udmURLQueryStringAppendIn (some (Written.new file)) query⟩
    | (_, none) => ⟨some b, udmURLQueryStringAppendIn none query⟩

theorem str_udmURLQueryStringAppendIn (filename : Option (Written UInt8)) (query : Option (List UInt8)) :
    (udmURLQueryStringAppendIn filename query).map Written.str =
      udmURLQueryStringAppend (filename.map Written.str) query := by
  cases query with
  | none => rfl
  | some q =>
    cases filename with
    | none => rfl
    | some b =>
      rw [udmURLQueryStringAppendIn]
      simp [udmURLQueryStringAppend]

theorem query_not_mem_canonizedPath (path : List UInt8) : (0x3F : UInt8) ∉ canonizedPath path :=
  (canonical_canonizedPath path).no_query

/-- **The buffers hold what `UdmURLParse` says.** -/
theorem parsePathIn_spec {path : List UInt8} {url u : UdmUrl} (h : parsePath url path = .ok u) :
    (parsePathIn before path).path.elim [] Written.str = u.path ∧
      (parsePathIn before path).filename.map Written.str = u.filename := by
  rw [parsePath] at h
  rw [parsePathIn]
  dsimp only at h ⊢
  by_cases hrel : ((cutAnchor path).takeWhile (· ≠ 0x3F)).head? ≠ some 0x2F ∧ (cutAnchor path).takeWhile (· ≠ 0x3F) ≠ [] ∧
      ((cutAnchor path).takeWhile (· ≠ 0x3F))[1]? ≠ some 0x3A
  · rw [if_pos hrel] at h ⊢
    cases h
    exact ⟨rfl, str_udmURLQueryStringAppendIn _ _⟩
  · rw [if_neg hrel] at h ⊢
    have hquery := query_not_mem_canonizedPath path
    rw [udmURLNormalizePath_eq hquery] at h
    cases hpath : normalizePath (canonizedPath path) with
    | none =>
      rw [hpath] at h
      cases h
    | some p =>
      rw [hpath] at h
      cases h
      have hstr : (udmURLNormalizePathIn before (Written.new (canonizedPath path))).str = p := by
        rw [udmURLNormalizePathIn, Written.str_new, strchr_eq_none hquery]
        exact str_normalizePathIn hpath
      rw [canonizedPath, ← newlen] at hstr
      rw [hstr]
      have happend := splitFile_append p
      rcases hfile : splitFile p with ⟨dir, _ | file⟩
      · rw [hfile] at happend
        dsimp only
        rw [Option.elim_some, hstr, str_udmURLQueryStringAppendIn]
        exact ⟨(happend.symm.trans (List.append_nil _)), rfl⟩
      · rw [hfile] at happend
        dsimp only
        rw [Option.elim_some, Written.str_puts, hstr, str_udmURLQueryStringAppendIn, List.append_nil, ← happend]
        exact ⟨List.take_left, rfl⟩

theorem length_canonizePathFrom_le (s : List UInt8) (skip : ℕ) (query : Bool) (room : ℕ) :
    (canonizePathFrom s skip query room).length ≤ 3 * s.length := by
  induction s generalizing skip query room with
  | nil => exact Nat.zero_le _
  | cons c s ih =>
    rw [List.length_cons]
    cases skip with
    | succ skip =>
      have := ih skip query room
      rw [canonizePathFrom]
      omega
    | zero =>
      -- one step writes three characters, one, or none
      have h3 : ∀ a b d skip query room, (a :: b :: d :: canonizePathFrom s skip query room).length ≤ 3 * (s.length + 1) := by
        intro a b d skip query room
        have := ih skip query room
        simp only [List.length_cons]
        omega
      have h1 : ∀ a skip query room, (a :: canonizePathFrom s skip query room).length ≤ 3 * (s.length + 1) := by
        intro a skip query room
        have := ih skip query room
        simp only [List.length_cons]
        omega
      by_cases hroom : room = 0
      · rw [canonizePathFrom, if_pos hroom]
        exact Nat.zero_le _
      · rw [canonizePathFrom, if_neg hroom]
        cases escapeAt (c :: s) with
        | some e =>
          dsimp only
          split_ifs
          · exact h3 _ _ _ _ _ _
          · exact Nat.zero_le _
          · exact h1 _ _ _ _
        | none =>
          dsimp only
          split_ifs
          · exact h1 _ _ _ _
          · exact h3 _ _ _ _ _ _
          · exact Nat.zero_le _
          · exact h1 _ _ _ _

theorem length_udmURLQueryStringCanonize_le (q : List UInt8) : (udmURLQueryStringCanonize q).length ≤ 3 * q.length := by
  induction q with
  | nil => exact Nat.zero_le _
  | cons c q ih =>
    rw [udmURLQueryStringCanonize] at ih ⊢
    rw [List.flatMap_cons, List.length_append, List.length_cons]
    split_ifs
    · simp only [List.length_cons, List.length_nil]
      omega
    · simp only [List.length_singleton]
      omega

theorem length_name_query (s : List UInt8) :
    (s.takeWhile (· ≠ 0x3F)).length + (queryOf s).elim 0 (·.length + 1) ≤ s.length := by
  have hname : (s.takeWhile (· ≠ 0x3F)).length ≤ s.length := (List.takeWhile_prefix _).length_le
  rw [queryOf]
  split
  · rename_i A B heq
    obtain ⟨hs, hA⟩ := strchr_some heq
    split_ifs
    · exact hname
    · have hne : ∀ b ∈ A, decide (b ≠ 0x3F) = true := fun b hb => by simpa using fun hbc : b = 0x3F => hA (hbc ▸ hb)
      rw [hs, List.takeWhile_append_of_pos hne, List.takeWhile_cons_of_neg (by decide), List.append_nil, Option.elim_some,
        List.length_append, List.length_cons]
  · exact hname

theorem top_udmURLQueryStringAppendIn_le {filename : Option (Written UInt8)} {query : Option (List UInt8)} {n k : ℕ}
    (hname : ∀ b ∈ filename, b.top ≤ 3 * k + 1) (hroom : k + query.elim 0 (·.length + 1) ≤ n) :
    ∀ b ∈ udmURLQueryStringAppendIn filename query, b.top ≤ 3 * n + 1 := by
  intro b hb
  cases query with
  | none =>
    have := hname b hb
    omega
  | some q =>
    cases hb
    have hlen := length_udmURLQueryStringCanonize_le q
    have htop : (filename.getD (Written.new [])).top ≤ 3 * k + 1 := by
      cases filename with
      | none => exact Nat.succ_le_succ (Nat.zero_le _)
      | some b => exact hname b rfl
    have hlt := (filename.getD (Written.new [])).lt_top
    rw [Option.elim_some] at hroom
    rw [Written.top_puts_length, List.length_cons]
    omega

theorem length_splitFile {p dir : List UInt8} {file : Option (List UInt8)} (h : splitFile p = (dir, file)) :
    dir.length + (file.getD []).length = p.length := by
  have happend := splitFile_append p
  rw [h] at happend
  rw [← happend, List.length_append]

/-- **The buffers of the path and of the file name are large enough.** -/
theorem top_parsePathIn_le (before : UInt8) (path : List UInt8) :
    (∀ b ∈ (parsePathIn before path).path, b.top ≤ newlen path) ∧
      ∀ b ∈ (parsePathIn before path).filename, b.top ≤ newlen path := by
  have hroom := length_name_query (cutAnchor path)
  generalize hname : (cutAnchor path).takeWhile (· ≠ 0x3F) = name at hroom
  have hnew : newlen path = 3 * (cutAnchor path).length + 1 := rfl
  rw [parsePathIn]
  dsimp only
  rw [hname]
  by_cases hrel : name.head? ≠ some 0x2F ∧ name ≠ [] ∧ name[1]? ≠ some 0x3A
  · rw [if_pos hrel]
    refine ⟨by simp, top_udmURLQueryStringAppendIn_le (fun b hb => ?_) hroom⟩
    cases hb
    split_ifs
    · rw [Written.top_new, List.length_drop]
      omega
    · rw [Written.top_new]
      omega
  · rw [if_neg hrel]
    have hcanonize : (udmURLCanonizePath (newlen path) name).length ≤ 3 * name.length :=
      length_canonizePathFrom_le name 0 false _
    have hnormalize := shrinks_udmURLNormalizePathIn before (Written.new (udmURLCanonizePath (newlen path) name))
    generalize udmURLNormalizePathIn before (Written.new (udmURLCanonizePath (newlen path) name)) = b at hnormalize ⊢
    have htop := hnormalize.top_eq
    have hlen := hnormalize.length_le
    rw [Written.top_new] at htop
    rw [Written.str_new] at hlen
    rcases hfile : splitFile b.str with ⟨dir, _ | file⟩
    · refine ⟨fun b' hb' => ?_, top_udmURLQueryStringAppendIn_le (by simp) hroom⟩
      cases hb'
      omega
    · have hparts := length_splitFile hfile
      rw [Option.getD_some] at hparts
      refine ⟨fun b' hb' => ?_, top_udmURLQueryStringAppendIn_le (fun b' hb' => ?_) hroom⟩
      · cases hb'
        have hcut : b.Shrinks (b.puts dir.length []) := Written.shrinks_puts (by rw [List.length_nil]; omega)
        rw [hcut.top_eq]
        omega
      · cases hb'
        rw [Written.top_new]
        omega

/-! ## The port -/

/-- `atoi`, with `other` for the numbers that are not `int`. -/
def atoiOr (other : List UInt8 → ℤ) (s : List UInt8) : ℤ := (atoi s).getD (other s)

/-- What `UdmURLParse` knows when it comes to the path. -/
structure UrlHead where
  /-- The schema, in lower case. -/
  schema : Option (List UInt8)
  port : ℤ
  defaultPort : ℤ
  /-- The path, as it stands in the URL. -/
  path : List UInt8

/-- `UdmURLParse` up to the path; there is none for a URL that is bad. -/
def parseHead (other : List UInt8 → ℤ) (src : List UInt8) : Option UrlHead :=
  match splitSchema src with
  | none => some ⟨none, 0, 0, src⟩
  | some (name, specific) =>
    let schema := name.map tolower
    let defaultPort := getDefaultPort schema
    if specific.take 2 = [0x2F, 0x2F] then
      let host := splitPort (splitAuth (splitHost (specific.drop 2)).1).2
      if host.1.all hostnameValid then
        some ⟨some schema, host.2.elim 0 (atoiOr other), defaultPort, (splitHost (specific.drop 2)).2⟩
      else none
    else if strcaseeq schema (bytes "mailto") || strcaseeq schema (bytes "javascript") then none
    else if strcaseeq schema (bytes "file") || strcaseeq schema (bytes "exec") || strcaseeq schema (bytes "cgi") ||
        strcaseeq schema (bytes "htdb") then
      some ⟨some schema, 0, defaultPort, specific⟩
    else if strcaseeq schema (bytes "news") then some ⟨some schema, 0, 119, 0x2F :: specific⟩
    else none

/-- `UdmURLParse`, in place. -/
def udmURLParseIn (before : UInt8) (other : List UInt8 → ℤ) (src : List UInt8) : Option (UrlHead × UrlBuffers) :=
  (parseHead other src).map fun head => (head, parsePathIn before head.path)

/-- The text that `UdmURLCanonize` writes to `port`, where it writes one. -/
def UrlHead.writtenPort (head : UrlHead) : Option (List UInt8) :=
  match head.schema with
  | none => none
  | some schema =>
    if schema = bytes "mailto" ∨ schema = bytes "javascript" ∨ schema = bytes "htdb" then none
    else if head.port ≠ 0 ∧ head.port ≠ head.defaultPort then some (decText head.port)
    else none

variable {head : UrlHead}

/-- All that is written for a URL fits in its buffer, the port with its zero. -/
def Fit (before : UInt8) (other : List UInt8 → ℤ) (src : List UInt8) : Prop :=
  ∀ head buffers, udmURLParseIn before other src = some (head, buffers) →
    (∀ b ∈ buffers.path, b.top ≤ newlen head.path) ∧ (∀ b ∈ buffers.filename, b.top ≤ newlen head.path) ∧
      ∀ text ∈ head.writtenPort, text.length + 1 ≤ 10

/-- The number behind the host, where it is written out, has at most nine characters. -/
def PortShort (other : List UInt8 → ℤ) (src : List UInt8) : Prop :=
  ∀ name specific hostname text, splitSchema src = some (name, specific) → specific.take 2 = [0x2F, 0x2F] →
    splitPort (splitAuth (splitHost (specific.drop 2)).1).2 = (hostname, some text) → hostname.all hostnameValid = true →
    name.map tolower ≠ bytes "mailto" → name.map tolower ≠ bytes "javascript" → name.map tolower ≠ bytes "htdb" →
    -99999999 ≤ atoiOr other text ∧ atoiOr other text ≤ 999999999

theorem lt_length_natDigits {fuel n k : ℕ} (hfuel : n < fuel) (h : 10 ^ k ≤ n) : k < (natDigits fuel n).length := by
  induction k generalizing fuel n with
  | zero => exact List.length_pos_of_ne_nil (natDigits_ne_nil hfuel)
  | succ k ih =>
    obtain ⟨fuel, rfl⟩ := Nat.exists_eq_add_of_le' (Nat.lt_of_le_of_lt (Nat.zero_le n) hfuel)
    have hten : 10 ≤ n := (Nat.le_mul_of_pos_left 10 (Nat.pow_pos (show 0 < 10 by decide))).trans (by rwa [Nat.pow_succ] at h)
    have hdiv : 10 ^ k ≤ n / 10 := by
      rw [Nat.le_div_iff_mul_le (by decide)]
      rwa [Nat.pow_succ] at h
    have := @ih fuel (n / 10) (by omega) hdiv
    rw [natDigits, if_neg (by omega), List.length_append, List.length_singleton]
    omega

theorem length_decText_iff (p : ℤ) : (decText p).length + 1 ≤ 10 ↔ -99999999 ≤ p ∧ p ≤ 999999999 := by
  cases p with
  | ofNat n =>
    rw [decText]
    constructor
    · intro h
      by_contra hout
      have := @lt_length_natDigits (n + 1) n 9 (Nat.lt_succ_self n) (by simp at hout; omega)
      omega
    · intro h
      have := @length_natDigits_le (n + 1) n 8 (by simp at h; omega)
      omega
  | negSucc n =>
    rw [decText, List.length_cons]
    constructor
    · intro h
      by_contra hout
      have := @lt_length_natDigits (n + 2) (n + 1) 8 (Nat.lt_succ_self _) (by omega)
      omega
    · intro h
      have := @length_natDigits_le (n + 2) (n + 1) 7 (by omega)
      omega

theorem getDefaultPort_range (schema : List UInt8) : -99999999 ≤ getDefaultPort schema ∧ getDefaultPort schema ≤ 999999999 := by
  rw [getDefaultPort]
  split_ifs <;> decide

theorem range_of_writtenPort {schema : List UInt8} (hschema : head.schema = some schema)
    (hdefault : head.defaultPort = getDefaultPort schema) (hmailto : schema ≠ bytes "mailto")
    (hjavascript : schema ≠ bytes "javascript") (hhtdb : schema ≠ bytes "htdb")
    (h : ∀ text ∈ head.writtenPort, text.length + 1 ≤ 10) : -99999999 ≤ head.port ∧ head.port ≤ 999999999 := by
  rw [UrlHead.writtenPort, hschema] at h
  dsimp only at h
  rw [if_neg (by simp [hmailto, hjavascript, hhtdb])] at h
  by_cases hzero : head.port = 0
  · rw [hzero]
    decide
  · by_cases hsame : head.port = head.defaultPort
    · rw [hsame, hdefault]
      exact getDefaultPort_range schema
    · rw [if_pos ⟨hzero, hsame⟩] at h
      exact (length_decText_iff head.port).mp (h _ rfl)

theorem exists_of_writtenPort {other : List UInt8 → ℤ} {text : List UInt8}
    (hhead : parseHead other src = some head) (htext : text ∈ head.writtenPort) :
    ∃ name specific hostname t, splitSchema src = some (name, specific) ∧ specific.take 2 = [0x2F, 0x2F] ∧
      splitPort (splitAuth (splitHost (specific.drop 2)).1).2 = (hostname, some t) ∧ hostname.all hostnameValid = true ∧
      name.map tolower ≠ bytes "mailto" ∧ name.map tolower ≠ bytes "javascript" ∧ name.map tolower ≠ bytes "htdb" ∧
      text = decText (atoiOr other t) := by
  have hnone : head.port = 0 → text ∉ head.writtenPort := by
    intro hport hmem
    rw [UrlHead.writtenPort, hport] at hmem
    split at hmem
    · cases hmem
    · split_ifs at hmem with _ hne
      · cases hmem
      · exact hne.1 rfl
      · cases hmem
  rw [parseHead] at hhead
  rcases hschema : splitSchema src with _ | ⟨name, specific⟩
  · rw [hschema] at hhead
    cases hhead
    exact absurd htext (hnone rfl)
  · rw [hschema] at hhead
    dsimp only at hhead
    split_ifs at hhead with hslashes hvalid
    · cases hhead
      rcases hport : splitPort (splitAuth (splitHost (specific.drop 2)).1).2 with ⟨hostname, _ | t⟩
      · rw [hport] at htext hnone
        exact absurd htext (hnone rfl)
      · rw [hport] at htext hvalid
        rw [UrlHead.writtenPort] at htext
        dsimp only at htext
        split_ifs at htext with hother hshown
        · cases htext
        · simp only [not_or] at hother
          exact ⟨name, specific, hostname, t, rfl, hslashes, hport, hvalid, hother.1, hother.2.1, hother.2.2,
            (Option.some.inj htext).symm⟩
        · cases htext
    · cases hhead
      exact absurd htext (hnone rfl)
    · cases hhead
      exact absurd htext (hnone rfl)

/-- **The buffers of a URL are large enough exactly where its port is short.** -/
theorem fit_iff (before : UInt8) (other : List UInt8 → ℤ) (src : List UInt8) : Fit before other src ↔ PortShort other src := by
  constructor
  · intro hfit name specific hostname text hschema hslashes hport hvalid hmailto hjavascript hhtdb
    have hhead : parseHead other src = some ⟨some (name.map tolower), atoiOr other text, getDefaultPort (name.map tolower),
        (splitHost (specific.drop 2)).2⟩ := by
      rw [parseHead, hschema]
      dsimp only
      rw [if_pos hslashes, hport, if_pos hvalid]
      rfl
    obtain ⟨-, -, htext⟩ := hfit _ _ (by rw [udmURLParseIn, hhead]; rfl)
    exact range_of_writtenPort rfl rfl hmailto hjavascript hhtdb htext
  · intro hshort head buffers hparse
    rw [udmURLParseIn, Option.map_eq_some_iff] at hparse
    obtain ⟨head', hhead, heq⟩ := hparse
    cases heq
    obtain ⟨hpath, hfilename⟩ := top_parsePathIn_le before head.path
    refine ⟨hpath, hfilename, fun text htext => ?_⟩
    obtain ⟨name, specific, hostname, t, hschema, hslashes, hport, hvalid, hmailto, hjavascript, hhtdb, rfl⟩ :=
      exists_of_writtenPort hhead htext
    apply (length_decText_iff _).mpr
    exact hshort name specific hostname t hschema hslashes hport hvalid hmailto hjavascript hhtdb

/-- The port of `http://h:1234567890/` does not fit. -/
theorem not_forall_fit : ¬ ∀ before other src, Fit before other src := by
  intro hall
  obtain ⟨head, hhead⟩ : ∃ head, parseHead (fun _ => 0) (bytes "http://h:1234567890/") = some head := ⟨_, rfl⟩
  obtain ⟨-, -, htext⟩ := hall 0 (fun _ => 0) (bytes "http://h:1234567890/") head _ (by rw [udmURLParseIn, hhead]; rfl)
  have hwritten : (parseHead (fun _ => 0) (bytes "http://h:1234567890/")).bind UrlHead.writtenPort =
      some (bytes "1234567890") := by decide +kernel
  rw [hhead, Option.bind_some] at hwritten
  exact absurd (htext _ hwritten) (by decide)

end MnoGoSearch.Url
