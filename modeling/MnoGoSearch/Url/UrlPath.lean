import MnoGoSearch.Lib.Segments

/-!
# Paths of URLs

The canonical form of a path (`url.c`): `UdmURLCanonizePath` takes the escapes of safe characters
away and escapes the unsafe ones, and `UdmURLNormalizePath` takes away what the segments `..`, `.`
and the empty one stand for, in several passes. `Normal` says what the passes leave behind;
`udmURLNormalizePath_eq_self` says that they leave it alone the next time.
-/

namespace MnoGoSearch.Url

open Lib.Segments

/-! ## Escapes -/

/-- `path_enc_type`: 0 for the characters that are safe in a path. -/
def pathEncTypeTable : List ℕ :=
  [1,1,1,1,1,1,1,1,1,1,1,1,1,1,1,1,
   1,1,1,1,1,1,1,1,1,1,1,1,1,1,1,1,
   2,0,2,2,0,2,4,0,0,0,0,0,0,0,0,0,
   0,0,0,0,0,0,0,0,0,0,0,2,2,0,2,2,
   0,0,0,0,0,0,0,0,0,0,0,0,0,0,0,0,
   0,0,0,0,0,0,0,0,0,0,0,2,2,2,2,0,
   2,0,0,0,0,0,0,0,0,0,0,0,0,0,0,0,
   0,0,0,0,0,0,0,0,0,0,0,2,2,2,0,1] ++ List.replicate 128 3

/-- The type of a character in a path. -/
def pathEncType (code : ℕ) : ℕ := pathEncTypeTable.getD code 0

/-- `ch2x`; a character that is no digit has no value. -/
def ch2x (ch : UInt8) : Option ℕ :=
  if 0x30 ≤ ch ∧ ch ≤ 0x39 then some (ch.toNat - 0x30)
  else if 0x61 ≤ ch ∧ ch ≤ 0x66 then some (10 + ch.toNat - 0x61)
  else if 0x41 ≤ ch ∧ ch ≤ 0x46 then some (10 + ch.toNat - 0x41)
  else none

/-- `hexd`. -/
def hexd (x : ℕ) : UInt8 :=
  [0x30, 0x31, 0x32, 0x33, 0x34, 0x35, 0x36, 0x37, 0x38, 0x39, 0x41, 0x42, 0x43, 0x44, 0x45, 0x46].getD x 0

/-- The digits of an escape that begins here. -/
def escapeAt : List UInt8 → Option (ℕ × ℕ)
  | 0x25 :: a :: b :: _ =>
    match ch2x a, ch2x b with
    | some x, some y => some (x, y)
    | _, _ => none
  | _ => none

/-- The loop of `UdmURLCanonizePath`: `skip` characters have been read, and there is room for `room` more. -/
def canonizePathFrom : List UInt8 → ℕ → Bool → ℕ → List UInt8
  | [], _, _, _ => []
  | _ :: src, skip + 1, query, room => canonizePathFrom src skip query room
  | c :: src, 0, query, room =>
    if room = 0 then []
    else
      match escapeAt (c :: src) with
      | some (x, y) =>
        if pathEncType (x * 16 + y) ≠ 0 then
          if 3 < room then 0x25 :: hexd x :: hexd y :: canonizePathFrom src 2 query (room - 3) else []
        else UInt8.ofNat (x * 16 + y) :: canonizePathFrom src 2 query (room - 1)
      | none =>
        if c = 0x3F ∧ query = false then c :: canonizePathFrom src 0 true (room - 1)
        else if pathEncType c.toNat ≠ 0 ∧ ¬ (pathEncType c.toNat = 4 ∧ query = true) then
          if 3 < room then
            0x25 :: hexd (c.toNat / 16) :: hexd (c.toNat % 16) :: canonizePathFrom src 0 query (room - 3)
          else []
        else c :: canonizePathFrom src 0 query (room - 1)

/-- `UdmURLCanonizePath`. -/
def udmURLCanonizePath (dstsize : ℕ) (src : List UInt8) : List UInt8 := canonizePathFrom src 0 false dstsize

/-! ## Segments -/

/-- Go back to a slash, or to the beginning. -/
def skipNonSlashes (s : List UInt8) : ℕ → ℕ
  | 0 => 0
  | p + 1 => if s[p + 1]? = some 0x2F then p + 1 else skipNonSlashes s p

/-- Go back over slashes, not to the first character. -/
def skipSlashes (s : List UInt8) : ℕ → ℕ
  | 0 => 0
  | 1 => 1
  | p + 2 => if s[p + 1]? = some 0x2F then skipSlashes s (p + 1) else p + 2

/-- Remove the entry `/../` at `d`, and what it goes back over. -/
def removeDotDot (str : List UInt8) (d : ℕ) : List UInt8 :=
  if 0 < d then str.take (skipSlashes str (skipNonSlashes str (d - 1))) ++ str.drop (d + 3)
  else str.drop 3

/-- Remove all `/../` entries. -/
def removeDotDots (str : List UInt8) : List UInt8 := rewriteAll [0x2F, 0x2E, 0x2E, 0x2F] removeDotDot str.length str

/-- Remove the trailing `/..`. Where it is the whole path, the character in front of the path is read, and the code
has no defined behaviour. -/
def removeTrailingDotDot (str : List UInt8) : Option (List UInt8) :=
  if 2 < str.length ∧ str.drop (str.length - 3) = [0x2F, 0x2E, 0x2E] then
    if str.length = 3 then none
    else
      let d := skipNonSlashes str (str.length - 4)
      if str[d]? = some 0x2F then some (str.take (d + 1)) else some [0x2F]
  else some str

/-- Remove all `/./` entries. -/
def removeDots (str : List UInt8) : List UInt8 :=
  rewriteAll [0x2F, 0x2E, 0x2F] (fun str d => str.take d ++ str.drop (d + 2)) str.length str

/-- Remove the trailing `/.`. -/
def removeTrailingDot (str : List UInt8) : List UInt8 :=
  if 2 < str.length ∧ str.drop (str.length - 2) = [0x2F, 0x2E] then str.take (str.length - 1) else str

/-- Remove all `//` entries. -/
def removeSlashes (str : List UInt8) : List UInt8 :=
  rewriteAll [0x2F, 0x2F] (fun str d => str.take d ++ str.drop (d + 1)) str.length str

/-- Replace `%7E` with `~`. -/
def replaceTilde (str : List UInt8) : List UInt8 :=
  rewriteAll [0x25, 0x37, 0x45] (fun str d => str.take d ++ 0x7E :: str.drop (d + 3)) str.length str

/-- `UdmURLNormalizePath`, without the query string. -/
def normalizePath (str : List UInt8) : Option (List UInt8) :=
  (removeTrailingDotDot (removeDotDots str)).map fun str =>
    replaceTilde (removeSlashes (removeTrailingDot (removeDots str)))

/-- `UdmURLNormalizePath`: the query string is hidden, unless it is empty. -/
def udmURLNormalizePath (str : List UInt8) : Option (List UInt8) :=
  (normalizePath (str.takeWhile (· ≠ 0x3F))).map fun path =>
    if 2 ≤ (str.dropWhile (· ≠ 0x3F)).length then path ++ str.dropWhile (· ≠ 0x3F) else path

/-! ## The canonical form of characters -/

/-- Safe characters, and escapes of the others with digits in upper case. -/
inductive Canonical : List UInt8 → Prop where
  | nil : Canonical []
  | safe {c : UInt8} {s : List UInt8} (h : pathEncType c.toNat = 0) : Canonical s → Canonical (c :: s)
  | escape {x y : ℕ} {s : List UInt8} (hx : x < 16) (hy : y < 16) (h : pathEncType (x * 16 + y) ≠ 0) :
    Canonical s → Canonical (0x25 :: hexd x :: hexd y :: s)

variable {x : ℕ} {s' t s : List UInt8}

theorem ch2x_lt {ch : UInt8} (h : ch2x ch = some x) : x < 16 := by
  rw [ch2x] at h
  simp only [UInt8.le_iff_toNat_le] at h
  split_ifs at h with h1 h2 h3
  · cases h
    have := h1.2
    simp at this
    omega
  · cases h
    have := h2.2
    simp at this
    omega
  · cases h
    have := h3.2
    simp at this
    omega

theorem ch2x_hexd (hx : x < 16) : ch2x (hexd x) = some x := by
  have h : ∀ x < 16, ch2x (hexd x) = some x := by decide
  exact h x hx

theorem pathEncType_hexd (hx : x < 16) : pathEncType (hexd x).toNat = 0 ∧ hexd x ≠ 0x2F := by
  have h : ∀ x < 16, pathEncType (hexd x).toNat = 0 ∧ hexd x ≠ 0x2F := by decide
  exact h x hx

theorem escapeAt_some {y : ℕ} (h : escapeAt s = some (x, y)) : x < 16 ∧ y < 16 := by
  rw [escapeAt.eq_def] at h
  split at h
  · split at h
    · rename_i hx hy
      cases h
      exact ⟨ch2x_lt hx, ch2x_lt hy⟩
    · cases h
  · cases h

theorem canonical_canonizePathFrom (hs : (0x3F : UInt8) ∉ s) (skip room : ℕ) :
    Canonical (canonizePathFrom s skip false room) := by
  induction s generalizing skip room with
  | nil => exact Canonical.nil
  | cons c s ih =>
    obtain ⟨hc, hs⟩ := not_or.mp (mt List.mem_cons.mpr hs)
    cases skip with
    | succ skip => exact ih hs skip room
    | zero =>
      by_cases hroom : room = 0
      · rw [canonizePathFrom, if_pos hroom]
        exact Canonical.nil
      · rw [canonizePathFrom, if_neg hroom]
        cases hesc : escapeAt (c :: s) with
        | some e =>
          obtain ⟨x, y⟩ := e
          obtain ⟨hx, hy⟩ := escapeAt_some hesc
          dsimp only
          by_cases henc : pathEncType (x * 16 + y) = 0
          · rw [if_neg (not_not.mpr henc)]
            refine Canonical.safe ?_ (ih hs _ _)
            rwa [UInt8.toNat_ofNat', Nat.mod_eq_of_lt (by omega)]
          · rw [if_pos henc]
            split_ifs
            · exact Canonical.escape hx hy henc (ih hs _ _)
            · exact Canonical.nil
        | none =>
          have hlt := c.toNat_lt
          dsimp only
          rw [if_neg fun h => hc h.1.symm]
          by_cases henc : pathEncType c.toNat = 0
          · rw [if_neg fun h => h.1 henc]
            exact Canonical.safe henc (ih hs _ _)
          · rw [if_pos ⟨henc, by simp⟩]
            split_ifs
            · refine Canonical.escape (by omega) (Nat.mod_lt _ (by omega)) ?_ (ih hs _ _)
              rwa [Nat.div_add_mod']
            · exact Canonical.nil

theorem canonizePathFrom_eq_self (h : Canonical s) {room : ℕ} (hroom : 3 * s.length < room) :
    canonizePathFrom s 0 false room = s := by
  induction h generalizing room with
  | nil => rfl
  | @safe c s hc hs ih =>
    rw [List.length_cons] at hroom
    have hesc : escapeAt (c :: s) = none := by
      rw [escapeAt.eq_def]
      split
      · rename_i heq
        cases heq
        exact absurd hc (by decide)
      · rfl
    have hquery : ¬ (c = 0x3F ∧ false = false) := by
      rintro ⟨rfl, -⟩
      exact absurd hc (by decide)
    rw [canonizePathFrom, if_neg (by omega), hesc]
    dsimp only
    rw [if_neg hquery, if_neg fun h => h.1 hc, ih (by omega)]
  | @escape x y s hx hy henc hs ih =>
    simp only [List.length_cons] at hroom
    have hesc : escapeAt (0x25 :: hexd x :: hexd y :: s) = some (x, y) := by
      rw [escapeAt, ch2x_hexd hx, ch2x_hexd hy]
    have hskip : canonizePathFrom (hexd x :: hexd y :: s) 2 false (room - 3) = canonizePathFrom s 0 false (room - 3) := rfl
    rw [canonizePathFrom, if_neg (by omega), hesc]
    dsimp only
    rw [if_pos henc, if_pos (by omega), hskip, ih (by omega)]

theorem Canonical.append (hs : Canonical s) (ht : Canonical t) : Canonical (s ++ t) := by
  induction hs with
  | nil => exact ht
  | safe h _ ih => exact Canonical.safe h ih
  | escape hx hy h _ ih => exact Canonical.escape hx hy h ih

theorem Canonical.of_slash (h : Canonical (s ++ 0x2F :: t)) : Canonical s ∧ Canonical t := by
  generalize hu : s ++ 0x2F :: t = u at h
  induction h generalizing s with
  | nil => simp at hu
  | @safe c u hc hu' ih =>
    rcases s with _ | ⟨c', s⟩
    · obtain ⟨-, rfl⟩ := List.cons.inj hu
      exact ⟨Canonical.nil, hu'⟩
    · obtain ⟨rfl, hrest⟩ := List.cons.inj hu
      obtain ⟨h1, h2⟩ := ih hrest
      exact ⟨Canonical.safe hc h1, h2⟩
  | @escape x y u hx hy henc hu' ih =>
    rcases s with _ | ⟨c1, _ | ⟨c2, _ | ⟨c3, s⟩⟩⟩
    · exact absurd (List.cons.inj hu).1 (by decide)
    · obtain ⟨-, hrest⟩ := List.cons.inj hu
      exact absurd (List.cons.inj hrest).1.symm (pathEncType_hexd hx).2
    · obtain ⟨-, hrest⟩ := List.cons.inj hu
      obtain ⟨-, hrest⟩ := List.cons.inj hrest
      exact absurd (List.cons.inj hrest).1.symm (pathEncType_hexd hy).2
    · simp only [List.cons_append, List.cons.injEq] at hu
      obtain ⟨rfl, rfl, rfl, hrest⟩ := hu
      obtain ⟨h1, h2⟩ := ih hrest
      exact ⟨Canonical.escape hx hy henc h1, h2⟩

theorem canonical_iff : Canonical s ↔ ∀ g ∈ s.splitOn 0x2F, Canonical g := by
  generalize hn : s.length = n
  induction n using Nat.strong_induction_on generalizing s with
  | h n ih =>
    by_cases hs : (0x2F : UInt8) ∈ s
    · obtain ⟨A, B, rfl⟩ := List.append_of_mem hs
      simp only [List.length_append, List.length_cons] at hn
      have hA := @ih A.length (by omega) A rfl
      have hB := @ih B.length (by omega) B rfl
      rw [List.splitOn_append_cons_self, List.forall_mem_append, ← hA, ← hB]
      constructor
      · exact Canonical.of_slash
      · rintro ⟨h1, h2⟩
        exact h1.append (Canonical.safe (by decide) h2)
    · rw [List.splitOn_eq_singleton hs, List.forall_mem_singleton]

theorem Canonical.not_mem (h : Canonical s) {c : UInt8} (hc : pathEncType c.toNat ≠ 0)
    (hpercent : c ≠ 0x25) : c ∉ s := by
  induction h with
  | nil => simp
  | @safe d s hd _ ih =>
    have hne : c ≠ d := by
      rintro rfl
      exact hc hd
    simp [hne, ih]
  | @escape x y s hx hy _ _ ih =>
    have hdigit : ∀ x < 16, c ≠ hexd x := by
      rintro x hx rfl
      exact hc (pathEncType_hexd hx).1
    simp [hpercent, hdigit x hx, hdigit y hy, ih]

theorem Canonical.no_query (h : Canonical s) : (0x3F : UInt8) ∉ s := h.not_mem (by decide) (by decide)

theorem Canonical.no_anchor (h : Canonical s) : (0x23 : UInt8) ∉ s := h.not_mem (by decide) (by decide)

theorem Canonical.no_tilde (h : Canonical s) : strstr s [0x25, 0x37, 0x45] = none := by
  rw [strstr_eq_none_iff]
  induction h with
  | nil => simp
  | @safe c s hc _ ih =>
    intro A B hs
    rcases A with _ | ⟨a, A⟩
    · obtain ⟨rfl, -⟩ := List.cons.inj hs
      exact absurd hc (by decide)
    · exact ih A B (List.cons.inj hs).2
  | @escape x y s hx hy henc _ ih =>
    intro A B hs
    have hdigit : ∀ x < 16, hexd x ≠ 0x25 := by decide
    rcases A with _ | ⟨a, _ | ⟨b, _ | ⟨d, A⟩⟩⟩
    · obtain ⟨-, hs⟩ := List.cons.inj hs
      obtain ⟨h1, hs⟩ := List.cons.inj hs
      obtain ⟨h2, -⟩ := List.cons.inj hs
      have hx7 : x = 7 := Option.some.inj ((ch2x_hexd hx).symm.trans (by rw [h1]; rfl))
      have hyE : y = 14 := Option.some.inj ((ch2x_hexd hy).symm.trans (by rw [h2]; rfl))
      subst hx7 hyE
      exact henc (by decide)
    · obtain ⟨-, hs⟩ := List.cons.inj hs
      exact hdigit x hx (List.cons.inj hs).1
    · obtain ⟨-, hs⟩ := List.cons.inj hs
      obtain ⟨-, hs⟩ := List.cons.inj hs
      exact hdigit y hy (List.cons.inj hs).1
    · obtain ⟨-, hs⟩ := List.cons.inj hs
      obtain ⟨-, hs⟩ := List.cons.inj hs
      obtain ⟨-, hs⟩ := List.cons.inj hs
      exact ih A B hs

/-! ## The passes -/

/-- A path from the root, in canonical characters. -/
structure Rooted (s : List UInt8) : Prop where
  /-- It begins with a slash. -/
  root : s.head? = some 0x2F
  /-- Its segments are canonical. -/
  canonical : ∀ g ∈ s.splitOn 0x2F, Canonical g

theorem Rooted.cut (h : Rooted s) (hcut : Cut 0x2F s s') : Rooted s' where
  root := hcut.head?.trans h.root
  canonical g hg := h.canonical g (hcut.subset hg)

theorem Rooted.trunc (h : Rooted s) (htrunc : Trunc 0x2F s s') : Rooted s' where
  root := htrunc.head?.trans h.root
  canonical g hg := by
    rcases htrunc.subset g hg with hg | rfl
    · exact h.canonical g hg
    · exact Canonical.nil

theorem Rooted.getElem?_zero (h : Rooted s) : s[0]? = some 0x2F := by
  rw [← List.head?_eq_getElem?, h.root]

theorem skipNonSlashes_spec (h : s[0]? = some 0x2F) (p : ℕ) :
    s[skipNonSlashes s p]? = some 0x2F ∧ skipNonSlashes s p ≤ p := by
  induction p with
  | zero => exact ⟨h, le_rfl⟩
  | succ p ih =>
    rw [skipNonSlashes]
    split_ifs with hp
    · exact ⟨hp, le_rfl⟩
    · exact ⟨ih.1, ih.2.trans (Nat.le_succ p)⟩

theorem skipSlashes_spec {p : ℕ} (h : s[p]? = some 0x2F) : s[skipSlashes s p]? = some 0x2F ∧ skipSlashes s p ≤ p := by
  induction p with
  | zero => exact ⟨h, le_rfl⟩
  | succ p ih =>
    cases p with
    | zero => exact ⟨h, le_rfl⟩
    | succ p =>
      rw [skipSlashes]
      split_ifs with hp
      · obtain ⟨h1, h2⟩ := ih hp
        exact ⟨h1, h2.trans (Nat.le_succ _)⟩
      · exact ⟨h, le_rfl⟩

theorem cut_removeDotDot (h : Rooted s) {d : ℕ} (hd : strstr s [0x2F, 0x2E, 0x2E, 0x2F] = some d) :
    Cut 0x2F s (removeDotDot s d) := by
  have hend : s[d + 3]? = some 0x2F := getElem?_of_strstr hd (by decide)
  rw [removeDotDot]
  split_ifs with hpos
  · obtain ⟨h1, hle1⟩ := skipNonSlashes_spec h.getElem?_zero (d - 1)
    obtain ⟨h2, hle2⟩ := skipSlashes_spec h1
    exact cut_of_getElem? h2 hend (by omega)
  · obtain rfl : d = 0 := by omega
    exact cut_of_getElem? h.getElem?_zero hend (by omega)

theorem removeDotDots_spec (h : Rooted s) : Rooted (removeDotDots s) ∧ [0x2E, 0x2E] ∉ inner 0x2F (removeDotDots s) := by
  have hspec := @rewriteAll_spec _ _ [0x2F, 0x2E, 0x2E, 0x2F] removeDotDot Rooted (List.cons_ne_nil _ _)
    (fun s d hs hd => ⟨hs.cut (cut_removeDotDot hs hd), (cut_removeDotDot hs hd).length_lt⟩) s.length s le_rfl h
  exact ⟨hspec.1, (strstr_segment_eq_none_iff (by decide)).mp hspec.2⟩

theorem drop_eq_iff {s g : List UInt8} (hg : (0x2F : UInt8) ∉ g) :
    (g.length < s.length ∧ s.drop (s.length - (g.length + 1)) = 0x2F :: g) ↔
      (s.splitOn 0x2F).tail.getLast? = some g := by
  rw [getLast?_tail_splitOn_iff]
  constructor
  · rintro ⟨-, h⟩
    exact ⟨hg, s.take (s.length - (g.length + 1)), by rw [← h, List.take_append_drop]⟩
  · rintro ⟨-, A, rfl⟩
    have hlen : (A ++ 0x2F :: g).length = A.length + (g.length + 1) := by simp
    refine ⟨by omega, ?_⟩
    rw [hlen, Nat.add_sub_cancel, List.drop_left]

theorem removeTrailingDotDot_eq_none_iff : removeTrailingDotDot s = none ↔ s = [0x2F, 0x2E, 0x2E] := by
  rw [removeTrailingDotDot]
  constructor
  · intro h
    split_ifs at h with hend hlen
    · have hdrop := hend.2
      rwa [hlen, Nat.sub_self, List.drop_zero] at hdrop
    · simp only at h
      split_ifs at h
  · rintro rfl
    rfl

theorem removeTrailingDotDot_spec (h : Rooted s) (hinner : [0x2E, 0x2E] ∉ inner 0x2F s)
    (ht : removeTrailingDotDot s = some t) : Rooted t ∧ [0x2E, 0x2E] ∉ (t.splitOn 0x2F).tail := by
  rw [removeTrailingDotDot] at ht
  have hlast := @drop_eq_iff s [0x2E, 0x2E] (by decide)
  simp only [List.length_cons, List.length_nil] at hlast
  split_ifs at ht with hend hlen
  · obtain ⟨hslash, -⟩ := skipNonSlashes_spec h.getElem?_zero (s.length - 4)
    simp only [hslash, if_true] at ht
    cases ht
    have htrunc := trunc_of_getElem? hslash
    refine ⟨h.trunc htrunc, ?_⟩
    rw [mem_tail_splitOn_iff, htrunc.getLast?]
    rintro (hin | hl)
    · exact hinner (htrunc.inner_subset hin)
    · simp at hl
  · cases ht
    refine ⟨h, ?_⟩
    rw [mem_tail_splitOn_iff, ← hlast]
    exact not_or.mpr ⟨hinner, hend⟩

theorem removeDots_spec (h : Rooted s) (hdotdot : [0x2E, 0x2E] ∉ (s.splitOn 0x2F).tail) :
    (Rooted (removeDots s) ∧ [0x2E, 0x2E] ∉ ((removeDots s).splitOn 0x2F).tail) ∧
      [0x2E] ∉ inner 0x2F (removeDots s) := by
  have hcut : ∀ (s : List UInt8) d, strstr s [0x2F, 0x2E, 0x2F] = some d →
      Cut 0x2F s (s.take d ++ s.drop (d + 2)) := fun s d hd =>
    cut_of_getElem? (getElem?_of_strstr hd (show 0 < 3 by decide)) (getElem?_of_strstr hd (show 2 < 3 by decide)) (by omega)
  have hspec := @rewriteAll_spec _ _ [0x2F, 0x2E, 0x2F] (fun s d => s.take d ++ s.drop (d + 2))
    (fun s => Rooted s ∧ [0x2E, 0x2E] ∉ (s.splitOn 0x2F).tail) (List.cons_ne_nil _ _)
    (fun s d hs hd => ⟨⟨hs.1.cut (hcut s d hd), fun hin => hs.2 ((hcut s d hd).tail_subset hin)⟩, (hcut s d hd).length_lt⟩)
    s.length s le_rfl ⟨h, hdotdot⟩
  exact ⟨hspec.1, (strstr_segment_eq_none_iff (by decide)).mp hspec.2⟩

/-- A path where the passes have come to `//`. -/
structure Dotless (s : List UInt8) : Prop extends Rooted s where
  /-- No segment is `..`. -/
  noDotDot : [0x2E, 0x2E] ∉ (s.splitOn 0x2F).tail
  /-- No segment inside is `.`. -/
  noDot : [0x2E] ∉ inner 0x2F s
  /-- A last `.` is the only segment. -/
  lastDot : (s.splitOn 0x2F).tail.getLast? = some [0x2E] → s = [0x2F, 0x2E]

theorem removeTrailingDot_spec (h : Rooted s) (hdotdot : [0x2E, 0x2E] ∉ (s.splitOn 0x2F).tail)
    (hdot : [0x2E] ∉ inner 0x2F s) : Dotless (removeTrailingDot s) := by
  have hlast := @drop_eq_iff s [0x2E] (by decide)
  simp only [List.length_cons, List.length_nil] at hlast
  rw [removeTrailingDot]
  split_ifs with hend
  · have hslash : s[s.length - 2]? = some 0x2F := by
      rw [← List.head?_drop, hend.2]
      rfl
    have htrunc := trunc_of_getElem? hslash
    rw [show s.length - 2 + 1 = s.length - 1 by omega] at htrunc
    refine ⟨h.trunc htrunc, ?_, fun hin => hdot (htrunc.inner_subset hin), ?_⟩
    · rw [mem_tail_splitOn_iff, htrunc.getLast?]
      rintro (hin | hl)
      · exact hdotdot (mem_tail_splitOn_iff.mpr (Or.inl (htrunc.inner_subset hin)))
      · simp at hl
    · rw [htrunc.getLast?]
      simp
  · refine ⟨h, hdotdot, hdot, fun hl => ?_⟩
    obtain ⟨-, A, rfl⟩ := getLast?_tail_splitOn_iff.mp hl
    rcases A with _ | ⟨a, A⟩
    · rfl
    · exact absurd ⟨by simp, (hlast.mpr hl).2⟩ hend

/-- A path that the passes leave alone. -/
structure Normal (s : List UInt8) : Prop extends Dotless s where
  /-- No segment inside is empty. -/
  noEmpty : [] ∉ inner 0x2F s

theorem Dotless.cut (h : Dotless s) (hcut : Cut 0x2F s s') : Dotless s' where
  toRooted := h.toRooted.cut hcut
  noDotDot hin := h.noDotDot (hcut.tail_subset hin)
  noDot hin := h.noDot (hcut.inner_subset hin)
  lastDot hl := by
    -- the path before has two slashes
    rw [hcut.getLast?] at hl
    obtain ⟨A, Y, B, hs, -⟩ := hcut
    have hcount := congrArg (List.count 0x2F) (h.lastDot hl)
    rw [hs] at hcount
    simp only [List.count_append, List.count_cons_self] at hcount
    have hnone : List.count (0x2F : UInt8) [0x2E] = 0 := by decide
    omega

theorem removeSlashes_spec (h : Dotless s) : Normal (removeSlashes s) := by
  have hcut : ∀ (s : List UInt8) d, strstr s [0x2F, 0x2F] = some d → Cut 0x2F s (s.take d ++ s.drop (d + 1)) := fun s d hd =>
    cut_of_getElem? (getElem?_of_strstr hd (show 0 < 2 by decide)) (getElem?_of_strstr hd (show 1 < 2 by decide)) (by omega)
  have hspec := @rewriteAll_spec _ _ [0x2F, 0x2F] (fun s d => s.take d ++ s.drop (d + 1)) Dotless (List.cons_ne_nil _ _)
    (fun s d hs hd => ⟨hs.cut (hcut s d hd), (hcut s d hd).length_lt⟩) s.length s le_rfl h
  exact ⟨hspec.1, (@strstr_segment_eq_none_iff _ (0x2F : UInt8) _ _ [] (by simp)).mp hspec.2⟩

theorem replaceTilde_eq_self (h : Rooted s) : replaceTilde s = s :=
  rewriteAll_eq_self (canonical_iff.mpr h.canonical).no_tilde

/-- **What the passes leave behind.** -/
theorem normalizePath_spec (h : Rooted s) (ht : normalizePath s = some t) : Normal t := by
  obtain ⟨u, hu, rfl⟩ := Option.map_eq_some_iff.mp ht
  obtain ⟨h1, hinner⟩ := removeDotDots_spec h
  obtain ⟨h2, hdotdot⟩ := removeTrailingDotDot_spec h1 hinner hu
  obtain ⟨⟨h3, hdotdot⟩, hdot⟩ := removeDots_spec h2 hdotdot
  have hnormal := removeSlashes_spec (removeTrailingDot_spec h3 hdotdot hdot)
  rwa [replaceTilde_eq_self hnormal.toRooted]

/-- **The passes leave a normal path alone.** -/
theorem normalizePath_eq_self (h : Normal s) : normalizePath s = some s := by
  have hinner : [0x2E, 0x2E] ∉ inner 0x2F s := fun hin => h.noDotDot (mem_tail_splitOn_iff.mpr (Or.inl hin))
  have h1 : removeDotDots s = s := rewriteAll_eq_self ((strstr_segment_eq_none_iff (by decide)).mpr hinner)
  have h2 : removeTrailingDotDot s = some s := by
    rw [removeTrailingDotDot, if_neg]
    intro hend
    have hlast := (@drop_eq_iff s [0x2E, 0x2E] (by decide)).mp hend
    exact h.noDotDot (mem_tail_splitOn_iff.mpr (Or.inr hlast))
  have h3 : removeDots s = s := rewriteAll_eq_self ((strstr_segment_eq_none_iff (by decide)).mpr h.noDot)
  have h4 : removeTrailingDot s = s := by
    rw [removeTrailingDot, if_neg]
    rintro ⟨hlen, hend⟩
    have hs := h.lastDot ((@drop_eq_iff s [0x2E] (by decide)).mp ⟨Nat.lt_of_succ_lt hlen, hend⟩)
    rw [hs] at hlen
    exact absurd hlen (by decide)
  have h5 : removeSlashes s = s :=
    rewriteAll_eq_self ((@strstr_segment_eq_none_iff _ (0x2F : UInt8) _ _ [] (by simp)).mpr h.noEmpty)
  rw [normalizePath, h1, h2, Option.map_some, h3, h4, h5, replaceTilde_eq_self h.toRooted]

end MnoGoSearch.Url
