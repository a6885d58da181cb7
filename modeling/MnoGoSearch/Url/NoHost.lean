import MnoGoSearch.Url.Regular

/-!
# URLs without a host

A URL of the schemas `file`, `exec`, `cgi`, `htdb` and `news` may have no host (`url.c`). `UdmURLCanonize` writes
`//` behind the first three all the same, so that the text that is read back has a host, if only an empty one, and
a path from the root. `reparsed_iff` says for which URLs the parts are the same again.
-/

namespace MnoGoSearch.Url

open Lib Lib.Segments

/-! ## Paths behind a drive -/

/-- Some `..` goes back over what stands in front of the first slash; the segments behind it are on a stack, and the
empty ones on the top go away with the one that is gone back over. -/
def UpFromDrive : List (List UInt8) → List (List UInt8) → Prop
  | _, [] => False
  | st, g :: gs =>
    if g = [0x2E, 0x2E] then st = [] ∨ UpFromDrive (st.tail.dropWhile (· = [])) gs else UpFromDrive (g :: st) gs

/-- Whether that is so can be computed. -/
def decidableUpFromDrive : (st gs : List (List UInt8)) → Decidable (UpFromDrive st gs)
  | _, [] => isFalse id
  | st, g :: gs =>
    have := decidableUpFromDrive (st.tail.dropWhile (· = [])) gs
    have := decidableUpFromDrive (g :: st) gs
    inferInstanceAs (Decidable
      (if g = [0x2E, 0x2E] then st = [] ∨ UpFromDrive (st.tail.dropWhile (· = [])) gs else UpFromDrive (g :: st) gs))

instance (st gs : List (List UInt8)) : Decidable (UpFromDrive st gs) := decidableUpFromDrive st gs

variable {h path : List UInt8} {gs : List (List UInt8)}

theorem dropEmpty_of_ne (hne : h ≠ []) (st : List (List UInt8)) : dropEmpty h st = st.dropWhile (· = []) := by
  induction st with
  | nil => rfl
  | cons t st ih =>
    rcases t with _ | ⟨c, t⟩
    · rw [dropEmpty, if_neg fun hroot => hne hroot.1, ih, List.dropWhile_cons_of_pos (by decide)]
    · rw [dropEmpty, List.dropWhile_cons_of_neg (by simp)]

theorem run_root (st gs : List (List UInt8)) : (run [0x2E, 0x2E] goBack ([], st) gs).1 = [] := by
  induction gs generalizing st with
  | nil => rfl
  | cons g gs ih =>
    rcases gs with _ | ⟨y, gs⟩
    · rfl
    · rw [run]
      split_ifs
      · rw [goBack_root]
        exact ih _
      · exact ih _

/-- **The first pass comes to the root, or nearly so, where some `..` goes back over the drive.** -/
theorem run_drive {h : List UInt8} (hne : h ≠ []) {st gs : List (List UInt8)} {x : List UInt8} :
    (UpFromDrive st (gs ++ [x]) → (run [0x2E, 0x2E] goBack (h, st) (gs ++ [x])).1 = [] ∨
        run [0x2E, 0x2E] goBack (h, st) (gs ++ [x]) = (h, [[0x2E, 0x2E]])) ∧
      (¬ UpFromDrive st (gs ++ [x]) →
        ∃ st', run [0x2E, 0x2E] goBack (h, st) (gs ++ [x]) = (h, x :: st') ∧ (x = [0x2E, 0x2E] → st' ≠ [])) := by
  induction gs generalizing st with
  | nil =>
    rw [List.nil_append, UpFromDrive, UpFromDrive, UpFromDrive, or_false]
    constructor
    · intro hup
      split_ifs at hup with hx
      rw [hup, hx]
      exact Or.inr rfl
    · intro hstay
      refine ⟨st, rfl, fun hx => ?_⟩
      rwa [if_pos hx] at hstay
  | cons g gs ih =>
    have hrest : gs ++ [x] ≠ [] := by simp
    rw [List.cons_append, run_cons hrest, UpFromDrive]
    by_cases hdots : g = [0x2E, 0x2E]
    · rw [if_pos hdots, if_pos hdots]
      rcases st with _ | ⟨t, st⟩
      · exact ⟨fun _ => Or.inl (run_root [] _), fun hstay => absurd (Or.inl rfl) hstay⟩
      · rw [goBack, dropEmpty_of_ne hne, List.tail_cons, or_iff_right (List.cons_ne_nil _ _)]
        exact ih
    · rw [if_neg hdots, if_neg hdots]
      exact ih

theorem canonical_join (hh : (0x2F : UInt8) ∉ h) (hgs : Plain 0x2F gs) :
    Canonical (h ++ join 0x2F gs) ↔ Canonical h ∧ ∀ g ∈ gs, Canonical g := by
  rw [canonical_iff, splitOn_join hh hgs, List.forall_mem_cons]

theorem normalizePath_up (hh : (0x2F : UInt8) ∉ h) (hne : h ≠ [])
    (hgs : Plain 0x2F gs) (hcanonical : Canonical (h ++ join 0x2F gs)) (hup : UpFromDrive [] gs) {t : List UInt8}
    (ht : normalizePath (h ++ join 0x2F gs) = some t) : Normal t := by
  have hhead : (0x2F : UInt8) ∉ ([] : List UInt8) := List.not_mem_nil
  rcases List.eq_nil_or_concat gs with rfl | ⟨init, x, rfl⟩
  · exact absurd hup id
  rw [List.concat_eq_append] at *
  have hfirst := removeDotDots_text hh hgs (by simp)
  obtain ⟨h', st, last, hrun, -, hmem⟩ := run_goBack hh hgs (by simp)
  rcases (@run_drive h hne [] init x).1 hup with hroot | hlast
  · -- the path is one from the root before the second pass
    rw [hrun] at hroot
    dsimp only at hroot
    subst hroot
    rw [hrun] at hfirst
    have htext : text 0x2F ([], last :: st) [] = [] ++ join 0x2F (last :: st).reverse := by simp [text]
    have hplain : Plain 0x2F (last :: st).reverse := fun y hy => hgs y (hmem y (List.mem_reverse.mp hy))
    have hrooted : Rooted (text 0x2F ([], last :: st) []) := by
      refine ⟨?_, canonical_iff.mp ?_⟩
      · obtain ⟨y, ys, hys⟩ := List.exists_cons_of_ne_nil (show (last :: st).reverse ≠ [] by simp)
        rw [htext, hys]
        rfl
      · rw [htext, canonical_join hhead hplain]
        exact ⟨Canonical.nil, fun y hy => ((canonical_join hh hgs).mp hcanonical).2 y (hmem y (List.mem_reverse.mp hy))⟩
    have hend := (loopsEnd (h ++ join 0x2F (init ++ [x]))).dotDots
    rw [hfirst] at hend
    have hsame : removeDotDots (text 0x2F ([], last :: st) []) = text 0x2F ([], last :: st) [] := rewriteAll_eq_self hend
    refine normalizePath_spec hrooted ?_
    rw [normalizePath, hsame, ← hfirst]
    exact ht
  · -- the second pass goes back over the drive
    rw [hlast] at hfirst
    have hroot : normalizePath [0x2F] = some [0x2F] := by decide +kernel
    have hplain : Plain (0x2F : UInt8) [[0x2E, 0x2E]] := by
      intro g hg
      rw [List.mem_singleton.mp hg]
      decide
    have hresult : normalizePath (h ++ join 0x2F (init ++ [x])) = some [0x2F] := by
      rw [normalizePath, hfirst, removeTrailingDotDot_text hh hplain, upAtEnd, if_pos rfl, if_neg hne]
      decide +kernel
    rw [hresult] at ht
    cases ht
    refine normalizePath_spec ⟨rfl, fun g hg => ?_⟩ hroot
    have hnil : g ∈ [([] : List UInt8), []] := hg
    simp only [List.mem_cons, List.not_mem_nil, or_false, or_self] at hnil
    rw [hnil]
    exact Canonical.nil

theorem normalizePath_segment (hh : (0x2F : UInt8) ∉ h) (hcanonical : Canonical h) : normalizePath h = some h := by
  have hnone : ∀ w : List UInt8, strstr h (0x2F :: w) = none := by
    intro w
    rw [strstr_eq_none_iff]
    rintro A B rfl
    exact hh (by simp)
  have hend : ∀ (k : ℕ) (w : List UInt8), h.drop k ≠ 0x2F :: w := by
    intro k w hdrop
    exact hh (List.mem_of_mem_drop (by rw [hdrop]; exact List.mem_cons_self))
  have h1 : removeDotDots h = h := rewriteAll_eq_self (hnone _)
  have h2 : removeTrailingDotDot h = some h := by
    rw [removeTrailingDotDot, if_neg fun hdots => hend _ _ hdots.2]
  have h3 : removeDots h = h := rewriteAll_eq_self (hnone _)
  have h4 : removeTrailingDot h = h := by
    rw [removeTrailingDot, if_neg fun hdots => hend _ _ hdots.2]
  have h5 : removeSlashes h = h := rewriteAll_eq_self (hnone _)
  rw [normalizePath, h1, h2, Option.map_some, h3, h4, h5, (replaceTilde_spec h).1, tilde_eq_self hcanonical.no_tilde]

theorem normalizePath_settled {h x : List UInt8} {gs : List (List UInt8)} (hh : (0x2F : UInt8) ∉ h)
    (hgs : Plain 0x2F (gs ++ [x])) (hcanonical : Canonical (h ++ join 0x2F (gs ++ [x])))
    (hinner : ∀ g ∈ gs, Ordinary g ∧ g ≠ [0x2E, 0x2E]) (hdot : x ≠ [0x2E]) (hdotdot : x ≠ [0x2E, 0x2E]) :
    normalizePath (h ++ join 0x2F (gs ++ [x])) = some (h ++ join 0x2F (gs ++ [x])) := by
  have htext : text 0x2F (h, x :: gs.reverse) [] = h ++ join 0x2F (gs ++ [x]) := by simp [text]
  have hplain : Plain 0x2F (x :: gs.reverse) := by
    intro g hg
    refine hgs g (List.mem_append.mpr ?_)
    rcases List.mem_cons.mp hg with rfl | hg
    · exact Or.inr List.mem_cons_self
    · exact Or.inl (List.mem_reverse.mp hg)
  have h1 : removeDotDots (h ++ join 0x2F (gs ++ [x])) = h ++ join 0x2F (gs ++ [x]) := by
    apply rewriteAll_eq_self
    rw [← htext, text_push]
    exact @strstr_text_last _ 0x2F _ (h, gs.reverse) [0x2E, 0x2E] x hh (plain_cons.mp hplain).2
      (fun hmem => (hinner _ (List.mem_reverse.mp hmem)).2 rfl) (by decide) (plain_cons.mp hplain).1
  have hord : ordinary gs.reverse = gs.reverse :=
    List.filter_eq_self.mpr fun g hg => by simpa using (hinner g (List.mem_reverse.mp hg)).1
  rw [normalizePath, h1, ← htext, removeTrailingDotDot_text hh hplain, upAtEnd_of_ne hdotdot, Option.map_some, Option.map_some,
    lastPasses_text hh hplain, hord, List.reverse_reverse, if_neg fun h => hdot h.1, (replaceTilde_spec _).1,
    tilde_eq_self hcanonical.no_tilde, htext]

/-- **Where no `..` goes back over the drive, it stays, and so does the path the next time.** -/
theorem normalizePath_stay (hh : (0x2F : UInt8) ∉ h) (hne : h ≠ [])
    (hgs : Plain 0x2F gs) (hcanonical : Canonical (h ++ join 0x2F gs)) (hstay : ¬ UpFromDrive [] gs) :
    ∃ gs', normalizePath (h ++ join 0x2F gs) = some (h ++ join 0x2F gs') ∧ Canonical (h ++ join 0x2F gs') ∧
      normalizePath (h ++ join 0x2F gs') = some (h ++ join 0x2F gs') := by
  obtain ⟨hcanonicalHead, hcanonicalSegs⟩ := (canonical_join hh hgs).mp hcanonical
  rcases List.eq_nil_or_concat gs with rfl | ⟨init, x, rfl⟩
  · rw [join_nil, List.append_nil]
    exact ⟨[], by simpa using normalizePath_segment hh hcanonicalHead, by simpa using hcanonicalHead,
      by simpa using normalizePath_segment hh hcanonicalHead⟩
  rw [List.concat_eq_append] at *
  obtain ⟨st, hrun, hlast⟩ := (@run_drive h hne [] init x).2 hstay
  obtain ⟨h', st', last, hrun', hclean, hmem⟩ := run_goBack hh hgs (by simp)
  rw [hrun] at hrun'
  cases hrun'
  have hplain : Plain 0x2F (x :: st) := fun y hy => hgs y (hmem y hy)
  have hfirst := removeDotDots_text hh hgs (by simp)
  rw [hrun] at hfirst
  -- what is on the stack behind the second pass
  obtain ⟨y, ys, hup, hsub, hy⟩ : ∃ y ys, upAtEnd (h, x :: st) = some (h, y :: ys) ∧
      (∀ g ∈ y :: ys, g ∈ x :: st ∨ g = []) ∧ y ≠ [0x2E, 0x2E] ∧ [0x2E, 0x2E] ∉ ys := by
    by_cases hx : x = [0x2E, 0x2E]
    · obtain ⟨t, st, rfl⟩ := List.exists_cons_of_ne_nil (hlast hx)
      refine ⟨[], st, by rw [upAtEnd, if_pos hx], fun g hg => ?_, by simp, fun hdots => ?_⟩
      · rcases List.mem_cons.mp hg with hg | hg
        · exact Or.inr hg
        · exact Or.inl (List.mem_cons_of_mem _ (List.mem_cons_of_mem _ hg))
      · exact hclean.gone (List.mem_cons_of_mem _ hdots)
    · exact ⟨x, st, upAtEnd_of_ne hx, fun g hg => Or.inl hg, hx, hclean.gone⟩
  have hsegs : ∀ g ∈ y :: ys, (0x2F : UInt8) ∉ g ∧ Canonical g := by
    intro g hg
    rcases hsub g hg with hg | rfl
    · exact ⟨hplain g hg, hcanonicalSegs g (hmem g hg)⟩
    · exact ⟨List.not_mem_nil, Canonical.nil⟩
  generalize hz : (if y = [0x2E] ∧ (h ≠ [] ∨ ∃ g ∈ ys, g ≠ [0x2E]) then [] else y) = z
  have hzdot : z ≠ [0x2E] ∧ z ≠ [0x2E, 0x2E] ∧ (0x2F : UInt8) ∉ z ∧ Canonical z := by
    rw [← hz]
    split_ifs with hdot
    · exact ⟨by simp, by simp, List.not_mem_nil, Canonical.nil⟩
    · obtain ⟨hslash, hcan⟩ := hsegs y List.mem_cons_self
      exact ⟨fun h' => hdot ⟨h', Or.inl hne⟩, hy.1, hslash, hcan⟩
  have hord : ∀ g ∈ (ordinary ys).reverse, g ∈ ys ∧ Ordinary g := fun g hg => by
    simpa [ordinary] using List.mem_filter.mp (List.mem_reverse.mp hg)
  have hplain' : Plain 0x2F ((ordinary ys).reverse ++ [z]) := by
    intro g hg
    rcases List.mem_append.mp hg with hg | hg
    · exact (hsegs g (List.mem_cons_of_mem _ (hord g hg).1)).1
    · rw [List.mem_singleton.mp hg]
      exact hzdot.2.2.1
  have hcanonical' : Canonical (h ++ join 0x2F ((ordinary ys).reverse ++ [z])) := by
    rw [canonical_join hh hplain']
    refine ⟨hcanonicalHead, fun g hg => ?_⟩
    rcases List.mem_append.mp hg with hg | hg
    · exact (hsegs g (List.mem_cons_of_mem _ (hord g hg).1)).2
    · rw [List.mem_singleton.mp hg]
      exact hzdot.2.2.2
  refine ⟨(ordinary ys).reverse ++ [z], ?_, hcanonical', ?_⟩
  · rw [normalizePath, hfirst, removeTrailingDotDot_text hh hplain, hup, Option.map_some, Option.map_some,
      lastPasses_text hh (fun g hg => (hsegs g hg).1), hz, (replaceTilde_spec _).1, tilde_eq_self hcanonical'.no_tilde]
  · refine normalizePath_settled hh hplain' hcanonical' (fun g hg => ⟨(hord g hg).2, ?_⟩) hzdot.1 hzdot.2.1
    rintro rfl
    exact hy.2 (hord _ hg).1

/-! ## The kinds of paths -/

/-- The path up to the anchor and the query string. -/
def nameOf (path : List UInt8) : List UInt8 := (cutAnchor path).takeWhile (· ≠ 0x3F)

/-- `UdmURLParse` takes the path for a relative one. -/
def Relative (path : List UInt8) : Prop :=
  (nameOf path).head? ≠ some 0x2F ∧ nameOf path ≠ [] ∧ (nameOf path)[1]? ≠ some 0x3A

/-- The path is one from the root, or becomes one: it begins with a drive, and some `..` goes back over that. -/
def FromRoot (path : List UInt8) : Prop :=
  (nameOf path).head? = some 0x2F ∨
    (nameOf path)[1]? = some 0x3A ∧ UpFromDrive [] ((canonizedPath path).splitOn 0x2F).tail

theorem query_not_mem_nameOf (path : List UInt8) : (0x3F : UInt8) ∉ nameOf path := fun hmem => by
  simpa using List.mem_takeWhile_imp hmem

theorem anchor_not_mem_nameOf (path : List UInt8) : (0x23 : UInt8) ∉ nameOf path := fun hmem => by
  simpa using List.mem_takeWhile_imp ((List.takeWhile_prefix _).subset hmem)

theorem head?_splitFile (p : List UInt8) : (splitFile p).1.head? = p.head? := by
  have happend := splitFile_append p
  rcases hdir : (splitFile p).1 with _ | ⟨c, dir⟩
  · rw [splitFile] at hdir
    split_ifs at hdir with hfile
    · -- there is a slash in front of the file
      rw [splitFile, if_pos hfile] at happend
      dsimp only at hdir happend
      rw [hdir, List.nil_append, Option.getD_some] at happend
      have hslash := hfile.1
      rw [← happend, List.mem_reverse] at hslash
      simpa using List.mem_takeWhile_imp hslash
    · have hp : p = [] := hdir
      rw [hp]
  · rw [hdir] at happend
    rw [← happend]
    rfl

theorem canonizePathFrom_drive {a : UInt8} (hquery : a ≠ 0x3F) (rest : List UInt8) {room : ℕ} (hroom : 4 < room) :
    ∃ t, canonizePathFrom (a :: 0x3A :: rest) 0 false room =
      if pathEncType a.toNat = 0 then a :: 0x3A :: t else 0x25 :: hexd (a.toNat / 16) :: hexd (a.toNat % 16) :: t := by
  have hesc : escapeAt (a :: 0x3A :: rest) = none := by
    rw [escapeAt.eq_def]
    split
    · rename_i heq
      obtain ⟨-, heq⟩ := List.cons.inj heq
      obtain ⟨hcolon, -⟩ := List.cons.inj heq
      rw [← hcolon, show ch2x 0x3A = none by decide]
    · rfl
  have hesc' : escapeAt (0x3A :: rest) = none := rfl
  rw [canonizePathFrom, if_neg (by omega), hesc]
  dsimp only
  rw [if_neg fun h => hquery h.1]
  by_cases hsafe : pathEncType a.toNat = 0
  · refine ⟨canonizePathFrom rest 0 false (room - 2), ?_⟩
    rw [if_neg fun h => h.1 hsafe, if_pos hsafe, canonizePathFrom, if_neg (by omega), hesc']
    dsimp only
    rw [if_neg fun h => absurd h.1 (by decide), if_neg fun h => h.1 (by decide)]
    rfl
  · refine ⟨canonizePathFrom (0x3A :: rest) 0 false (room - 3), ?_⟩
    rw [if_pos ⟨hsafe, by simp⟩, if_pos (by omega), if_neg hsafe]

/-- A path behind a drive: what is in front of the first slash has a colon in the second place, unless the first
character is escaped. -/
theorem canonizedPath_drive {a : UInt8} {rest : List UInt8} (hname : nameOf path = a :: 0x3A :: rest)
    (ha : a ≠ 0x2F) :
    ∃ h gs, (canonizedPath path).splitOn 0x2F = h :: gs ∧ h ≠ [] ∧ h.head? ≠ some 0x2F ∧
      (pathEncType a.toNat = 0 ↔ h[1]? = some 0x3A) ∧ 1 < h.length := by
  have hquery : a ≠ 0x3F := by
    rintro rfl
    exact query_not_mem_nameOf path (by rw [hname]; exact List.mem_cons_self)
  have hlen : (nameOf path).length ≤ (cutAnchor path).length := (List.takeWhile_prefix _).length_le
  rw [hname, List.length_cons, List.length_cons] at hlen
  obtain ⟨t, ht⟩ := @canonizePathFrom_drive a hquery rest (3 * (cutAnchor path).length + 1) (by omega)
  have hlt := a.toNat_lt
  obtain ⟨c, d, t, hcd, hc, hd, hsafe⟩ : ∃ c d t, canonizedPath path = c :: d :: t ∧ c ≠ 0x2F ∧ d ≠ 0x2F ∧
      (pathEncType a.toNat = 0 ↔ d = 0x3A) := by
    have hpath : canonizedPath path = canonizePathFrom (a :: 0x3A :: rest) 0 false (3 * (cutAnchor path).length + 1) := by
      rw [← hname]
      rfl
    rw [hpath, ht]
    split_ifs with h0
    · exact ⟨a, 0x3A, t, rfl, ha, by decide, iff_of_true h0 rfl⟩
    · have hdigit : ∀ x < 16, hexd x ≠ 0x2F ∧ hexd x ≠ 0x3A := by decide
      have hx := hdigit (a.toNat / 16) (by omega)
      exact ⟨0x25, _, _, rfl, by decide, hx.1, iff_of_false h0 hx.2⟩
  obtain ⟨h, gs, hsplit⟩ := List.exists_cons_of_ne_nil (List.splitOn_ne_nil 0x2F (canonizedPath path))
  have hjoin := eq_join_of_splitOn hsplit
  rw [hcd] at hjoin
  have hgs : ∀ {e : UInt8} {s : List UInt8}, e ≠ 0x2F → e :: s ≠ join 0x2F gs := by
    rintro e s he heq
    rcases gs with _ | ⟨g, gs⟩
    · cases heq
    · exact he (List.cons.inj heq).1
  rcases h with _ | ⟨c', _ | ⟨d', h⟩⟩
  · exact absurd hjoin (hgs hc)
  · exact absurd (List.cons.inj hjoin).2 (hgs hd)
  · obtain ⟨rfl, hrest⟩ := List.cons.inj hjoin
    obtain ⟨rfl, -⟩ := List.cons.inj hrest
    refine ⟨c :: d :: h, gs, hsplit, List.cons_ne_nil _ _, by simpa using hc, ?_, by simp⟩
    rw [hsafe]
    simp

/-- **What becomes of a path that is not relative**: a normal one from the root, or one that the passes leave alone the
next time. -/
theorem absolute_cases (habsolute : ¬ Relative path) :
    FromRoot path ∧ (∀ p, normalizePath (canonizedPath path) = some p → Normal p) ∨
      ¬ FromRoot path ∧ ∃ p, normalizePath (canonizedPath path) = some p ∧ p.head? ≠ some 0x2F ∧ Canonical p ∧
        normalizePath p = some p ∧ (nameOf path = [] ↔ p = []) ∧
        (p ≠ [] → ((∀ c ∈ (nameOf path).head?, pathEncType c.toNat = 0) ↔ p[1]? = some 0x3A)) := by
  by_cases hroot : (nameOf path).head? = some 0x2F
  · have hhead : path.head? = some 0x2F := by
      obtain ⟨rest, hrest⟩ := List.head?_eq_some_iff.mp hroot
      obtain ⟨B, hB⟩ : nameOf path <+: path := (List.takeWhile_prefix _).trans (List.takeWhile_prefix _)
      rw [← hB, hrest]
      rfl
    exact Or.inl ⟨Or.inl hroot, fun p hp => normalizePath_spec (rooted_canonizedPath hhead) hp⟩
  · by_cases hnil : nameOf path = []
    · have hempty : canonizedPath path = [] := by
        have hpath : canonizedPath path = udmURLCanonizePath (3 * (cutAnchor path).length + 1) (nameOf path) := rfl
        rw [hpath, hnil]
        rfl
      refine Or.inr ⟨fun hfrom => ?_, [], by rw [hempty]; rfl, by simp, Canonical.nil, rfl, iff_of_true hnil rfl,
        fun hne => absurd rfl hne⟩
      rcases hfrom with hfrom | hfrom
      · exact hroot hfrom
      · rw [hnil] at hfrom
        simp at hfrom
    · have hcolon : (nameOf path)[1]? = some 0x3A := by
        by_contra hcolon
        exact habsolute ⟨hroot, hnil, hcolon⟩
      obtain ⟨a, rest, hname⟩ : ∃ a rest, nameOf path = a :: 0x3A :: rest := by
        rcases hname : nameOf path with _ | ⟨a, _ | ⟨b, rest⟩⟩
        · exact absurd hname hnil
        · rw [hname] at hcolon
          simp at hcolon
        · rw [hname] at hcolon
          have hb : b = 0x3A := by simpa using hcolon
          exact ⟨a, rest, by rw [hb]⟩
      have ha : a ≠ 0x2F := by
        rintro rfl
        rw [hname] at hroot
        exact hroot rfl
      obtain ⟨h, gs, hsplit, hne, hhead, hsafe, hlen⟩ := canonizedPath_drive hname ha
      have hjoin := eq_join_of_splitOn hsplit
      have hplain := plain_splitOn hsplit
      have hslash : (0x2F : UInt8) ∉ h := not_mem_of_mem_splitOn (by rw [hsplit]; exact List.mem_cons_self)
      have hcanonical := canonical_canonizedPath path
      have hfrom : FromRoot path ↔ UpFromDrive [] gs := by
        rw [FromRoot, or_iff_right hroot, and_iff_right hcolon, hsplit, List.tail_cons]
      rw [hjoin] at hcanonical ⊢
      by_cases hup : UpFromDrive [] gs
      · exact Or.inl ⟨hfrom.mpr hup, fun p hp => normalizePath_up hslash hne hplain hcanonical hup hp⟩
      · obtain ⟨gs', hresult, hcanonical', hagain⟩ := normalizePath_stay hslash hne hplain hcanonical hup
        obtain ⟨c, t, rfl⟩ := List.exists_cons_of_ne_nil hne
        refine Or.inr ⟨fun h' => hup (hfrom.mp h'), _, hresult, hhead, hcanonical', hagain, iff_of_false hnil (by simp),
          fun _ => ?_⟩
        rw [List.getElem?_append_left hlen, ← hsafe, hname]
        simp

/-! ## Reading what was written -/

/-- The parts of a URL are the same; a part that is not there is like an empty one, as it is for `UdmURLCanonize`. -/
structure SameParts (u v : UdmUrl) : Prop where
  schema : v.schema = u.schema
  hostname : v.hostname.getD [] = u.hostname.getD []
  port : v.port = u.port
  path : v.path = u.path
  filename : v.filename.getD [] = u.filename.getD []

/-- The canonical form of the URL is read as the same parts. -/
def Reparsed (src : List UInt8) : Prop :=
  ∃ u dst v, udmURLParse src = .ok u ∧ udmURLCanonize src = some dst ∧ udmURLParse dst = .ok v ∧ SameParts u v

section NoHost

variable {name specific src : List UInt8} {u url : UdmUrl}

/-- A URL of a schema without a host. -/
def schemaUrl (name specific : List UInt8) : List UInt8 := name ++ 0x3A :: specific

theorem strcaseeq_iff {s t : List UInt8} (hs : s.map tolower = s) (ht : t.map tolower = t) :
    strcaseeq s t = true ↔ s = t := by
  rw [strcaseeq, beq_iff_eq, hs, ht]

/-- The schemas whose path stands behind the colon. -/
def PathSchema (schema : List UInt8) : Prop :=
  schema = bytes "file" ∨ schema = bytes "exec" ∨ schema = bytes "cgi" ∨ schema = bytes "htdb"

theorem udmURLParse_schemaUrl (hname : isSchema name = true) (hspecific : specific.take 2 ≠ [0x2F, 0x2F])
    (haccept : udmURLParse (schemaUrl name specific) ≠ .error .bad) :
    PathSchema (name.map tolower) ∧ udmURLParse (schemaUrl name specific) =
        parsePath ⟨some (name.map tolower), specific, none, none, [], none, 0, getDefaultPort (name.map tolower)⟩ specific ∨
      name.map tolower = bytes "news" ∧ udmURLParse (schemaUrl name specific) =
        parsePath ⟨some (name.map tolower), specific, none, some (bytes "localhost"), [], none, 0, 119⟩ (0x2F :: specific) := by
  have hlower := map_tolower_map_tolower name
  have hsplit : splitSchema (schemaUrl name specific) = some (name, specific) := by
    rw [splitSchema, schemaUrl, strchr_append (not_mem_of_isSchema hname), Option.filter_some, if_pos hname]
  rw [udmURLParse, hsplit] at haccept ⊢
  dsimp only at haccept ⊢
  rw [if_neg hspecific] at haccept ⊢
  simp only [Bool.or_eq_true, strcaseeq_iff hlower (show (bytes "mailto").map tolower = bytes "mailto" by decide),
    strcaseeq_iff hlower (show (bytes "javascript").map tolower = bytes "javascript" by decide),
    strcaseeq_iff hlower (show (bytes "file").map tolower = bytes "file" by decide),
    strcaseeq_iff hlower (show (bytes "exec").map tolower = bytes "exec" by decide),
    strcaseeq_iff hlower (show (bytes "cgi").map tolower = bytes "cgi" by decide),
    strcaseeq_iff hlower (show (bytes "htdb").map tolower = bytes "htdb" by decide),
    strcaseeq_iff hlower (show (bytes "news").map tolower = bytes "news" by decide)] at haccept ⊢
  split_ifs at haccept ⊢ with hbad hpath hnews
  · exact absurd rfl haccept
  · exact Or.inl ⟨by simpa [PathSchema, or_assoc] using hpath, rfl⟩
  · exact Or.inr ⟨hnews, rfl⟩
  · exact absurd rfl haccept

theorem parsePath_fields (h : parsePath url path = .ok u) :
    u = { url with path := u.path, filename := u.filename } := by
  rw [parsePath] at h
  dsimp only at h
  split_ifs at h
  · cases h
    rfl
  · cases h
    rfl
  · split at h
    · cases h
    · cases h
      rfl

theorem parsePath_relative (h : Relative path) (url : UdmUrl) :
    parsePath url path =
      .ok { url with
        path := []
        filename := udmURLQueryStringAppend
          (some (if (nameOf path).take 2 = [0x2E, 0x2F] then (nameOf path).drop 2 else nameOf path))
          (queryOf (cutAnchor path)) } := by
  rw [parsePath]
  exact if_pos h

theorem parsePath_ok_iff {path : List UInt8} (h : ¬ Relative path) {url u : UdmUrl} :
    parsePath url path = .ok u ↔ ∃ p, normalizePath (canonizedPath path) = some p ∧
      u = { url with
        path := (splitFile p).1
        filename := udmURLQueryStringAppend (splitFile p).2 (queryOf (cutAnchor path)) } := by
  rw [parsePath_absolute h]
  cases normalizePath (canonizedPath path) with
  | none => simp
  | some p => simp [eq_comm]

theorem normalizePath_eq_none_iff {s : List UInt8} : normalizePath s = none ↔ removeDotDots s = [0x2F, 0x2E, 0x2E] := by
  rw [normalizePath, Option.map_eq_none_iff, removeTrailingDotDot_eq_none_iff]

theorem not_relative_of_fromRoot (h : FromRoot path) : ¬ Relative path := fun hrel =>
  h.elim hrel.1 fun h' => hrel.2.2 h'.1

theorem head?_path_of_fromRoot (h : FromRoot path) (hu : parsePath url path = .ok u) :
    u.path.head? = some 0x2F := by
  obtain ⟨p, hp, rfl⟩ := (parsePath_ok_iff (not_relative_of_fromRoot h)).mp hu
  rcases absolute_cases (not_relative_of_fromRoot h) with ⟨-, hnormal⟩ | ⟨hnot, -⟩
  · rw [head?_splitFile, (hnormal p hp).root]
  · exact absurd h hnot

theorem fromRoot_of_head? (hu : parsePath url path = .ok u)
    (h : u.path.head? = some 0x2F) : FromRoot path ∧ removeDotDots (canonizedPath path) ≠ [0x2F, 0x2E, 0x2E] := by
  by_cases hrel : Relative path
  · rw [parsePath_relative hrel] at hu
    cases hu
    cases h
  · obtain ⟨p, hp, rfl⟩ := (parsePath_ok_iff hrel).mp hu
    rw [head?_splitFile] at h
    refine ⟨?_, fun hdots => ?_⟩
    · rcases absolute_cases hrel with ⟨hfrom, -⟩ | ⟨-, p', hp', hhead, -⟩
      · exact hfrom
      · rw [hp'] at hp
        cases hp
        exact absurd h hhead
    · rw [normalizePath_eq_none_iff.mpr hdots] at hp
      cases hp

theorem fromRoot_of_slash (h : path.head? = some 0x2F) : FromRoot path := by
  obtain ⟨rest, rfl⟩ := List.head?_eq_some_iff.mp h
  refine Or.inl ?_
  rw [nameOf, cutAnchor, List.takeWhile_cons_of_pos (by decide), List.takeWhile_cons_of_pos (by decide)]
  rfl

theorem head?_path_of_urlOf (hname : isSchema name = true) {v : UdmUrl} (hv : udmURLParse (urlOf name specific) = .ok v) :
    v.path.head? = some 0x2F := by
  rw [udmURLParse_urlOf hname] at hv
  split at hv
  · cases hv
  · exact head?_path_of_fromRoot (fromRoot_of_slash (splitHost_spec specific).2) hv

/-- **A path from the root is read behind any host as it was written.** -/
theorem parse_written (hfrom : FromRoot path)
    (hdots : removeDotDots (canonizedPath path) ≠ [0x2F, 0x2E, 0x2E]) (url : UdmUrl) :
    ∃ u, parsePath url path = .ok u ∧ (u.path ++ u.filename.getD []).head? = some 0x2F ∧
      (u.path ++ u.filename.getD []).take 2 ≠ [0x2F, 0x2F] ∧
      ∀ url', parsePath url' (u.path ++ u.filename.getD []) = .ok { url' with path := u.path, filename := u.filename } := by
  have hrel := not_relative_of_fromRoot hfrom
  obtain ⟨p, hp⟩ := Option.ne_none_iff_exists'.mp (mt normalizePath_eq_none_iff.mp hdots)
  refine ⟨_, (parsePath_ok_iff hrel).mpr ⟨p, hp, rfl⟩, ?_⟩
  rcases absolute_cases hrel with ⟨-, hnormal⟩ | ⟨hnot, -⟩
  · have hnormal := hnormal p hp
    obtain ⟨hroot, hslashes⟩ := hnormal.pathText (queryOf (cutAnchor path))
    dsimp only
    rw [pathText_eq]
    exact ⟨hroot, hslashes, parsePath_pathText (canonical_iff.mpr hnormal.canonical) (normalizePath_eq_self hnormal)
      (fun hrel => hrel.1 hnormal.root) fun q hq => queryOf_cutAnchor hq⟩
  · exact absurd hfrom hnot

/-- **Behind `//`, the parts are the same where the path is one from the root.** -/
theorem reparsed_slashes_iff {schema host : List UInt8} (hschema : isSchema schema = true)
    (hlower : schema.map tolower = schema)
    (hother : schema ≠ bytes "mailto" ∧ schema ≠ bytes "javascript" ∧ schema ≠ bytes "htdb")
    (hshape : HostShape ⟨none, host, 0⟩)
    (hurl : url.schema = some schema ∧ url.auth = none ∧ url.hostname.getD [] = host ∧ url.port = 0)
    (hsrc : udmURLParse src = parsePath url path) :
    Reparsed src ↔ FromRoot path ∧ removeDotDots (canonizedPath path) ≠ [0x2F, 0x2E, 0x2E] := by
  obtain ⟨hurlSchema, hurlAuth, hurlHost, hurlPort⟩ := hurl
  have hwrite : ∀ {u : UdmUrl}, parsePath url path = .ok u →
      udmURLCanonize src = some (urlOf schema (hostText none host [] ++ (u.path ++ u.filename.getD []))) := by
    intro u hu
    have hfields := parsePath_fields hu
    have hport : u.portText = [] := by
      rw [UdmUrl.portText, hfields, hurlPort]
      rfl
    rw [udmURLCanonize_of_parse (hsrc.trans hu) (by rw [hfields]; exact hurlSchema), writeUrl,
      if_neg (not_or.mpr ⟨hother.1, hother.2.1⟩), if_neg hother.2.2, hport, if_neg (by decide)]
    rw [hfields, hurlAuth, hurlHost]
  constructor
  · rintro ⟨u, dst, v, hu, hdst, hv, hsame⟩
    rw [hsrc] at hu
    rw [hwrite hu] at hdst
    cases hdst
    have hhead := head?_path_of_urlOf hschema hv
    rw [hsame.path] at hhead
    exact fromRoot_of_head? hu hhead
  · rintro ⟨hfrom, hdots⟩
    obtain ⟨u, hu, hhead, -, hagain⟩ := parse_written hfrom hdots url
    have hfields := parsePath_fields hu
    have hslash : (0x2F : UInt8) ∉ hostText none host [] := slash_not_mem_hostText hshape (Or.inl rfl)
    have hhost : parseHostinfo (hostText none host []) = .ok ⟨none, host, 0⟩ := parseHostinfo_hostText hshape (Or.inl rfl)
    have hread : udmURLParse (urlOf schema (hostText none host [] ++ (u.path ++ u.filename.getD []))) =
        .ok ⟨some schema, 0x2F :: 0x2F :: (hostText none host [] ++ (u.path ++ u.filename.getD [])), none, some host, u.path,
          u.filename, 0, getDefaultPort schema⟩ := by
      rw [udmURLParse_urlOf hschema, splitHost_append hslash hhead, hhost, hlower]
      dsimp only
      rw [hagain]
    refine ⟨u, _, _, hsrc.trans hu, hwrite hu, hread, ?_⟩
    refine ⟨?_, ?_, ?_, rfl, rfl⟩
    · rw [hfields, hurlSchema]
    · rw [hfields]
      exact hurlHost.symm
    · rw [hfields, hurlPort]

/-! ## Behind `htdb:` -/

/-- What is behind `./`, where the path begins with it. -/
def fileOf (path : List UInt8) : List UInt8 :=
  if (nameOf path).take 2 = [0x2E, 0x2F] then (nameOf path).drop 2 else nameOf path

/-- A path that is not from the root, and is kept behind `htdb:`: there is none, it begins with a drive that needs no
escape, or it is relative and what is behind a `./` is no path of another kind. -/
def KeptByHtdb (path : List UInt8) : Prop :=
  nameOf path = [] ∨
    ((nameOf path)[1]? = some 0x3A ∧ ∀ c ∈ (nameOf path).head?, pathEncType c.toNat = 0) ∨
    (Relative path ∧ (fileOf path).head? ≠ some 0x2F ∧ (fileOf path)[1]? ≠ some 0x3A ∧ (fileOf path).take 2 ≠ [0x2E, 0x2F])

theorem take_pathText_ne {p : List UInt8} (h : p.head? ≠ some 0x2F) (query : Option (List UInt8)) :
    (p ++ query.elim [] fun q => 0x3F :: udmURLQueryStringCanonize q).take 2 ≠ [0x2F, 0x2F] := by
  intro hslashes
  rcases p with _ | ⟨c, p⟩
  · cases query with
    | none => cases hslashes
    | some q => exact absurd (List.cons.inj hslashes).1 (by decide)
  · exact h (by rw [(List.cons.inj hslashes).1]; rfl)

theorem mem_fileOf {c : UInt8} (h : c ∈ fileOf path) : c ∈ nameOf path := by
  rw [fileOf] at h
  split_ifs at h
  · exact List.mem_of_mem_drop h
  · exact h

theorem relative_parts {path : List UInt8} (query : Option (List UInt8))
    (hq : ∀ q ∈ query, q ≠ [] ∧ (0x23 : UInt8) ∉ q) :
    nameOf (fileOf path ++ query.elim [] fun q => 0x3F :: udmURLQueryStringCanonize q) = fileOf path ∧
      ∀ file, udmURLQueryStringAppend file
        (queryOf (cutAnchor (fileOf path ++ query.elim [] fun q => 0x3F :: udmURLQueryStringCanonize q))) =
          udmURLQueryStringAppend file query := by
  obtain ⟨hcut, hname, happend⟩ := pathText_parts (fun hmem => query_not_mem_nameOf path (mem_fileOf hmem))
    (fun hmem => anchor_not_mem_nameOf path (mem_fileOf hmem)) hq
  rw [nameOf, hcut]
  exact ⟨hname, happend⟩

theorem udmURLParse_htdb {behind : List UInt8} (h : behind.take 2 ≠ [0x2F, 0x2F]) :
    udmURLParse (schemaUrl (bytes "htdb") behind) =
      parsePath ⟨some (bytes "htdb"), behind, none, none, [], none, 0, getDefaultPort (bytes "htdb")⟩ behind := by
  have hsplit : splitSchema (schemaUrl (bytes "htdb") behind) = some (bytes "htdb", behind) := by
    rw [splitSchema, schemaUrl, strchr_append (by decide), Option.filter_some,
      if_pos (show isSchema (bytes "htdb") = true by decide)]
  rw [udmURLParse, hsplit]
  dsimp only
  rw [if_neg h]
  rfl

theorem parsePath_relative_again (hrel : Relative path) (hslash : (fileOf path).head? ≠ some 0x2F)
    (hcolon : (fileOf path)[1]? ≠ some 0x3A) (hdot : (fileOf path).take 2 ≠ [0x2E, 0x2F])
    (hu : parsePath url path = .ok u) (url' : UdmUrl) :
    ∃ v, parsePath url' (u.path ++ u.filename.getD []) = .ok v ∧ v.path = u.path ∧
      v.filename.getD [] = u.filename.getD [] := by
  rw [parsePath_relative hrel, ← fileOf] at hu
  cases hu
  dsimp only
  rw [List.nil_append, getD_udmURLQueryStringAppend, Option.getD_some]
  have hq : ∀ q ∈ queryOf (cutAnchor path), q ≠ [] ∧ (0x23 : UInt8) ∉ q := fun q hq => queryOf_cutAnchor hq
  obtain ⟨hname, happend⟩ := @relative_parts path _ hq
  by_cases hnil : fileOf path = []
  · -- nothing is left in front of the query string
    have hread := @parsePath_pathText [] Canonical.nil rfl (fun h => h.2.1 rfl) _ hq url'
    rw [hnil]
    refine ⟨_, hread, rfl, ?_⟩
    rw [getD_udmURLQueryStringAppend]
    rfl
  · have hrel' : Relative (fileOf path ++ (queryOf (cutAnchor path)).elim [] fun q => 0x3F :: udmURLQueryStringCanonize q) := by
      rw [Relative, hname]
      exact ⟨hslash, hnil, hcolon⟩
    refine ⟨_, parsePath_relative hrel' url', rfl, ?_⟩
    rw [hname, if_neg hdot, happend, getD_udmURLQueryStringAppend]
    rfl

theorem relative_of_again (hrel : Relative path) {url' v : UdmUrl} (hu : parsePath url path = .ok u)
    (hv : parsePath url' (u.path ++ u.filename.getD []) = .ok v) (hpath : v.path = u.path)
    (hfile : v.filename.getD [] = u.filename.getD []) :
    (fileOf path).head? ≠ some 0x2F ∧ (fileOf path)[1]? ≠ some 0x3A ∧ (fileOf path).take 2 ≠ [0x2E, 0x2F] := by
  rw [parsePath_relative hrel, ← fileOf] at hu
  cases hu
  dsimp only at hv hpath hfile
  rw [List.nil_append, getD_udmURLQueryStringAppend, Option.getD_some] at hv
  rw [getD_udmURLQueryStringAppend, Option.getD_some] at hfile
  obtain ⟨hname, happend⟩ := @relative_parts path _ fun q hq => @queryOf_cutAnchor path q hq
  generalize hbehind : fileOf path ++ (queryOf (cutAnchor path)).elim [] (fun q => 0x3F :: udmURLQueryStringCanonize q) =
    behind at hv hname happend hfile
  have hslash : (fileOf path).head? ≠ some 0x2F := by
    intro hslash
    have hfrom : FromRoot behind := Or.inl (by rw [hname]; exact hslash)
    have hhead := head?_path_of_fromRoot hfrom hv
    rw [hpath] at hhead
    cases hhead
  have hcolon : (fileOf path)[1]? ≠ some 0x3A := by
    intro hcolon
    have habsolute : ¬ Relative behind := fun h => h.2.2 (by rw [hname]; exact hcolon)
    obtain ⟨p, hp, rfl⟩ := (parsePath_ok_iff habsolute).mp hv
    have hnil : p = [] := by
      have hdir : (splitFile p).1 = [] := hpath
      have hhead := head?_splitFile p
      rw [hdir] at hhead
      exact List.head?_eq_none_iff.mp hhead.symm
    rcases absolute_cases habsolute with ⟨-, hnormal⟩ | ⟨-, p', hp', -, -, -, hempty, -⟩
    · have hroot := (hnormal p hp).root
      rw [hnil] at hroot
      cases hroot
    · rw [hp'] at hp
      cases hp
      rw [hname, hnil] at hempty
      rw [hempty.mpr rfl] at hcolon
      cases hcolon
  refine ⟨hslash, hcolon, fun hdot => ?_⟩
  have hrel' : Relative behind := by
    rw [Relative, hname]
    refine ⟨hslash, fun hnil => ?_, hcolon⟩
    rw [hnil] at hdot
    cases hdot
  rw [parsePath_relative hrel'] at hv
  cases hv
  dsimp only at hfile
  rw [hname, if_pos hdot, happend, getD_udmURLQueryStringAppend, Option.getD_some, ← hbehind] at hfile
  -- two characters are gone
  have hlen := congrArg List.length hfile
  have htwo := congrArg List.length hdot
  simp only [List.length_append, List.length_drop, List.length_take, List.length_cons, List.length_nil] at hlen htwo
  omega

/-- **Behind `htdb:`, the parts are the same for the paths that are kept.** -/
theorem reparsed_htdb_iff
    (hurl : url.schema = some (bytes "htdb") ∧ url.hostname = none ∧ url.port = 0)
    (hsrc : udmURLParse src = parsePath url path) :
    Reparsed src ↔
      FromRoot path ∧ removeDotDots (canonizedPath path) ≠ [0x2F, 0x2E, 0x2E] ∨ ¬ FromRoot path ∧ KeptByHtdb path := by
  obtain ⟨hurlSchema, hurlHost, hurlPort⟩ := hurl
  have hwrite : ∀ {u : UdmUrl}, parsePath url path = .ok u →
      udmURLCanonize src = some (schemaUrl (bytes "htdb") (u.path ++ u.filename.getD [])) := by
    intro u hu
    have hfields := parsePath_fields hu
    rw [udmURLCanonize_of_parse (hsrc.trans hu) (by rw [hfields]; exact hurlSchema), writeUrl, if_neg (by decide), if_pos rfl]
    rfl
  -- the same path and file name are enough
  have hkept : ∀ {u : UdmUrl}, parsePath url path = .ok u → (u.path ++ u.filename.getD []).take 2 ≠ [0x2F, 0x2F] →
      (∀ url', ∃ v, parsePath url' (u.path ++ u.filename.getD []) = .ok v ∧ v.path = u.path ∧
        v.filename.getD [] = u.filename.getD []) → Reparsed src := by
    intro u hu hslashes hagain
    obtain ⟨v, hv, hpath, hfile⟩ := hagain ⟨some (bytes "htdb"), u.path ++ u.filename.getD [], none, none, [], none, 0,
      getDefaultPort (bytes "htdb")⟩
    have hfields := parsePath_fields hu
    have hfields' := parsePath_fields hv
    refine ⟨u, _, v, hsrc.trans hu, hwrite hu, (udmURLParse_htdb hslashes).trans hv, ?_, ?_, ?_, hpath, hfile⟩
    · rw [hfields', hfields, hurlSchema]
    · rw [hfields', hfields, hurlHost]
    · rw [hfields', hfields, hurlPort]
  constructor
  · rintro ⟨u, dst, v, hu, hdst, hv, hsame⟩
    rw [hsrc] at hu
    rw [hwrite hu] at hdst
    cases hdst
    by_cases hfrom : FromRoot path
    · exact Or.inl (fromRoot_of_head? hu (head?_path_of_fromRoot hfrom hu))
    · refine Or.inr ⟨hfrom, ?_⟩
      by_cases hslashes : (u.path ++ u.filename.getD []).take 2 = [0x2F, 0x2F]
      · -- what is written has a host
        have hurlOf : schemaUrl (bytes "htdb") (u.path ++ u.filename.getD []) =
            urlOf (bytes "htdb") ((u.path ++ u.filename.getD []).drop 2) := by
          rw [schemaUrl, urlOf]
          conv_lhs => rw [← List.take_append_drop 2 (u.path ++ u.filename.getD []), hslashes]
          rfl
        rw [hurlOf] at hv
        have hhead := head?_path_of_urlOf (by decide) hv
        rw [hsame.path] at hhead
        exact absurd (fromRoot_of_head? hu hhead).1 hfrom
      · rw [udmURLParse_htdb hslashes] at hv
        by_cases hrel : Relative path
        · exact Or.inr (Or.inr ⟨hrel, relative_of_again hrel hu hv hsame.path hsame.filename⟩)
        · by_cases hnil : nameOf path = []
          · exact Or.inl hnil
          · have hcolon : (nameOf path)[1]? = some 0x3A := by
              by_contra hcolon
              exact hrel ⟨fun hroot => hfrom (Or.inl hroot), hnil, hcolon⟩
            refine Or.inr (Or.inl ⟨hcolon, ?_⟩)
            rcases absolute_cases hrel with ⟨hroot, -⟩ | ⟨-, p, hp, hhead, hcanonical, hagain, hempty, hsafe⟩
            · exact absurd hroot hfrom
            · have hne : p ≠ [] := mt hempty.mpr hnil
              by_contra hunsafe
              -- what is written is taken for a relative path
              obtain ⟨p', hp', rfl⟩ := (parsePath_ok_iff hrel).mp hu
              rw [hp] at hp'
              cases hp'
              dsimp only at hv
              rw [pathText_eq] at hv
              have hrel' : Relative (p ++ (queryOf (cutAnchor path)).elim [] fun q => 0x3F :: udmURLQueryStringCanonize q) := by
                obtain ⟨hcut, hname, -⟩ := pathText_parts hcanonical.no_query hcanonical.no_anchor fun q hq =>
                  @queryOf_cutAnchor path q hq
                rw [Relative, nameOf, hcut, hname]
                exact ⟨hhead, hne, fun h => hunsafe ((hsafe hne).mpr h)⟩
              rw [parsePath_relative hrel'] at hv
              cases hv
              have hdir : [] = (splitFile p).1 := hsame.path
              have hhead' := head?_splitFile p
              rw [← hdir] at hhead'
              exact hne (List.head?_eq_none_iff.mp hhead'.symm)
  · rintro (⟨hfrom, hdots⟩ | ⟨hfrom, hrest⟩)
    · obtain ⟨u, hu, -, hslashes, hagain⟩ := parse_written hfrom hdots url
      exact hkept hu hslashes fun url' => ⟨_, hagain url', rfl, rfl⟩
    · by_cases hrel : Relative path
      · have hkeep : (fileOf path).head? ≠ some 0x2F ∧ (fileOf path)[1]? ≠ some 0x3A ∧
            (fileOf path).take 2 ≠ [0x2E, 0x2F] := by
          rcases hrest with hnil | ⟨hcolon, -⟩ | ⟨-, h⟩
          · exact absurd hnil hrel.2.1
          · exact absurd hcolon hrel.2.2
          · exact h
        have hu := parsePath_relative hrel url
        refine hkept hu ?_ (parsePath_relative_again hrel hkeep.1 hkeep.2.1 hkeep.2.2 hu)
        rw [List.nil_append, getD_udmURLQueryStringAppend]
        exact take_pathText_ne hkeep.1 _
      · rcases absolute_cases hrel with ⟨hroot, -⟩ | ⟨-, p, hp, hhead, hcanonical, hagain, hempty, hsafe⟩
        · exact absurd hroot hfrom
        · have hdrive : p = [] ∨ p[1]? = some 0x3A := by
            by_cases hne : p = []
            · exact Or.inl hne
            · rcases hrest with hnil | ⟨-, h⟩ | ⟨h, -⟩
              · exact absurd (hempty.mp hnil) hne
              · exact Or.inr ((hsafe hne).mp h)
              · exact absurd h hrel
          have hu := (@parsePath_ok_iff path hrel url _).mpr ⟨p, hp, rfl⟩
          have hread := parsePath_pathText hcanonical hagain (fun h => hdrive.elim h.2.1 h.2.2) fun q hq =>
            @queryOf_cutAnchor path q hq
          refine hkept hu ?_ fun url' => ?_
          · dsimp only
            rw [pathText_eq]
            exact take_pathText_ne hhead _
          · dsimp only
            rw [pathText_eq]
            exact ⟨_, hread url', rfl, rfl⟩

/-! ## The whole -/

/-- The path behind the schema; for `news` a slash is put in front. -/
def pathBehind (schema specific : List UInt8) : List UInt8 :=
  if schema = bytes "news" then 0x2F :: specific else specific

/-- The parts are kept: the path is one from the root, and defined, or `htdb` keeps it. -/
def Keeps (schema path : List UInt8) : Prop :=
  FromRoot path ∧ removeDotDots (canonizedPath path) ≠ [0x2F, 0x2E, 0x2E] ∨
    schema = bytes "htdb" ∧ ¬ FromRoot path ∧ KeptByHtdb path

theorem hostShape_noHost : HostShape ⟨none, [], 0⟩ ∧ HostShape ⟨none, bytes "localhost", 0⟩ :=
  ⟨⟨by simp, by simp, by decide, by decide, by decide⟩, ⟨by simp, by simp, by decide, by decide, by decide⟩⟩

/-- **A URL without a host is written and read again as the same parts exactly when they are kept.** -/
theorem reparsed_iff (hname : isSchema name = true) (hspecific : specific.take 2 ≠ [0x2F, 0x2F])
    (haccept : udmURLParse (schemaUrl name specific) ≠ .error .bad) :
    Reparsed (schemaUrl name specific) ↔ Keeps (name.map tolower) (pathBehind (name.map tolower) specific) := by
  have hschema := (isSchema_map_tolower hname).1
  have hlower := map_tolower_map_tolower name
  rcases udmURLParse_schemaUrl hname hspecific haccept with ⟨hpath, hsrc⟩ | ⟨hnews, hsrc⟩
  · generalize name.map tolower = schema at *
    have hbehind : pathBehind schema specific = specific := by
      refine if_neg ?_
      rcases hpath with rfl | rfl | rfl | rfl <;> decide
    rw [hbehind, Keeps]
    by_cases hhtdb : schema = bytes "htdb"
    · subst hhtdb
      rw [reparsed_htdb_iff ⟨rfl, rfl, rfl⟩ hsrc, and_iff_right rfl]
    · have hother : schema ≠ bytes "mailto" ∧ schema ≠ bytes "javascript" ∧ schema ≠ bytes "htdb" := by
        refine ⟨?_, ?_, hhtdb⟩
        · rcases hpath with rfl | rfl | rfl | rfl <;> decide
        · rcases hpath with rfl | rfl | rfl | rfl <;> decide
      rw [reparsed_slashes_iff hschema hlower hother hostShape_noHost.1 ⟨rfl, rfl, rfl, rfl⟩ hsrc]
      exact (or_iff_left fun h => hhtdb h.1).symm
  · rw [hnews] at hsrc hschema hlower ⊢
    have hbehind : pathBehind (bytes "news") specific = 0x2F :: specific := if_pos rfl
    rw [hbehind, Keeps, reparsed_slashes_iff hschema hlower (by decide) hostShape_noHost.2 ⟨rfl, rfl, rfl, rfl⟩ hsrc]
    exact (or_iff_left fun h => absurd h.1 (by decide)).symm

end NoHost

/-- `file:/etc/motd` is kept. -/
theorem reparsed_motd : Reparsed (schemaUrl (bytes "file") (bytes "/etc/motd")) :=
  (reparsed_iff (by decide) (by decide) (by decide +kernel)).mpr (Or.inl ⟨fromRoot_of_slash rfl, by decide +kernel⟩)

/-- `file:foo` becomes `file://foo`, and that has a host. -/
theorem not_forall_reparsed :
    ¬ ∀ name specific, isSchema name = true → specific.take 2 ≠ [0x2F, 0x2F] →
      udmURLParse (schemaUrl name specific) ≠ .error .bad → Reparsed (schemaUrl name specific) := by
  intro hall
  obtain ⟨u, dst, v, hu, hdst, hv, hsame⟩ := hall (bytes "file") (bytes "foo") (by decide) (by decide) (by decide +kernel)
  have hparse : udmURLParse (schemaUrl (bytes "file") (bytes "foo")) =
      .ok ⟨some (bytes "file"), bytes "foo", none, none, [], some (bytes "foo"), 0, 0⟩ := by decide +kernel
  have hcanonize : udmURLCanonize (schemaUrl (bytes "file") (bytes "foo")) = some (bytes "file://foo") := by decide +kernel
  have hagain : udmURLParse (bytes "file://foo") =
      .ok ⟨some (bytes "file"), bytes "//foo", none, some (bytes "foo"), [0x2F], none, 0, 0⟩ := by decide +kernel
  rw [hparse] at hu
  rw [hcanonize] at hdst
  cases hu
  cases hdst
  rw [hagain] at hv
  cases hv
  exact absurd hsame.path (by decide)

end MnoGoSearch.Url
