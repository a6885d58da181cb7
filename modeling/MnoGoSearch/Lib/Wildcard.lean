import Mathlib.Computability.Language

/-!
# Wildcards

Patterns of literal characters, of characters that stand for any one and of stars that stand for any
string. The language of a pattern is the product of the languages of its characters. The matcher
searches with a verdict of three values: where the string has come to its end before the pattern, no
later place can match either (`Verdict.Holds`), and the search behind every star may stop.
-/

namespace MnoGoSearch.Lib.Wildcard

variable {α : Type*}

/-- The characters of a pattern. -/
inductive Token (α : Type*) where
  | star
  | any
  | lit (w : α)

/-- The strings that a character of a pattern stands for; `same` compares a character of the string with one of the
pattern. -/
def Token.lang (same : α → α → Prop) : Token α → Language α
  | .star => ⊤
  | .any => {s | ∃ c, s = [c]}
  | .lit w => {s | ∃ c, same c w ∧ s = [c]}

/-- The language of a pattern. -/
def lang (same : α → α → Prop) (p : List (Token α)) : Language α := (p.map (Token.lang same)).prod

/-- What the matcher says. -/
inductive Verdict where
  | matched
  /-- The string does not match. -/
  | mismatch
  /-- The string has come to its end too early. -/
  | exhausted
  deriving DecidableEq

/-- The search behind a star: every place before the end is tried, up to the first verdict that is not a mismatch. -/
def scan (tail : List α → Verdict) : List α → Verdict
  | [] => .exhausted
  | c :: s => if tail (c :: s) = .mismatch then scan tail s else tail (c :: s)

/-- The matcher. -/
def wild (same : α → α → Prop) [DecidableRel same] : List (Token α) → List α → Verdict
  | [], [] => .matched
  | [], _ :: _ => .mismatch
  | .star :: p, s =>
    match p with
    | [] => .matched
    | .star :: _ => wild same p s
    | _ :: _ => scan (wild same p) s
  | .any :: _, [] => .exhausted
  | .any :: p, _ :: s => wild same p s
  | .lit _ :: _, [] => .exhausted
  | .lit w :: p, c :: s => if same c w then wild same p s else .mismatch

section Equations

variable {same : α → α → Prop} [DecidableRel same] (p : List (Token α)) (c w : α) (s : List α)

theorem wild_lit_cons : wild same (.lit w :: p) (c :: s) = if same c w then wild same p s else .mismatch := rfl

end Equations

/-! ## Languages -/

section Languages

variable {same : α → α → Prop} {p : List (Token α)} {s : List α}

@[simp] theorem mem_lang_nil : s ∈ lang same [] ↔ s = [] := Language.mem_one s

theorem lang_cons (t : Token α) : lang same (t :: p) = t.lang same * lang same p := by
  rw [lang, List.map_cons, List.prod_cons, lang]

theorem mem_lang_star : s ∈ lang same (.star :: p) ↔ ∃ t, t <:+ s ∧ t ∈ lang same p := by
  rw [lang_cons, Language.mem_mul]
  constructor
  · rintro ⟨a, -, t, ht, rfl⟩
    exact ⟨t, List.suffix_append a t, ht⟩
  · rintro ⟨t, ⟨a, ha⟩, ht⟩
    exact ⟨a, trivial, t, ht, ha⟩

@[simp] theorem nil_not_mem_any : [] ∉ lang same (.any :: p) := by
  rw [lang_cons, Language.mem_mul]
  rintro ⟨a, ⟨c, rfl⟩, t, -, h⟩
  cases h

@[simp] theorem nil_not_mem_lit (w : α) : [] ∉ lang same (.lit w :: p) := by
  rw [lang_cons, Language.mem_mul]
  rintro ⟨a, ⟨c, -, rfl⟩, t, -, h⟩
  cases h

@[simp] theorem mem_lang_any_cons (c : α) : c :: s ∈ lang same (.any :: p) ↔ s ∈ lang same p := by
  rw [lang_cons, Language.mem_mul]
  constructor
  · rintro ⟨a, ⟨d, rfl⟩, t, ht, h⟩
    cases h
    exact ht
  · intro hs
    exact ⟨[c], ⟨c, rfl⟩, s, hs, rfl⟩

@[simp] theorem mem_lang_lit_cons (c w : α) : c :: s ∈ lang same (.lit w :: p) ↔ same c w ∧ s ∈ lang same p := by
  rw [lang_cons, Language.mem_mul]
  constructor
  · rintro ⟨a, ⟨d, hd, rfl⟩, t, ht, h⟩
    cases h
    exact ⟨hd, ht⟩
  · rintro ⟨hc, hs⟩
    exact ⟨[c], ⟨c, hc, rfl⟩, s, hs, rfl⟩

theorem lang_star_star : lang same (.star :: .star :: p) = lang same (.star :: p) := by
  ext s
  rw [mem_lang_star, mem_lang_star]
  constructor
  · rintro ⟨t, hts, ht⟩
    obtain ⟨u, hut, hu⟩ := mem_lang_star.mp ht
    exact ⟨u, hut.trans hts, hu⟩
  · rintro ⟨t, hts, ht⟩
    exact ⟨t, hts, mem_lang_star.mpr ⟨t, List.suffix_rfl, ht⟩⟩

end Languages

/-! ## The matcher -/

section Matcher

variable {same : α → α → Prop} {L : Language α}

/-- What a verdict says about a string. When the string has come to its end, it says so about every rest of it. -/
def Verdict.Holds (L : Language α) (s : List α) : Verdict → Prop
  | .matched => s ∈ L
  | .mismatch => s ∉ L
  | .exhausted => ∀ t, t <:+ s → t ∉ L

theorem Verdict.holds_iff {s : List α} {v : Verdict} (h : v.Holds L s) : v = .matched ↔ s ∈ L := by
  cases v with
  | matched => exact iff_of_true rfl h
  | mismatch => exact iff_of_false nofun h
  | exhausted => exact iff_of_false nofun (h s List.suffix_rfl)

/-- **Stopping the search behind a star misses nothing.** -/
theorem holds_scan {tail : List α → Verdict} {p : List (Token α)} (hnil : [] ∉ lang same p)
    (htail : ∀ s, (tail s).Holds (lang same p) s) (s : List α) : (scan tail s).Holds (lang same (.star :: p)) s := by
  induction s with
  | nil =>
    intro t ht hmem
    obtain ⟨u, hu, hmem⟩ := mem_lang_star.mp hmem
    obtain rfl : u = [] := List.suffix_nil.mp (hu.trans ht)
    exact hnil hmem
  | cons c s ih =>
    have hstep : c :: s ∈ lang same (.star :: p) ↔ c :: s ∈ lang same p ∨ s ∈ lang same (.star :: p) := by
      simp only [mem_lang_star, List.suffix_cons_iff]
      constructor
      · rintro ⟨t, rfl | ht, hmem⟩
        · exact Or.inl hmem
        · exact Or.inr ⟨t, ht, hmem⟩
      · rintro (hmem | ⟨t, ht, hmem⟩)
        · exact ⟨_, Or.inl rfl, hmem⟩
        · exact ⟨t, Or.inr ht, hmem⟩
    have hhere := htail (c :: s)
    rw [scan]
    cases hv : tail (c :: s) with
    | mismatch =>
      rw [hv] at hhere
      rw [if_pos rfl]
      cases hs : scan tail s with
      | matched =>
        rw [hs] at ih
        exact hstep.mpr (Or.inr ih)
      | mismatch =>
        rw [hs] at ih
        exact fun hmem => (hstep.mp hmem).elim hhere ih
      | exhausted =>
        rw [hs] at ih
        intro t ht
        rcases List.suffix_cons_iff.mp ht with rfl | ht
        · exact fun hmem => (hstep.mp hmem).elim hhere (ih s List.suffix_rfl)
        · exact ih t ht
    | matched =>
      rw [hv] at hhere
      rw [if_neg nofun]
      exact hstep.mpr (Or.inl hhere)
    | exhausted =>
      rw [hv] at hhere
      rw [if_neg nofun]
      intro t ht hmem
      obtain ⟨u, hu, hmem⟩ := mem_lang_star.mp hmem
      exact hhere u (hu.trans ht) hmem

theorem Verdict.Holds.cons {L M : Language α} {R : α → Prop} (hnil : [] ∉ M)
    (hcons : ∀ c s, c :: s ∈ M ↔ R c ∧ s ∈ L) {c : α} (hc : R c) {s : List α} {v : Verdict} (h : v.Holds L s) :
    v.Holds M (c :: s) := by
  cases v with
  | matched => exact (hcons c s).mpr ⟨hc, h⟩
  | mismatch => exact fun hmem => h ((hcons c s).mp hmem).2
  | exhausted =>
    intro t ht hmem
    cases t with
    | nil => exact hnil hmem
    | cons d t =>
      refine h t ?_ ((hcons d t).mp hmem).2
      rcases List.suffix_cons_iff.mp ht with heq | ht
      · rw [(List.cons.inj heq).2]
      · exact (List.suffix_cons d t).trans ht

theorem holds_exhausted_nil (hnil : [] ∉ L) : Verdict.exhausted.Holds L [] := by
  intro t ht
  rwa [List.suffix_nil.mp ht]

variable [DecidableRel same]

/-- **The verdict holds.** -/
theorem holds_wild (p : List (Token α)) (s : List α) : (wild same p s).Holds (lang same p) s := by
  induction p generalizing s with
  | nil =>
    cases s with
    | nil => exact mem_lang_nil.mpr rfl
    | cons c s => exact fun h => nomatch mem_lang_nil.mp h
  | cons t p ih =>
    cases t with
    | star =>
      cases p with
      | nil => exact mem_lang_star.mpr ⟨[], List.nil_suffix, mem_lang_nil.mpr rfl⟩
      | cons t p =>
        cases t with
        | star =>
          rw [lang_star_star]
          exact ih s
        | any => exact holds_scan nil_not_mem_any ih s
        | lit w => exact holds_scan (nil_not_mem_lit w) ih s
    | any =>
      cases s with
      | nil => exact holds_exhausted_nil nil_not_mem_any
      | cons c s =>
        have hcons : ∀ c s, c :: s ∈ lang same (.any :: p) ↔ True ∧ s ∈ lang same p := fun c s => by simp
        exact Verdict.Holds.cons nil_not_mem_any hcons trivial (ih s)
    | lit w =>
      cases s with
      | nil => exact holds_exhausted_nil (nil_not_mem_lit w)
      | cons c s =>
        rw [wild]
        split_ifs with hc
        · exact Verdict.Holds.cons (nil_not_mem_lit w) (fun c s => mem_lang_lit_cons c w) hc (ih s)
        · exact fun hmem => hc ((mem_lang_lit_cons c w).mp hmem).1

/-- **The matcher matches the strings of the language of the pattern.** -/
theorem wild_eq_matched_iff (p : List (Token α)) (s : List α) : wild same p s = .matched ↔ s ∈ lang same p :=
  Verdict.holds_iff (holds_wild p s)

end Matcher

end MnoGoSearch.Lib.Wildcard
