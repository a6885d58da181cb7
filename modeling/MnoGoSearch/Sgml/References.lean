import MnoGoSearch.Sgml.Exact

/-!
# Texts without references

`UdmSGMLUnescape` (`sgml.c`) makes no text longer, and one that keeps its length has no reference and stays as it is.
What stands for a name is never a percent sign, a number sign or the NUL, so that a text without numbers keeps its
percent signs when it is decoded (`count_percent_unescapeLoop`).
-/

namespace MnoGoSearch.Sgml

open Lib.Delimited

/-! ## Nothing to decode -/

/-- No `&` begins a reference. -/
def NoReference (s : List UInt8) : Prop := ∀ a t, s = a ++ 0x26 :: t → reference t = some none

theorem noReference_nil : NoReference [] := fun a t h => by simp at h

variable {s t : List UInt8} {b : UInt8} {k : ℕ}

theorem noReference_cons {c : UInt8} : NoReference (c :: s) ↔ (c = 0x26 → reference s = some none) ∧ NoReference s := by
  constructor
  · intro h
    exact ⟨fun hc => h [] s (by rw [hc, List.nil_append]), fun a t hs => h (c :: a) t (by rw [hs, List.cons_append])⟩
  · rintro ⟨hhead, htail⟩ a t hs
    cases a with
    | nil =>
      rw [List.nil_append, List.cons.injEq] at hs
      exact hs.2 ▸ hhead hs.1
    | cons d a =>
      rw [List.cons_append, List.cons.injEq] at hs
      exact htail a t hs.2

theorem NoReference.unescapeLoop (h : NoReference s) : unescapeLoop 0 s = some s := by
  induction s with
  | nil => rfl
  | cons c s ih =>
    obtain ⟨hhead, htail⟩ := noReference_cons.1 h
    by_cases hc : c = 0x26
    · rw [Sgml.unescapeLoop, if_pos hc, hhead hc, Option.bind_some, ih htail, Option.map_some]
    · rw [unescapeLoop_of_ne hc, ih htail, Option.map_some]

theorem pos_of_reference (h : reference s = some (some (b, k))) : 0 < k := by
  by_cases hhash : s.head? = some 0x23
  · rw [reference_number hhash] at h
    split_ifs at h with hsemi
    · obtain ⟨-, rfl⟩ := Prod.mk.inj (Option.some.inj (Option.some.inj h))
      exact Nat.succ_pos _
    · cases h
  · rw [reference_letters hhash] at h
    split_ifs at h with hsemi
    · obtain ⟨v, -, hv⟩ := Option.map_eq_some_iff.1 h
      split_ifs at hv with hzero
      obtain ⟨-, rfl⟩ := Prod.mk.inj (Option.some.inj hv)
      exact Nat.succ_pos _
    · cases h

theorem length_unescapeLoop_le (hk : k ≤ s.length) (h : unescapeLoop k s = some t) : t.length + k ≤ s.length := by
  induction s generalizing k t with
  | nil =>
    obtain rfl : [] = t := Option.some.inj (by rwa [unescapeLoop] at h)
    simpa using hk
  | cons c s ih =>
    rw [List.length_cons] at hk ⊢
    have hcons {j : ℕ} {b : UInt8} (hj : j ≤ s.length) (hmap : (unescapeLoop j s).map (b :: ·) = some t) :
        t.length + j ≤ s.length + 1 := by
      obtain ⟨t', ht', rfl⟩ := Option.map_eq_some_iff.1 hmap
      have := ih hj ht'
      rw [List.length_cons]
      omega
    cases k with
    | succ k =>
      rw [unescapeLoop] at h
      have := ih (Nat.le_of_succ_le_succ hk) h
      omega
    | zero =>
      rw [unescapeLoop] at h
      split_ifs at h with hc
      · obtain ⟨r, href, hr⟩ := Option.bind_eq_some_iff.1 h
        rcases r with _ | ⟨b, j⟩
        · exact hcons (Nat.zero_le _) hr
        · exact (Nat.le_add_right _ _).trans (hcons (le_length_of_reference href) hr)
      · exact hcons (Nat.zero_le _) h

/-- **A text that keeps its length has no reference.** -/
theorem noReference_of_length (h : unescapeLoop 0 s = some t) (hlen : s.length ≤ t.length) : NoReference s := by
  induction s generalizing t with
  | nil => exact noReference_nil
  | cons c s ih =>
    have hcons (hmap : (unescapeLoop 0 s).map (c :: ·) = some t) : NoReference s := by
      obtain ⟨t', ht', rfl⟩ := Option.map_eq_some_iff.1 hmap
      exact ih ht' (Nat.le_of_succ_le_succ hlen)
    by_cases hc : c = 0x26
    · rw [unescapeLoop, if_pos hc] at h
      obtain ⟨r, href, hr⟩ := Option.bind_eq_some_iff.1 h
      rcases r with _ | ⟨b, j⟩
      · exact noReference_cons.2 ⟨fun _ => href, hcons hr⟩
      · -- the reference is longer than its character
        obtain ⟨t', ht', rfl⟩ := Option.map_eq_some_iff.1 hr
        have hle := length_unescapeLoop_le (le_length_of_reference href) ht'
        have hpos := pos_of_reference href
        rw [List.length_cons, List.length_cons] at hlen
        omega
    · rw [unescapeLoop_of_ne hc] at h
      exact noReference_cons.2 ⟨fun heq => absurd heq hc, hcons h⟩

/-! ## Percent signs -/

theorem ofNat_unicode_ne {p : UdmSgmlChars} (h : p ∈ sgmlChars) :
    UInt8.ofNat p.unicode ≠ 0x25 ∧ UInt8.ofNat p.unicode ≠ 0x23 := by
  have hall : sgmlChars.all (fun p => UInt8.ofNat p.unicode != 0x25 && UInt8.ofNat p.unicode != 0x23) = true := by
    decide +kernel
  have hp := List.all_eq_true.1 hall p h
  rw [Bool.and_eq_true, bne_iff_ne, bne_iff_ne] at hp
  exact hp

theorem exists_of_reference (hhash : s.head? ≠ some 0x23) (h : reference s = some (some (b, k))) :
    ∃ n t, s = n ++ 0x3B :: t ∧ (∀ c ∈ n, isLetter c = true) ∧ k = n.length + 1 ∧ b ≠ 0 ∧ b ≠ 0x25 ∧ b ≠ 0x23 := by
  rw [reference_letters hhash] at h
  by_cases hsemi : (s.drop (refLetters s).length).head? = some 0x3B
  · rw [if_pos hsemi] at h
    obtain ⟨v, hv, hb⟩ := Option.map_eq_some_iff.1 h
    split_ifs at hb with hzero
    obtain ⟨rfl, rfl⟩ := Prod.mk.inj (Option.some.inj hb)
    obtain ⟨t, ht⟩ : ∃ t, s = refLetters s ++ 0x3B :: t := eq_boundedRun_append hsemi
    have huni := udmSgmlToUni_append (zero_not_mem_refLetters s) isDelim_semicolon t
    rw [← ht, hv, Option.some.injEq] at huni
    refine ⟨refLetters s, t, ht, fun c hc => refLetters_isLetter hc, rfl, hzero, ?_⟩
    cases hfirst : firstPrefix (refLetters s) with
    | none =>
      rw [hfirst, Option.elim_none] at huni
      exact absurd (by rw [huni]; rfl) hzero
    | some p =>
      rw [hfirst, Option.elim_some] at huni
      rw [huni]
      exact ofNat_unicode_ne (mem_of_firstPrefix hfirst).1
  · rw [if_neg hsemi] at h
    cases h

/-- **A text without numbers keeps its percent signs**, and gets neither a number sign nor a NUL. -/
theorem count_percent_unescapeLoop (hhash : 0x23 ∉ s) (hzero : 0 ∉ s)
    (h : unescapeLoop k s = some t) : t.count 0x25 = (s.drop k).count 0x25 ∧ 0x23 ∉ t ∧ 0 ∉ t := by
  induction s generalizing k t with
  | nil =>
    obtain rfl : [] = t := Option.some.inj (by rwa [unescapeLoop] at h)
    simp
  | cons c s ih =>
    rw [List.mem_cons, not_or] at hhash hzero
    have hcons {j : ℕ} {b : UInt8} (hb : b ≠ 0x23 ∧ b ≠ 0)
        (hcount : (c :: s).count 0x25 = (s.drop j).count 0x25 + if b = 0x25 then 1 else 0)
        (hmap : (unescapeLoop j s).map (b :: ·) = some t) : t.count 0x25 = (c :: s).count 0x25 ∧ 0x23 ∉ t ∧ 0 ∉ t := by
      obtain ⟨t', ht', rfl⟩ := Option.map_eq_some_iff.1 hmap
      obtain ⟨hsame, hhash', hzero'⟩ := ih hhash.2 hzero.2 ht'
      rw [List.mem_cons, List.mem_cons, not_or, not_or, hcount, List.count_cons, hsame]
      simp only [beq_iff_eq]
      exact ⟨trivial, ⟨hb.1.symm, hhash'⟩, hb.2.symm, hzero'⟩
    have hkept (hmap : (unescapeLoop 0 s).map (c :: ·) = some t) := @hcons 0 c ⟨Ne.symm hhash.1, Ne.symm hzero.1⟩
      (by rw [List.count_cons, List.drop_zero]; simp only [beq_iff_eq]) hmap
    cases k with
    | succ k =>
      rw [unescapeLoop] at h
      exact ih hhash.2 hzero.2 h
    | zero =>
      rw [unescapeLoop] at h
      split_ifs at h with hc
      · obtain ⟨r, href, hr⟩ := Option.bind_eq_some_iff.1 h
        rcases r with _ | ⟨b, j⟩
        · exact hkept hr
        · have hhead : s.head? ≠ some 0x23 := fun hs => hhash.2 (List.mem_of_mem_head? hs)
          obtain ⟨n, u, rfl, hn, rfl, hb0, hb25, hb23⟩ := exists_of_reference hhead href
          have hdrop : (n ++ 0x3B :: u).drop (n.length + 1) = u := by
            rw [← List.drop_drop, List.drop_left, List.drop_one, List.tail_cons]
          -- there is no percent sign among the letters
          have hletters : n.count 0x25 = 0 := List.count_eq_zero.2 fun hmem =>
            Bool.noConfusion (hn _ hmem : isLetter 0x25 = true)
          refine hcons ⟨hb23, hb0⟩ ?_ hr
          rw [hdrop, if_neg hb25, hc, List.count_cons_of_ne (by decide), List.count_append, hletters,
            List.count_cons_of_ne (by decide), Nat.zero_add, Nat.add_zero]
      · exact hkept h

/-! ## The decoded text -/

/-- What `UdmSGMLUnescape` makes of a text. -/
def decoded (s : List UInt8) : List UInt8 := (udmSGMLUnescape s).getD []

theorem unescapeLoop_eq_decoded (s : List UInt8) : unescapeLoop 0 s = some (decoded s) := by
  obtain ⟨t, ht⟩ := exists_unescapeLoop 0 s
  rw [decoded, udmSGMLUnescape, ht]
  rfl

theorem decoded_eq (h : unescapeLoop 0 s = some t) : decoded s = t := by
  rw [decoded, udmSGMLUnescape, h]
  rfl

theorem decoded_kept {a : List UInt8} (ha : 0x26 ∉ a) (s : List UInt8) : decoded (a ++ s) = a ++ decoded s := by
  apply decoded_eq
  rw [unescapeLoop_kept ha, unescapeLoop_eq_decoded, Option.map_some]

theorem decoded_append {d : UInt8} (hd : EndsReference d) (a s : List UInt8) :
    decoded (a ++ d :: s) = decoded a ++ decoded (d :: s) := by
  apply decoded_eq
  rw [unescapeLoop_append hd (Nat.zero_le _), unescapeLoop_eq_decoded, unescapeLoop_eq_decoded (d :: s),
    Option.bind_some, Option.map_some]

theorem length_decoded_le (s : List UInt8) : (decoded s).length ≤ s.length :=
  length_unescapeLoop_le (Nat.zero_le _) (unescapeLoop_eq_decoded s)

theorem NoReference.decoded (h : NoReference s) : decoded s = s := decoded_eq h.unescapeLoop

theorem noReference_of_le (h : s.length ≤ (decoded s).length) : NoReference s :=
  noReference_of_length (unescapeLoop_eq_decoded s) h

end MnoGoSearch.Sgml
