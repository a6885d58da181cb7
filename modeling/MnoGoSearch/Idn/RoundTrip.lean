import MnoGoSearch.Idn.Punycode
import Mathlib

/-!
# Punycode is decoded

What `punycode_encode` writes is read by `punycode_decode` as it was. The encoder goes over the code points in their
order, and over the places of each; the decoder keeps the list of those that are done and the place of the last one. The
deltas are the steps between one place and the next, and both adapt the bias alike.
-/

namespace MnoGoSearch.Idn

/-! ## Integers -/

theorem decodeDigit_encodeDigit {d : ℕ} (h : d < 36) : decodeDigit (encodeDigit d) = d := by
  interval_cases d <;> rfl

/-- The characters are those of digits. -/
def Digits (s : List UInt8) : Prop := ∀ c ∈ s, isPunycode c = true ∧ c ≠ 0x2D

theorem digit_encodeDigit {d : ℕ} (h : d < 36) : isPunycode (encodeDigit d) = true ∧ encodeDigit d ≠ 0x2D := by
  interval_cases d <;> decide

theorem one_le_threshold (k bias : ℕ) : 1 ≤ threshold k bias ∧ threshold k bias ≤ 26 := by
  unfold threshold
  split_ifs <;> omega

/-- Up to the places with the greatest threshold the weight is a power of 35. -/
def Weight (k bias w : ℕ) : Prop := threshold k bias < 26 → ∃ m, w = 35 ^ m

theorem weight_next {k bias w : ℕ} (h : Weight k bias w) : Weight (k + 36) bias (w * (36 - threshold k bias)) := by
  intro hlt
  have hk : k ≤ bias := by
    unfold threshold at hlt
    split_ifs at hlt <;> omega
  have hone : threshold k bias = 1 := if_pos hk
  obtain ⟨m, rfl⟩ := h (by omega)
  exact ⟨m + 1, by rw [hone, pow_succ]⟩

theorem weight_le {k bias w q : ℕ} (h : Weight k bias w) (hq : threshold k bias ≤ q) (hsmall : q * w < 35 ^ 6) :
    w * (36 - threshold k bias) ≤ maxint := by
  obtain ⟨h1, h26⟩ := one_le_threshold k bias
  by_cases hlt : threshold k bias < 26
  · obtain ⟨m, rfl⟩ := h hlt
    have hm : m < 6 := (Nat.pow_lt_pow_iff_right (by decide)).1
      (lt_of_le_of_lt (Nat.le_mul_of_pos_left _ (h1.trans hq)) hsmall)
    calc 35 ^ m * (36 - threshold k bias) ≤ 35 ^ 5 * 35 :=
          Nat.mul_le_mul (Nat.pow_le_pow_right (by decide) (Nat.le_of_lt_succ hm)) (by omega)
      _ ≤ maxint := by decide
  · calc w * (36 - threshold k bias) ≤ w * q := Nat.mul_le_mul_left w (by omega)
      _ ≤ maxint := by rw [Nat.mul_comm]; exact (hsmall.trans (by decide)).le

theorem decodeInteger_encodeInteger {bias fuel room k q w i : ℕ} {s : List UInt8}
    (h : encodeInteger bias fuel room k q = some s) (hw : 0 < w) (hweight : Weight k bias w)
    (hsmall : i + q * w < 35 ^ 6) (rest : List UInt8) :
    decodeInteger bias (s ++ rest) k w i = some (i + q * w, rest) := by
  induction fuel generalizing room k q w i s with
  | zero => cases h
  | succ fuel ih =>
    obtain ⟨h1, h26⟩ := one_le_threshold k bias
    -- a digit that does not go beyond the integer is within the limits
    have hdigit {d : ℕ} (hd : d < 36) (hdq : d ≤ q) : ¬(36 ≤ d ∨ (maxint - i) / w < d) := by
      rw [not_or, Nat.not_le, Nat.not_lt, Nat.le_div_iff_mul_le hw]
      have hle := Nat.mul_le_mul_right w hdq
      have hmax : (35 : ℕ) ^ 6 ≤ maxint := by decide
      exact ⟨hd, by omega⟩
    rw [encodeInteger] at h
    split_ifs at h with hroom
    simp only at h
    split_ifs at h with hq
    · cases h
      have hq36 : q < 36 := by omega
      rw [List.singleton_append, decodeInteger, decodeDigit_encodeDigit hq36]
      simp only [if_neg (hdigit hq36 le_rfl), if_pos hq]
    · obtain ⟨s', hs', rfl⟩ := Option.map_eq_some_iff.1 h
      rw [Nat.not_lt] at hq
      have hmod := Nat.mod_lt (q - threshold k bias) (show 36 - threshold k bias > 0 by omega)
      have hdiv := Nat.mod_add_div (q - threshold k bias) (36 - threshold k bias)
      have hweight' : w * (36 - threshold k bias) ≤ maxint := weight_le hweight hq (by omega)
      have hq' : q = threshold k bias + (q - threshold k bias) % (36 - threshold k bias) +
          (q - threshold k bias) / (36 - threshold k bias) * (36 - threshold k bias) := by
        rw [Nat.mul_comm ((q - threshold k bias) / _)]
        omega
      generalize (q - threshold k bias) % (36 - threshold k bias) = r at hmod hq' ⊢
      generalize (q - threshold k bias) / (36 - threshold k bias) = q' at hs' hq'
      have hsum : i + q * w = i + (threshold k bias + r) * w + q' * (w * (36 - threshold k bias)) := by
        rw [hq']
        ring
      rw [List.cons_append, decodeInteger, decodeDigit_encodeDigit (by omega)]
      simp only [if_neg (hdigit (show threshold k bias + r < 36 by omega) (by omega)),
        if_neg (Nat.not_lt.2 (Nat.le_add_right _ r)),
        if_neg (Nat.not_lt.2 ((Nat.le_div_iff_mul_le (by omega)).2 hweight'))]
      rw [ih hs' (Nat.mul_pos hw (by omega)) (weight_next hweight) (hsum ▸ hsmall), hsum]

theorem digits_encodeInteger {bias fuel room k q : ℕ} {s : List UInt8}
    (h : encodeInteger bias fuel room k q = some s) : Digits s ∧ s ≠ [] := by
  induction fuel generalizing room k q s with
  | zero => cases h
  | succ fuel ih =>
    obtain ⟨h1, h26⟩ := one_le_threshold k bias
    rw [encodeInteger] at h
    split_ifs at h
    simp only at h
    split_ifs at h with hq
    · cases h
      exact ⟨List.forall_mem_singleton.2 (digit_encodeDigit (by omega)), List.cons_ne_nil _ _⟩
    · obtain ⟨s', hs', rfl⟩ := Option.map_eq_some_iff.1 h
      have hmod := Nat.mod_lt (q - threshold k bias) (show 36 - threshold k bias > 0 by omega)
      exact ⟨List.forall_mem_cons.2 ⟨digit_encodeDigit (by omega), (ih hs').1⟩, List.cons_ne_nil _ _⟩

/-! ## The decoder -/

/-- The variables of `punycode_decode`. -/
structure Decoder where
  bias : ℕ
  n : ℕ
  i : ℕ
  output : List ℕ

/-- The decoder in the state `d` reads `s`, and is in the state `d'`. -/
def Reads (room : ℕ) (s : List UInt8) (d d' : Decoder) : Prop :=
  ∀ rest fuel, (s ++ rest).length ≤ fuel → ∃ fuel', rest.length ≤ fuel' ∧
    decodeLoop room fuel d.bias d.n d.i d.output (s ++ rest) = decodeLoop room fuel' d'.bias d'.n d'.i d'.output rest

theorem Reads.refl (room : ℕ) (d : Decoder) : Reads room [] d d := fun _ fuel hfuel => ⟨fuel, hfuel, rfl⟩

theorem Reads.trans {room : ℕ} {s s' : List UInt8} {d d' d'' : Decoder} (h : Reads room s d d')
    (h' : Reads room s' d' d'') : Reads room (s ++ s') d d'' := by
  intro rest fuel hfuel
  rw [List.append_assoc] at hfuel ⊢
  obtain ⟨fuel', hfuel', heq⟩ := h (s' ++ rest) fuel hfuel
  obtain ⟨fuel'', hfuel'', heq'⟩ := h' rest fuel' hfuel'
  exact ⟨fuel'', hfuel'', heq.trans heq'⟩

/-- An integer leads to the place `i` among the places of the code point `n`, and the code point is inserted there. -/
theorem reads_encodeInteger {room room' fuel delta n i : ℕ} {s : List UInt8} {d : Decoder}
    (h : encodeInteger d.bias fuel room' 36 delta = some s) (hsmall : d.i + delta < 35 ^ 6)
    (hdelta : d.i + delta + d.n * (d.output.length + 1) = n * (d.output.length + 1) + i) (hi : i ≤ d.output.length)
    (hn : n ≤ maxint) (hroom : d.output.length < room) :
    Reads room s d ⟨adapt delta (d.output.length + 1) (d.i == 0), n, i + 1, d.output.insertIdx i n⟩ := by
  intro rest fuel' hfuel
  have hread := decodeInteger_encodeInteger h Nat.one_pos (fun _ => ⟨0, rfl⟩) (by rwa [Nat.mul_one]) rest
  obtain ⟨c, s, rfl⟩ := List.exists_cons_of_ne_nil (digits_encodeInteger h).2
  obtain ⟨fuel', rfl⟩ := Nat.exists_eq_succ_of_ne_zero (Nat.ne_of_gt (Nat.lt_of_lt_of_le (Nat.succ_pos _) hfuel))
  have hdn : d.n ≤ n := by
    by_contra hlt
    have hmul := Nat.mul_le_mul_right (d.output.length + 1) (Nat.succ_le_of_lt (Nat.lt_of_not_le hlt))
    rw [Nat.succ_mul] at hmul
    omega
  obtain ⟨e, rfl⟩ := Nat.exists_eq_add_of_le hdn
  have hie : d.i + delta = i + (d.output.length + 1) * e := by
    rw [Nat.add_mul, Nat.mul_comm e] at hdelta
    omega
  have hdiv : (d.i + delta) / (d.output.length + 1) = e := by
    rw [hie, Nat.add_mul_div_left _ _ (Nat.succ_pos _), Nat.div_eq_of_lt (Nat.lt_succ_of_le hi), Nat.zero_add]
  have hmod : (d.i + delta) % (d.output.length + 1) = i := by
    rw [hie, Nat.add_mul_mod_self_left, Nat.mod_eq_of_lt (Nat.lt_succ_of_le hi)]
  refine ⟨fuel', ?_, ?_⟩
  · simp only [List.cons_append, List.length_cons, List.length_append] at hfuel
    omega
  · rw [List.cons_append] at hread ⊢
    rw [decodeLoop, hread, Option.bind_some]
    simp only [Nat.mul_one, hdiv, hmod, Nat.add_sub_cancel_left]
    rw [if_neg (by omega), if_neg (by omega)]

/-! ## The encoder and the decoder -/

/-- The code points that are done when the encoder is between `l₁` and `l₂`, with the code point `n`. -/
def handled (n : ℕ) (l₁ l₂ : List ℕ) : List ℕ := l₁.filter (· ≤ n) ++ l₂.filter (· < n)

/-- The decoder has the code points that are done, and the delta leads it to the place of the encoder. -/
structure Sync (b : ℕ) (st : EncodeState) (l₁ l₂ : List ℕ) (d : Decoder) : Prop where
  h : st.h = d.output.length
  output : d.output = handled st.n l₁ l₂
  bias : d.bias = st.bias
  delta : st.delta + d.i + d.n * (st.h + 1) = st.n * (st.h + 1) + (l₁.filter (· ≤ st.n)).length
  first : st.h = b ↔ d.i = 0
  basic : b ≤ st.h

variable {b : ℕ} {st st' : EncodeState} {l₁ l₂ input : List ℕ} {d : Decoder}

theorem insertIdx_append {α : Type} (l l' : List α) (a : α) : (l ++ l').insertIdx l.length a = l ++ a :: l' := by
  induction l with
  | nil => rfl
  | cons b l ih => rw [List.cons_append, List.length_cons, List.insertIdx_succ_cons, ih, List.cons_append]

theorem length_filter_snoc {cp n : ℕ} (l : List ℕ) (h : cp ≤ n) :
    ((l ++ [cp]).filter (· ≤ n)).length = (l.filter (· ≤ n)).length + 1 := by simp [h]

theorem length_handled_le (n : ℕ) (l₁ l₂ : List ℕ) : (handled n l₁ l₂).length ≤ (l₁ ++ l₂).length := by
  rw [handled, List.length_append, List.length_append]
  exact Nat.add_le_add (List.length_filter_le _ _) (List.length_filter_le _ _)

theorem Sync.delta_lt (hsync : Sync b st l₁ l₂ d) (hsmall : (st.n + 1) * ((l₁ ++ l₂).length + 1) < 35 ^ 6) :
    st.delta + d.i < 35 ^ 6 ∧ st.delta + 1 ≤ maxint ∧ st.n + 1 ≤ maxint := by
  have hlen := length_handled_le st.n l₁ l₂
  have hpos : (l₁.filter (· ≤ st.n)).length ≤ (handled st.n l₁ l₂).length := by
    rw [handled, List.length_append]
    exact Nat.le_add_right _ _
  have hdelta := hsync.delta
  have hh := hsync.h
  rw [hsync.output] at hh
  have hle : (st.n + 1) * (st.h + 1) ≤ (st.n + 1) * ((l₁ ++ l₂).length + 1) := Nat.mul_le_mul_left _ (by omega)
  have hn : st.n + 1 ≤ (st.n + 1) * ((l₁ ++ l₂).length + 1) := Nat.le_mul_of_pos_right _ (Nat.succ_pos _)
  have hmax : (35 : ℕ) ^ 6 < maxint := by decide
  rw [Nat.succ_mul] at hle
  refine ⟨?_, ?_, ?_⟩ <;> omega

/-- **The inner loop**: what it writes is read, and the decoder comes to the end of the round with it. -/
theorem Sync.foldlM {room room' : ℕ} (hsync : Sync b st l₁ l₂ d)
    (hsmall : (st.n + 1) * ((l₁ ++ l₂).length + 1) < 35 ^ 6) (hroom : (l₁ ++ l₂).length ≤ room')
    (h : l₂.foldlM (encodePoint room b) st = some st') :
    ∃ s d', st'.output = st.output ++ s ∧ Digits s ∧ Reads room' s d d' ∧ Sync b st' (l₁ ++ l₂) [] d' ∧
      st'.n = st.n := by
  induction l₂ generalizing l₁ st d with
  | nil =>
    obtain rfl := Option.some.inj h
    rw [List.append_nil]
    exact ⟨[], d, (List.append_nil _).symm, List.forall_mem_nil _, Reads.refl _ _, hsync, rfl⟩
  | cons cp l₂ ih =>
    obtain ⟨hdelta, hmax, hnmax⟩ := hsync.delta_lt hsmall
    rw [List.foldlM_cons] at h
    obtain ⟨st₁, hst₁, hrest⟩ := Option.bind_eq_some_iff.1 h
    rw [List.append_cons] at hsmall hroom ⊢
    obtain ⟨hh, houtput, hbias, hsteps, hfirst, hbasic⟩ := hsync
    rw [encodePoint] at hst₁
    rcases Nat.lt_trichotomy cp st.n with hlt | heq | hgt
    · -- the decoder passes a place of this code point
      have hu : toUint (st.delta + 1) = st.delta + 1 := Nat.mod_eq_of_lt (by unfold maxint at hmax; omega)
      simp only [if_pos hlt, hu, Nat.succ_ne_zero, and_false, if_false, if_neg hlt.ne] at hst₁
      obtain rfl := Option.some.inj hst₁
      have hnext : Sync b { st with delta := st.delta + 1 } (l₁ ++ [cp]) l₂ d := by
        refine ⟨hh, by rw [houtput]; simp [handled, hlt, hlt.le], hbias, ?_, hfirst, hbasic⟩
        rw [length_filter_snoc l₁ hlt.le]
        simp only
        omega
      have hind := ih hnext hsmall hroom hrest
      exact hind
    · -- the code point is written
      subst heq
      simp only [lt_irrefl, if_false, false_and, if_true] at hst₁
      obtain ⟨s, hs, rfl⟩ := Option.map_eq_some_iff.1 hst₁
      have hpos : (l₁.filter (· ≤ st.n)).length ≤ d.output.length := by
        rw [houtput, handled, List.length_append]
        exact Nat.le_add_right _ _
      have hcons : handled st.n l₁ (st.n :: l₂) = handled st.n l₁ l₂ := by simp [handled]
      have hroom' : d.output.length < room' := by
        have hlen := length_handled_le st.n l₁ l₂
        rw [houtput, hcons]
        simp only [List.length_append, List.length_singleton] at hlen hroom
        omega
      rw [← hbias] at hs
      rw [hh] at hsteps
      have hread := reads_encodeInteger hs (by omega) (by omega) hpos (Nat.le_of_succ_le hnmax) hroom'
      have hflag : (st.h == b) = (d.i == 0) := by
        rw [Bool.eq_iff_iff, beq_iff_eq, beq_iff_eq]
        exact hfirst
      have hnext : Sync b { st with
          output := st.output ++ s, bias := adapt st.delta (st.h + 1) (st.h == b), delta := 0, h := st.h + 1 }
          (l₁ ++ [st.n]) l₂ ⟨adapt st.delta (d.output.length + 1) (d.i == 0), st.n, (l₁.filter (· ≤ st.n)).length + 1,
            d.output.insertIdx (l₁.filter (· ≤ st.n)).length st.n⟩ := by
        refine ⟨?_, ?_, by rw [hflag, hh], ?_, iff_of_false ?_ (Nat.succ_ne_zero _), Nat.le_succ_of_le hbasic⟩
        · rw [List.length_insertIdx_of_le_length hpos, hh]
        · rw [houtput, hcons, handled, insertIdx_append]
          simp [handled]
        · rw [length_filter_snoc l₁ le_rfl]
          simp only
          omega
        · exact (Nat.lt_succ_of_le hbasic).ne'
      obtain ⟨s', d', hs', hdigits, hread', hsync', hn⟩ := ih hnext hsmall hroom hrest
      exact ⟨s ++ s', d', by rw [hs', List.append_assoc],
        List.forall_mem_append.2 ⟨(digits_encodeInteger hs).1, hdigits⟩, hread.trans hread', hsync', hn⟩
    · simp only [hgt.not_gt, false_and, if_false, if_neg hgt.ne'] at hst₁
      obtain rfl := Option.some.inj hst₁
      have hnext : Sync b st (l₁ ++ [cp]) l₂ d :=
        ⟨hh, by rw [houtput]; simp [handled, hgt.not_gt, hgt.not_ge], hbias,
          by simpa [List.filter_append, hgt.not_ge] using hsteps, hfirst, hbasic⟩
      have hind := ih hnext hsmall hroom hrest
      exact hind

/-! ## The main loops -/

theorem foldl_least (n : ℕ) (l : List ℕ) (m : ℕ) :
    let r := l.foldl (fun m cp => if n ≤ cp ∧ cp < m then cp else m) m
    r ≤ m ∧ (r = m ∨ r ∈ l ∧ n ≤ r) ∧ ∀ cp ∈ l, n ≤ cp → r ≤ cp := by
  induction l generalizing m with
  | nil => exact ⟨le_rfl, Or.inl rfl, by simp⟩
  | cons c l ih =>
    rw [List.foldl_cons]
    obtain ⟨hle, hmem, hleast⟩ := ih (if n ≤ c ∧ c < m then c else m)
    split_ifs at hle hmem hleast ⊢ with hc
    · refine ⟨hle.trans hc.2.le, Or.inr ?_, ?_⟩
      · rcases hmem with heq | ⟨hmem, hn⟩
        · rw [heq]
          exact ⟨List.mem_cons_self, hc.1⟩
        · exact ⟨List.mem_cons_of_mem _ hmem, hn⟩
      · rw [List.forall_mem_cons]
        exact ⟨fun _ => hle, hleast⟩
    · refine ⟨hle, hmem.imp_right fun h => ⟨List.mem_cons_of_mem _ h.1, h.2⟩, ?_⟩
      rw [List.forall_mem_cons]
      exact ⟨fun hn => hle.trans (by omega), hleast⟩

theorem nextPoint_spec {n : ℕ} (hmax : ∀ cp ∈ input, cp < maxint) (hleft : ∃ cp ∈ input, n ≤ cp) :
    nextPoint input n ∈ input ∧ n ≤ nextPoint input n ∧ ∀ cp ∈ input, n ≤ cp → nextPoint input n ≤ cp := by
  obtain ⟨-, hmem, hleast⟩ := foldl_least n input maxint
  obtain ⟨cp, hcp, hn⟩ := hleft
  rcases hmem with heq | ⟨hmem, hle⟩
  · exact absurd (heq ▸ hleast cp hcp hn) (Nat.not_le.2 (hmax cp hcp))
  · exact ⟨hmem, hle, hleast⟩

theorem handled_nil (n : ℕ) (l : List ℕ) : handled n [] l = l.filter (· < n) := rfl

/-- **The rounds** of the encoder: the decoder ends with all code points. -/
theorem Sync.encodeLoop {room room' fuel : ℕ} {output : List UInt8} (hsync : Sync b st [] input d)
    (hsmall : ∀ cp ∈ input, (cp + 1) * (input.length + 1) < 35 ^ 6) (hroom : input.length ≤ room')
    (h : encodeLoop room b input fuel st = some output) :
    ∃ s d', output = st.output ++ s ∧ Digits s ∧ Reads room' s d d' ∧ d'.output = input := by
  induction fuel generalizing st d with
  | zero => cases h
  | succ fuel ih =>
    have houtput := hsync.output
    have hh := hsync.h
    rw [houtput, handled_nil] at hh
    rw [Idn.encodeLoop] at h
    split_ifs at h with hdone
    · refine ⟨[], d, by simpa using h.symm, List.forall_mem_nil _, Reads.refl _ _, ?_⟩
      rw [houtput, handled_nil]
      exact List.filter_sublist.eq_of_length_le (by omega)
    · have hmax : ∀ cp ∈ input, cp < maxint := by
        intro cp hcp
        have hcp35 : (35 : ℕ) ^ 6 < maxint := by decide
        have hle : cp + 1 ≤ (cp + 1) * (input.length + 1) := Nat.le_mul_of_pos_right _ (Nat.succ_pos _)
        have := hsmall cp hcp
        omega
      have hleft : ∃ cp ∈ input, st.n ≤ cp := by
        by_contra hnone
        rw [List.filter_eq_self.2 fun cp hcp => decide_eq_true (Nat.lt_of_not_le fun hle => hnone ⟨cp, hcp, hle⟩)] at hh
        omega
      obtain ⟨hmem, hle, hleast⟩ := nextPoint_spec hmax hleft
      simp only at h
      generalize nextPoint input st.n = m at h hmem hle hleast
      split_ifs at h
      obtain ⟨st₂, hfold, hloop⟩ := Option.bind_eq_some_iff.1 h
      have hsame : input.filter (· < m) = input.filter (· < st.n) := by
        refine List.filter_congr fun cp hcp => decide_eq_decide.2 ⟨fun hlt => ?_, fun hlt => hlt.trans_le hle⟩
        exact Nat.lt_of_not_le fun hge => absurd (hleast cp hcp hge) (Nat.not_le.2 hlt)
      obtain ⟨e, rfl⟩ := Nat.exists_eq_add_of_le hle
      have hsync₁ : Sync b { st with n := st.n + e, delta := st.delta + (st.n + e - st.n) * (st.h + 1) } [] input d := by
        refine ⟨hsync.h, by rw [houtput, handled_nil, handled_nil, hsame], hsync.bias, ?_, hsync.first, hsync.basic⟩
        have hdelta := hsync.delta
        simp only [List.filter_nil, List.length_nil, Nat.add_zero, Nat.add_sub_cancel_left, Nat.add_mul] at hdelta ⊢
        omega
      obtain ⟨s, d₂, hs, hdigits, hread, hsync₂, hn⟩ := hsync₁.foldlM (hsmall _ hmem) hroom hfold
      simp only at hn hs
      obtain ⟨-, hdelta₂, hn₂⟩ := hsync₂.delta_lt (by rw [hn, List.append_nil]; exact hsmall _ hmem)
      have hnu : toUint (st₂.n + 1) = st₂.n + 1 := Nat.mod_eq_of_lt (by unfold maxint at hn₂; omega)
      have hdu : toUint (st₂.delta + 1) = st₂.delta + 1 := Nat.mod_eq_of_lt (by unfold maxint at hdelta₂; omega)
      rw [hnu, hdu] at hloop
      have hall : handled st₂.n ([] ++ input) [] = input.filter (· ≤ st₂.n) := by simp [handled]
      have hsync₃ : Sync b { st₂ with n := st₂.n + 1, delta := st₂.delta + 1 } [] input d₂ := by
        have hlen := hsync₂.h
        have hdelta := hsync₂.delta
        rw [hsync₂.output, hall] at hlen
        refine ⟨hsync₂.h, ?_, hsync₂.bias, ?_, hsync₂.first, hsync₂.basic⟩
        · rw [hsync₂.output, hall, handled_nil]
          exact List.filter_congr fun cp _ => decide_eq_decide.2 Nat.lt_succ_iff.symm
        · simp only [List.nil_append, List.filter_nil, List.length_nil, Nat.add_zero, ← hlen] at hdelta ⊢
          rw [Nat.succ_mul st₂.n]
          omega
      obtain ⟨s', d', hs', hdigits', hread', hfinal⟩ := ih hsync₃ hloop
      exact ⟨s ++ s', d', by rw [hs', hs, List.append_assoc], List.forall_mem_append.2 ⟨hdigits, hdigits'⟩,
        hread.trans hread', hfinal⟩

theorem toNat_ofNat_basic {cp : ℕ} (h : cp < 0x80) : (UInt8.ofNat cp).toNat = cp ∧ ¬0x80 ≤ UInt8.ofNat cp := by
  have hval : (UInt8.ofNat cp).toNat = cp := by
    rw [UInt8.toNat_ofNat']
    omega
  refine ⟨hval, fun hle => ?_⟩
  have := UInt8.le_iff_toNat_le.1 hle
  rw [hval] at this
  exact Nat.not_lt.2 this h

theorem punycodeDecode_of_notMem (room : ℕ) {s : List UInt8} (hs : 0x2D ∉ s) :
    punycodeDecode s room = decodeLoop room s.length 72 0x80 0 [] s := by
  simp [punycodeDecode, hs]

theorem punycodeDecode_append {room : ℕ} {basic s : List UInt8} (hs : 0x2D ∉ s) (hne : basic ≠ [])
    (hroom : basic.length ≤ room) (hbasic : ∀ c ∈ basic, ¬0x80 ≤ c) : punycodeDecode (basic ++ 0x2D :: s) room =
      decodeLoop room (basic ++ 0x2D :: s).length 72 0x80 0 (basic.map (·.toNat)) s := by
  have hidx : (basic ++ 0x2D :: s).reverse.findIdx (· == 0x2D) = s.length := by
    rw [List.reverse_append, List.reverse_cons, List.append_assoc, List.findIdx_append, if_neg]
    · simp [List.findIdx_cons]
    · rw [List.findIdx_lt_length]
      rintro ⟨c, hc, heq⟩
      exact hs (beq_iff_eq.1 heq ▸ List.mem_reverse.1 hc)
  have hb : (basic ++ 0x2D :: s).length - 1 - s.length = basic.length := by
    rw [List.length_append, List.length_cons]
    omega
  have hany : basic.any (0x80 ≤ ·) = false := by simpa using hbasic
  rw [punycodeDecode, hidx, hb]
  simp only [List.contains_iff_mem, List.mem_append, List.mem_cons, true_or, or_true, if_true, List.take_left, hany,
    Bool.false_eq_true, or_false, if_neg (Nat.not_lt.2 hroom), if_pos (List.length_pos_iff.2 hne)]
  rw [← List.drop_drop, List.drop_left, List.drop_one, List.tail_cons]

/-- **What is encoded** has the basic code points and digits, and is decoded to the code points. -/
theorem punycodeEncode_spec {room room' : ℕ} {output : List UInt8}
    (hsmall : ∀ cp ∈ input, (cp + 1) * (input.length + 1) < 35 ^ 6) (hroom : input.length ≤ room')
    (h : punycodeEncode input room = some output) :
    (∀ c ∈ output, c.toNat ∈ input ∨ isPunycode c = true) ∧ punycodeDecode output room' = some input := by
  rw [punycodeEncode] at h
  simp only at h
  generalize hb : input.filter (· < 0x80) = basic at h
  have hlen : basic.length ≤ input.length := hb ▸ List.length_filter_le _ _
  have hsmallBasic : ∀ cp ∈ basic, cp ∈ input ∧ cp < 0x80 := by
    intro cp hcp
    rwa [← hb, List.mem_filter, decide_eq_true_eq] at hcp
  have hback : (basic.map UInt8.ofNat).map (·.toNat) = basic := by
    rw [List.map_map]
    exact (List.map_congr_left fun cp hcp => (toNat_ofNat_basic (hsmallBasic cp hcp).2).1).trans (List.map_id _)
  -- with the basic code points the two have begun alike
  have hmain {out : List UInt8} (h : encodeLoop room (basic.map UInt8.ofNat).length input (input.length + 1)
      ⟨0x80, 0, 72, (basic.map UInt8.ofNat).length, out⟩ = some output) : ∃ s, output = out ++ s ∧ Digits s ∧
        ∀ fuel, s.length ≤ fuel → decodeLoop room' fuel 72 0x80 0 basic s = some input := by
    have hsync : Sync (basic.map UInt8.ofNat).length ⟨0x80, 0, 72, (basic.map UInt8.ofNat).length, out⟩ [] input
        ⟨72, 0x80, 0, basic⟩ :=
      ⟨List.length_map _, hb.symm, rfl, by simp, iff_of_true rfl rfl, le_rfl⟩
    obtain ⟨s, d', hs, hdigits, hread, hd'⟩ := hsync.encodeLoop hsmall hroom h
    refine ⟨s, hs, hdigits, fun fuel hfuel => ?_⟩
    obtain ⟨fuel', -, heq⟩ := hread [] fuel (by rwa [List.append_nil])
    rw [List.append_nil] at heq
    rw [heq, hd']
    cases fuel' <;> rfl
  split_ifs at h with hbig hnil
  · obtain ⟨s, rfl, hdigits, hs⟩ := hmain h
    rw [List.map_eq_nil_iff] at hnil
    rw [punycodeDecode_of_notMem room' fun hmem => (hdigits _ hmem).2 rfl, ← hnil]
    exact ⟨fun c hc => Or.inr (hdigits c hc).1, hs _ le_rfl⟩
  · obtain ⟨s, rfl, hdigits, hs⟩ := hmain h
    have hmem : ∀ c ∈ basic.map UInt8.ofNat, c.toNat ∈ input ∧ ¬0x80 ≤ c := by
      intro c hc
      obtain ⟨cp, hcp, rfl⟩ := List.mem_map.1 hc
      obtain ⟨hval, hlt⟩ := toNat_ofNat_basic (hsmallBasic cp hcp).2
      exact ⟨hval.symm ▸ (hsmallBasic cp hcp).1, hlt⟩
    rw [List.append_assoc, List.singleton_append, punycodeDecode_append (fun hmem => (hdigits _ hmem).2 rfl) hnil
      (by rw [List.length_map]; exact hlen.trans hroom) fun c hc => (hmem c hc).2, hback]
    refine ⟨List.forall_mem_append.2 ⟨fun c hc => Or.inl (hmem c hc).1, List.forall_mem_cons.2 ⟨Or.inr rfl, ?_⟩⟩, ?_⟩
    · exact fun c hc => Or.inr (hdigits c hc).1
    · exact hs _ (by simp only [List.length_append, List.length_cons]; omega)

/-- **Round trip**: what is encoded is decoded to the same code points, if there is room for them. -/
theorem punycodeDecode_punycodeEncode {room room' : ℕ} {output : List UInt8}
    (hsmall : ∀ cp ∈ input, (cp + 1) * (input.length + 1) < 35 ^ 6) (hroom : input.length ≤ room')
    (h : punycodeEncode input room = some output) : punycodeDecode output room' = some input :=
  (punycodeEncode_spec hsmall hroom h).2

/-- `café` is `caf-dma`. -/
theorem punycodeDecode_cafe :
    punycodeDecode [0x63, 0x61, 0x66, 0x2D, 0x64, 0x6D, 0x61] 4 = some [0x63, 0x61, 0x66, 0xE9] :=
  @punycodeDecode_punycodeEncode [0x63, 0x61, 0x66, 0xE9] 252 4 _ (by decide) le_rfl rfl

/-- **The labels of Unicode characters** are all kept, as far as there is room for them. -/
theorem encode_rfc3492 (hunicode : ∀ cp ∈ input, cp < 0x110000) (hlen : input.length ≤ labelLen + 1) :
    rfc3492.encode input = punycodeEncode input labelLen := by
  have hsmall : ∀ cp ∈ input, (cp + 1) * (input.length + 1) < 35 ^ 6 := fun cp hcp =>
    (Nat.mul_le_mul (hunicode cp hcp) (Nat.succ_le_succ hlen)).trans_lt (by decide)
  change (punycodeEncode input labelLen).filter (keeps input) = _
  cases h : punycodeEncode input labelLen with
  | none => rfl
  | some output =>
    obtain ⟨hmem, hdecode⟩ := punycodeEncode_spec hsmall hlen h
    have hne : input = [] ∨ output ≠ [] := by
      by_contra hnil
      rw [not_or, not_not] at hnil
      rw [hnil.2] at hdecode
      exact hnil.1 (Option.some.inj hdecode).symm
    refine Option.filter_some_pos ?_
    simp only [keeps, hdecode, Bool.and_eq_true, Bool.or_eq_true, Bool.not_eq_true', List.isEmpty_iff,
      List.isEmpty_eq_false_iff, List.all_eq_true, List.contains_iff_mem, beq_self_eq_true, and_true]
    exact ⟨hne, hmem⟩

theorem encode_rfc3492_cafe : rfc3492.encode [0x63, 0x61, 0x66, 0xE9] = punycodeEncode [0x63, 0x61, 0x66, 0xE9] labelLen :=
  encode_rfc3492 (by decide) (by decide)

end MnoGoSearch.Idn
