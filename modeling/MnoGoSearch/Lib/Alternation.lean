import Mathlib.Data.List.Basic
import Mathlib.Data.List.TakeDrop

/-!
# Alternating marks

An automaton reads a text in which two marks, one that opens and one that closes, have to alternate. A text that it accepts
can be cut anywhere, and the part between two cuts leads from the state at the one to the state at the other.
-/

namespace MnoGoSearch.Lib.Alternation

variable {α : Type*} [DecidableEq α] {opening closing : α}

/-- The automaton: whether a mark is open behind the text, nothing if the marks do not alternate. -/
def scan (opening closing : α) : Bool → List α → Option Bool
  | b, [] => some b
  | b, c :: s =>
    if c = opening then if b then none else scan opening closing true s
    else if c = closing then if b then scan opening closing false s else none
    else scan opening closing b s

theorem scan_cons (b : Bool) (c : α) (s : List α) :
    scan opening closing b (c :: s) =
      if c = opening then if b then none else scan opening closing true s
      else if c = closing then if b then scan opening closing false s else none
      else scan opening closing b s := rfl

theorem scan_append (b : Bool) (s t : List α) :
    scan opening closing b (s ++ t) = (scan opening closing b s).bind fun b => scan opening closing b t := by
  induction s generalizing b with
  | nil => rfl
  | cons c s ih =>
    rw [List.cons_append, scan_cons, scan_cons]
    split_ifs <;> first | rfl | exact ih _

variable {s : List α}

theorem scan_of_not_mem (hopen : opening ∉ s) (hclose : closing ∉ s) (b : Bool) :
    scan opening closing b s = some b := by
  induction s with
  | nil => rfl
  | cons c s ih =>
    rw [List.mem_cons, not_or] at hopen hclose
    rw [scan_cons, if_neg (Ne.symm hopen.1), if_neg (Ne.symm hclose.1)]
    exact ih hopen.2 hclose.2

theorem closing_mem_of_scan (h : scan opening closing true s = some false) : closing ∈ s := by
  induction s with
  | nil => exact nomatch h
  | cons c s ih =>
    rw [scan_cons] at h
    by_cases hopen : c = opening
    · rw [if_pos hopen, if_pos rfl] at h
      exact nomatch h
    · rw [if_neg hopen] at h
      by_cases hclose : c = closing
      · rw [hclose]
        exact List.mem_cons_self
      · rw [if_neg hclose] at h
        exact List.mem_cons_of_mem _ (ih h)

theorem scan_open_none {t : List α} (hclose : closing ∉ s) : scan opening closing true (s ++ opening :: t) = none := by
  induction s with
  | nil => rw [List.nil_append, scan_cons, if_pos rfl, if_pos rfl]
  | cons c s ih =>
    rw [List.mem_cons, not_or] at hclose
    rw [List.cons_append, scan_cons]
    by_cases hopen : c = opening
    · rw [if_pos hopen, if_pos rfl]
    · rw [if_neg hopen, if_neg (Ne.symm hclose.1)]
      exact ih hclose.2

theorem scan_closed (hopen : opening ∉ s) {d : Bool} (h : scan opening closing false s = some d) :
    d = false ∧ closing ∉ s := by
  induction s with
  | nil => exact ⟨(Option.some.inj h).symm, List.not_mem_nil⟩
  | cons c s ih =>
    rw [List.mem_cons, not_or] at hopen
    rw [scan_cons, if_neg (Ne.symm hopen.1)] at h
    by_cases hclose : c = closing
    · rw [if_pos hclose, if_neg (by simp)] at h
      exact nomatch h
    · rw [if_neg hclose] at h
      obtain ⟨hd, hnot⟩ := ih hopen.2 h
      exact ⟨hd, by rw [List.mem_cons, not_or]; exact ⟨Ne.symm hclose, hnot⟩⟩

theorem scan_closing (hopen : opening ∉ s) (hclose : closing ∈ s) {b d : Bool}
    (h : scan opening closing b s = some d) : b = true ∧ d = false := by
  induction s with
  | nil => exact absurd hclose List.not_mem_nil
  | cons c s ih =>
    rw [List.mem_cons, not_or] at hopen
    rw [scan_cons, if_neg (Ne.symm hopen.1)] at h
    by_cases hc : c = closing
    · rw [if_pos hc] at h
      cases b with
      | false => exact nomatch h
      | true =>
        rw [if_pos rfl] at h
        exact ⟨rfl, (scan_closed hopen.2 h).1⟩
    · rw [if_neg hc] at h
      exact ih hopen.2 ((List.mem_cons.1 hclose).resolve_left (Ne.symm hc)) h

/-! ## Cuts -/

section Cuts

variable {s : List α} {b c d : Bool} {i : ℕ}

theorem exists_scan_take (h : scan opening closing b s = some c) (k : ℕ) :
    ∃ d, scan opening closing b (s.take k) = some d := by
  rw [← List.take_append_drop k s, scan_append, Option.bind_eq_some_iff] at h
  obtain ⟨d, hd, -⟩ := h
  exact ⟨d, hd⟩

theorem scan_drop_take {k : ℕ} (hik : i ≤ k) (hi : scan opening closing b (s.take i) = some c)
    (hk : scan opening closing b (s.take k) = some d) : scan opening closing c ((s.take k).drop i) = some d := by
  have hcut : s.take k = s.take i ++ (s.take k).drop i := by
    conv_lhs => rw [← List.take_append_drop i (s.take k), List.take_take, Nat.min_eq_left hik]
  rw [hcut, scan_append, hi, Option.bind_some] at hk
  exact hk

theorem scan_take_opening (h : scan opening closing b s = some d) (hi : s[i]? = some opening) :
    scan opening closing b (s.take i) = some false := by
  obtain ⟨e, he⟩ := exists_scan_take h i
  obtain ⟨f, hf⟩ := exists_scan_take h (i + 1)
  rw [List.take_add_one, hi, scan_append, he, Option.bind_some] at hf
  cases e with
  | false => exact he
  | true => simp [scan_cons] at hf

theorem closing_mem_drop (h : scan opening closing b s = some false) (hi : s[i]? = some opening) :
    closing ∈ s.drop (i + 1) := by
  have hfront := scan_take_opening h hi
  have hbehind : scan opening closing b (s.take (i + 1)) = some true := by
    rw [List.take_add_one, hi, scan_append, hfront]
    rw [Option.bind_some, Option.toList_some, scan_cons, if_pos rfl, if_neg Bool.false_ne_true]
    rfl
  rw [← List.take_append_drop (i + 1) s, scan_append, hbehind, Option.bind_some] at h
  exact closing_mem_of_scan h

end Cuts

/-! ## Pairs -/

/-- The marks of a text. -/
def marks (opening closing : α) (s : List α) : List α := s.filter fun c => c == opening || c == closing

theorem scan_marks (b : Bool) (s : List α) :
    scan opening closing b (marks opening closing s) = scan opening closing b s := by
  induction s generalizing b with
  | nil => rfl
  | cons c s ih =>
    rw [marks] at ih ⊢
    by_cases hopen : c = opening
    · rw [List.filter_cons_of_pos (by simp [hopen]), scan_cons, scan_cons, if_pos hopen, if_pos hopen]
      simp only [ih]
    · by_cases hclose : c = closing
      · rw [List.filter_cons_of_pos (by simp [hclose]), scan_cons, scan_cons, if_neg hopen, if_neg hopen, if_pos hclose,
          if_pos hclose]
        simp only [ih]
      · rw [List.filter_cons_of_neg (by simp [hopen, hclose]), scan_cons, if_neg hopen, if_neg hclose]
        exact ih b

/-- **The automaton accepts the texts whose marks come in pairs.** -/
theorem scan_eq_some_false_iff (hne : opening ≠ closing) (s : List α) :
    scan opening closing false s = some false ↔
      ∃ n, marks opening closing s = (List.replicate n [opening, closing]).flatten := by
  rw [← scan_marks]
  have hmem : ∀ c ∈ marks opening closing s, c = opening ∨ c = closing := by
    intro c hc
    simpa [marks] using (List.mem_filter.1 hc).2
  generalize marks opening closing s = m at hmem
  constructor
  · intro h
    induction hlen : m.length using Nat.strongRecOn generalizing m with
    | _ k ih =>
      match m with
      | [] => exact ⟨0, rfl⟩
      | [c] =>
        rcases hmem c List.mem_cons_self with rfl | rfl
        · rw [scan_cons, if_pos rfl] at h
          exact nomatch h
        · rw [scan_cons, if_neg (Ne.symm hne), if_pos rfl] at h
          exact nomatch h
      | c :: d :: m =>
        rw [List.forall_mem_cons, List.forall_mem_cons] at hmem
        have hc : c = opening := by
          refine hmem.1.resolve_right fun hc => ?_
          rw [scan_cons, if_neg fun ho => hne (ho.symm.trans hc), if_pos hc] at h
          exact nomatch h
        rw [scan_cons, if_pos hc] at h
        have hd : d = closing := by
          refine hmem.2.1.resolve_left fun hd => ?_
          rw [if_neg (by simp), scan_cons, if_pos hd, if_pos rfl] at h
          exact nomatch h
        rw [if_neg (by simp), scan_cons, if_neg fun ho => hne (ho.symm.trans hd), if_pos hd, if_pos rfl] at h
        obtain ⟨n, hn⟩ := ih m.length (by rw [← hlen, List.length_cons, List.length_cons]; omega) m hmem.2.2 h rfl
        exact ⟨n + 1, by rw [hc, hd, hn, List.replicate_succ, List.flatten_cons]; rfl⟩
  · rintro ⟨n, rfl⟩
    clear hmem
    induction n with
    | zero => rfl
    | succ n ih =>
      rw [List.replicate_succ, List.flatten_cons, scan_append]
      simp only [scan_cons, if_pos, if_neg (Ne.symm hne), Bool.false_eq_true, if_false]
      exact ih

end MnoGoSearch.Lib.Alternation
