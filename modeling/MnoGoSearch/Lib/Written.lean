import MnoGoSearch.Lib.Segments

/-!
# Strings that are changed in place

A string with an end mark in memory, and how far that memory has been written. A change writes a new
end of the string at some place of it, the end mark included. A change that does not make the string
longer writes nothing behind what had been written (`shrinks_puts`); `shrinks_rewriteAll` says it of
the loop that looks for a pattern.
-/

namespace MnoGoSearch.Lib

open Segments

variable {α : Type}

/-- A string in memory. -/
structure Written (α : Type) where
  /-- The string, up to the end mark. -/
  str : List α
  /-- The number of places that have been written, counted from the beginning. -/
  top : ℕ
  /-- The end mark has been written. -/
  lt_top : str.length < top

namespace Written

/-- A string that is written at the beginning. -/
def new (s : List α) : Written α := ⟨s, s.length + 1, Nat.lt_succ_self _⟩

/-- A string that is written at some place of the one that is there. -/
def puts (b : Written α) (i : ℕ) (s : List α) : Written α where
  str := b.str.take i ++ s
  top := max b.top (i + s.length + 1)
  lt_top := by
    rw [List.length_append, List.length_take]
    omega

@[simp] theorem str_new (s : List α) : (new s).str = s := rfl

@[simp] theorem top_new (s : List α) : (new s).top = s.length + 1 := rfl

@[simp] theorem str_puts (b : Written α) (i : ℕ) (s : List α) : (b.puts i s).str = b.str.take i ++ s := rfl

theorem top_puts_length (b : Written α) (s : List α) :
    (b.puts b.str.length s).top = max b.top (b.str.length + s.length + 1) := rfl

/-- The string has not become longer, and nothing was written behind what had been written. -/
structure Shrinks (b b' : Written α) : Prop where
  /-- The same places have been written. -/
  top_eq : b'.top = b.top
  length_le : b'.str.length ≤ b.str.length

theorem Shrinks.refl (b : Written α) : Shrinks b b := ⟨rfl, le_rfl⟩

theorem Shrinks.trans {b b' b'' : Written α} (h : Shrinks b b') (h' : Shrinks b' b'') : Shrinks b b'' :=
  ⟨h'.top_eq.trans h.top_eq, h'.length_le.trans h.length_le⟩

/-- **What ends before the end of the string is inside of what has been written.** -/
theorem shrinks_puts {b : Written α} {i : ℕ} {s : List α} (h : i + s.length ≤ b.str.length) : Shrinks b (b.puts i s) where
  top_eq := by
    have := b.lt_top
    change max b.top (i + s.length + 1) = b.top
    omega
  length_le := by
    rw [str_puts, List.length_append, List.length_take]
    omega

variable [DecidableEq α]

/-- `Segments.rewriteAll`, in place. -/
def rewriteAll (w : List α) (f : Written α → ℕ → Written α) : ℕ → Written α → Written α
  | 0, b => b
  | fuel + 1, b =>
    match strstr b.str w with
    | none => b
    | some d => rewriteAll w f fuel (f b d)

variable {w : List α} {f : Written α → ℕ → Written α}

theorem str_rewriteAll {g : List α → ℕ → List α}
    (hf : ∀ b d, (f b d).str = g b.str d) (fuel : ℕ) (b : Written α) :
    (rewriteAll w f fuel b).str = Segments.rewriteAll w g fuel b.str := by
  induction fuel generalizing b with
  | zero => rfl
  | succ fuel ih =>
    rw [rewriteAll, Segments.rewriteAll]
    cases strstr b.str w with
    | none => rfl
    | some d =>
      dsimp only
      rw [ih, hf]

/-- **The loop stays inside of what has been written where every change does.** -/
theorem shrinks_rewriteAll
    (hf : ∀ b d, strstr b.str w = some d → Shrinks b (f b d)) (fuel : ℕ) (b : Written α) :
    Shrinks b (rewriteAll w f fuel b) := by
  induction fuel generalizing b with
  | zero => exact Shrinks.refl b
  | succ fuel ih =>
    rw [rewriteAll]
    cases hd : strstr b.str w with
    | none => exact Shrinks.refl b
    | some d => exact (hf b d hd).trans (ih (f b d))

end Written

end MnoGoSearch.Lib
