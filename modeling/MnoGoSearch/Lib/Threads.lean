import Mathlib.Data.Fintype.Card
import Mathlib.Logic.Function.Basic
import Mathlib.Logic.Relation

/-!
# Threads

Finitely many threads, each with a state of its own, that share a state. A step is a step of
one thread, which may change the shared state, or a step of the environment, which changes
nothing else. A property of the reachable states is an invariant of both kinds of steps, and
`count_update` says how the number of threads in some states changes.
-/

namespace MnoGoSearch.Lib.Threads

open Relation

/-- The shared state and the threads. -/
structure System (ι σ τ : Type*) where
  shared : σ
  thread : ι → τ

variable {ι σ τ : Type*}

/-- How many threads are in such a state. -/
def count [Fintype ι] (p : τ → Bool) (thread : ι → τ) : ℕ := (Finset.univ.filter fun i => p (thread i)).card

theorem count_eq_zero [Fintype ι] {p : τ → Bool} {thread : ι → τ} (h : ∀ i, p (thread i) = false) :
    count p thread = 0 := by
  simp [count, h]

variable [DecidableEq ι]

/-- The thread `i` goes to the state `t`, and the shared state to `s`. -/
def System.set (S : System ι σ τ) (i : ι) (s : σ) (t : τ) : System ι σ τ := ⟨s, Function.update S.thread i t⟩

@[simp] theorem System.set_shared (S : System ι σ τ) (i : ι) (s : σ) (t : τ) : (S.set i s t).shared = s := rfl

@[simp] theorem System.set_thread (S : System ι σ τ) (i : ι) (s : σ) (t : τ) : (S.set i s t).thread i = t :=
  Function.update_self ..

theorem System.set_thread_of_ne (S : System ι σ τ) {i j : ι} (h : j ≠ i) (s : σ) (t : τ) :
    (S.set i s t).thread j = S.thread j := Function.update_of_ne h ..

/-- A step of a thread, or of the environment. -/
inductive Step (threadStep : ι → σ → τ → σ → τ → Prop) (envStep : σ → σ → Prop) : System ι σ τ → System ι σ τ → Prop
  | thread {S : System ι σ τ} {i : ι} {s : σ} {t : τ} (h : threadStep i S.shared (S.thread i) s t) :
      Step threadStep envStep S (S.set i s t)
  | env {S : System ι σ τ} {s : σ} (h : envStep S.shared s) : Step threadStep envStep S ⟨s, S.thread⟩

/-- The states that some interleaving of steps leads to. -/
def Reachable (threadStep : ι → σ → τ → σ → τ → Prop) (envStep : σ → σ → Prop) (init : System ι σ τ → Prop)
    (S : System ι σ τ) : Prop :=
  ∃ S0, init S0 ∧ ReflTransGen (Step threadStep envStep) S0 S

section Reachable

variable {threadStep : ι → σ → τ → σ → τ → Prop} {envStep : σ → σ → Prop} {init : System ι σ τ → Prop}
  {S : System ι σ τ}

theorem Reachable.initial (h : init S) : Reachable threadStep envStep init S := ⟨S, h, .refl⟩

theorem Reachable.thread (h : Reachable threadStep envStep init S) {i : ι} {t0 t : τ} {s : σ} (ht : S.thread i = t0)
    (hstep : threadStep i S.shared t0 s t) : Reachable threadStep envStep init (S.set i s t) := by
  obtain ⟨S0, h0, hsteps⟩ := h
  exact ⟨S0, h0, hsteps.tail (.thread (ht ▸ hstep))⟩

theorem Reachable.env (h : Reachable threadStep envStep init S) {s : σ} (hstep : envStep S.shared s) :
    Reachable threadStep envStep init ⟨s, S.thread⟩ := by
  obtain ⟨S0, h0, hsteps⟩ := h
  exact ⟨S0, h0, hsteps.tail (.env hstep)⟩

/-- **What every step preserves holds in every reachable state.** -/
theorem Reachable.invariant {P : System ι σ τ → Prop} (hinit : ∀ S, init S → P S)
    (hthread : ∀ S i s t, P S → threadStep i S.shared (S.thread i) s t → P (S.set i s t))
    (henv : ∀ S s, P S → envStep S.shared s → P ⟨s, S.thread⟩) (h : Reachable threadStep envStep init S) : P S := by
  obtain ⟨S0, h0, hsteps⟩ := h
  induction hsteps with
  | refl => exact hinit S0 h0
  | tail _ hstep ih =>
    cases hstep with
    | thread hstep => exact hthread _ _ _ _ ih hstep
    | env hstep => exact henv _ _ ih hstep

end Reachable

theorem count_update [Fintype ι] (p : τ → Bool) (thread : ι → τ) (i : ι) (t : τ) :
    count p (Function.update thread i t) + (p (thread i)).toNat = count p thread + (p t).toNat := by
  have hsplit : ∀ f : ι → τ, count p f = ((Finset.univ.erase i).filter fun j => p (f j)).card + (p (f i)).toNat := by
    intro f
    rw [count, ← Finset.insert_erase (Finset.mem_univ i), Finset.filter_insert]
    cases p (f i) with
    | false => simp
    | true => simp
  have hrest : ((Finset.univ.erase i).filter fun j => p (Function.update thread i t j)) =
      (Finset.univ.erase i).filter fun j => p (thread j) := by
    refine Finset.filter_congr fun j hj => ?_
    rw [Function.update_of_ne (Finset.ne_of_mem_erase hj)]
  rw [hsplit, hsplit thread, hrest, Function.update_self]
  omega

end MnoGoSearch.Lib.Threads
