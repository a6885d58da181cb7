import MnoGoSearch.Lib.Threads
import Mathlib.Algebra.Order.Group.Multiset

/-!
# The threads of the crawler

The loop of a thread of the crawler (`thread_main` in `indexer.c`), how the threads are started
(`UdmIndex` in `main.c`), and how a thread takes its next target (`UdmNextTarget`). A thread
that finds no target counts itself as sleeping, leaves its loop when as many threads sleep as
there are threads, and otherwise tries again. Errors, signals and the time limit are left out.

A thread that sleeps still counts as sleeping while it works on a target it has found later, so
threads may leave while others work. That does no harm: `no_pending_of_left` says that no target
is left when the last thread has left, whatever the order of the steps was.
-/

namespace MnoGoSearch.Crawler

open Lib.Threads Relation

/-! ### Targets -/

/-- Where the targets are: what `UdmNextTarget` uses of the environment and the database. -/
structure Conf (α : Type*) where
  /-- How many documents may still be indexed. -/
  urlNumber : ℤ
  /-- How many rows are loaded at once: `URLSelectCacheSize`. -/
  urlSelectCacheSize : ℕ
  /-- The rows loaded from the database, from `cur_row` on. -/
  targets : List α
  /-- The other rows of table `url` whose time has come. -/
  url : Multiset α

variable {α : Type*} {n : ℕ}

/-- The pending targets. -/
def Conf.pending (conf : Conf α) : Multiset α := conf.targets + conf.url

/-- New rows of table `url`. -/
def Conf.add (conf : Conf α) (new : Multiset α) : Conf α := { conf with url := conf.url + new }

/-- `UdmNextTarget`: the target, or none (`UDM_NOTARGET`). Which rows `UdmTargets` loads is up to
the database; there are none only if no row is to be loaded. -/
inductive UdmNextTarget : Conf α → Option α → Conf α → Prop
  /-- No more documents may be indexed. -/
  | number {conf : Conf α} (h : conf.urlNumber ≤ 0) : UdmNextTarget conf none conf
  /-- The next row in memory. -/
  | row {conf : Conf α} {doc : α} {targets : List α} (h : 0 < conf.urlNumber) (htargets : conf.targets = doc :: targets) :
      UdmNextTarget conf (some doc) { conf with urlNumber := conf.urlNumber - 1, targets := targets }
  | load {conf : Conf α} {doc : α} {targets : List α} {url : Multiset α} (h : 0 < conf.urlNumber)
      (htargets : conf.targets = [])
      (hsize : (doc :: targets).length ≤ conf.urlSelectCacheSize) (hurl : conf.url = ↑(doc :: targets) + url) :
      UdmNextTarget conf (some doc) { conf with urlNumber := conf.urlNumber - 1, targets := targets, url := url }
  | noRows {conf : Conf α} (h : 0 < conf.urlNumber) (htargets : conf.targets = []) (hurl : conf.url = 0) :
      UdmNextTarget conf none conf

theorem UdmNextTarget.pending_eq_zero {conf conf' : Conf α} (h : UdmNextTarget conf none conf')
    (hnumber : 0 < conf.urlNumber) : conf' = conf ∧ conf.pending = 0 := by
  cases h with
  | number hle => exact absurd hnumber (not_lt.mpr hle)
  | noRows _ htargets hurl => exact ⟨rfl, by simp [Conf.pending, htargets, hurl]⟩

/-! ### Threads -/

/-- Where a thread is in its loop. -/
inductive Phase (α : Type*)
  | loop
  /-- `UdmIndexNextURL`, before it takes a target: `UdmStoreHrefs`. -/
  | storing
  /-- `UdmIndexNextURL` works on a target. -/
  | indexing (doc : α)
  /-- `UdmIndexNextURL` has returned `UDM_OK`. -/
  | ok
  /-- `UdmIndexNextURL` has returned `UDM_NOTARGET`. -/
  | noTarget
  /-- The thread counts as sleeping. -/
  | sleeping
  | left
  /-- The thread does not count any more. -/
  | finished

/-- The state of a thread. -/
structure Thread (α : Type*) where
  phase : Phase α
  /-- It counts as sleeping: `i_sleep`. -/
  iSleep : Bool

/-- What the threads share. -/
structure Shared (α : Type*) where
  sleepThreads : ℤ
  totalThreads : ℤ
  /-- How many threads `UdmIndex` has created. -/
  created : ℕ
  /-- How many of them it has counted. -/
  counted : ℕ
  conf : Conf α

/-- A state of the crawler with `n` threads. -/
abbrev State (n : ℕ) (α : Type*) := System (Fin n) (Shared α) (Thread α)

/-- One step of a thread: what it does with the lock held, or without it to itself. -/
inductive ThreadStep {n : ℕ} (i : Fin n) : Shared α → Thread α → Shared α → Thread α → Prop
  /-- The loop begins, once the thread has been created. -/
  | loop {s : Shared α} {iSleep : Bool} (h : i < s.created) : ThreadStep i s ⟨.loop, iSleep⟩ s ⟨.storing, iSleep⟩
  /-- Links found before are stored. -/
  | store {s : Shared α} {iSleep : Bool} (new : Multiset α) :
      ThreadStep i s ⟨.storing, iSleep⟩ { s with conf := s.conf.add new } ⟨.storing, iSleep⟩
  | take {s : Shared α} {iSleep : Bool} {doc : α} {conf : Conf α} (h : UdmNextTarget s.conf (some doc) conf) :
      ThreadStep i s ⟨.storing, iSleep⟩ { s with conf := conf } ⟨.indexing doc, iSleep⟩
  /-- There is no target; the number of documents is not limited. -/
  | noTarget {s : Shared α} {iSleep : Bool} {conf : Conf α} (h : UdmNextTarget s.conf none conf)
      (hnumber : 0 < s.conf.urlNumber) : ThreadStep i s ⟨.storing, iSleep⟩ { s with conf := conf } ⟨.noTarget, iSleep⟩
  | add {s : Shared α} {iSleep : Bool} {doc : α} (new : Multiset α) :
      ThreadStep i s ⟨.indexing doc, iSleep⟩ { s with conf := s.conf.add new } ⟨.indexing doc, iSleep⟩
  /-- The document has been indexed. -/
  | ok {s : Shared α} {iSleep : Bool} {doc : α} : ThreadStep i s ⟨.indexing doc, iSleep⟩ s ⟨.ok, iSleep⟩
  /-- After `UDM_OK` the thread does not sleep any more. -/
  | wake {s : Shared α} : ThreadStep i s ⟨.ok, true⟩ { s with sleepThreads := s.sleepThreads - 1 } ⟨.loop, false⟩
  /-- After `UDM_OK`, if it did not sleep. -/
  | again {s : Shared α} : ThreadStep i s ⟨.ok, false⟩ s ⟨.loop, false⟩
  /-- After `UDM_NOTARGET` the thread sleeps. -/
  | sleep {s : Shared α} :
      ThreadStep i s ⟨.noTarget, false⟩ { s with sleepThreads := s.sleepThreads + 1 } ⟨.sleeping, true⟩
  /-- After `UDM_NOTARGET`, if it slept before. -/
  | sleepOn {s : Shared α} : ThreadStep i s ⟨.noTarget, true⟩ s ⟨.sleeping, true⟩
  /-- `done= (sleep_threads >= total_threads)`. -/
  | done {s : Shared α} {iSleep : Bool} (h : s.totalThreads ≤ s.sleepThreads) :
      ThreadStep i s ⟨.sleeping, iSleep⟩ s ⟨.left, iSleep⟩
  /-- The thread tries again after some time. -/
  | retry {s : Shared α} {iSleep : Bool} (h : s.sleepThreads < s.totalThreads) :
      ThreadStep i s ⟨.sleeping, iSleep⟩ s ⟨.loop, iSleep⟩
  | finish {s : Shared α} {iSleep : Bool} :
      ThreadStep i s ⟨.left, iSleep⟩ { s with totalThreads := s.totalThreads - 1 } ⟨.finished, iSleep⟩

/-- The loop of `UdmIndex`: a thread is created, and after it the threads are counted. -/
inductive MainStep (n : ℕ) : Shared α → Shared α → Prop
  /-- The next thread is created. -/
  | create {s : Shared α} (h : s.created < n) (hcounted : s.counted = s.created) :
      MainStep n s { s with created := s.created + 1 }
  /-- `total_threads= i + 1`. -/
  | total {s : Shared α} (h : s.created = s.counted + 1) :
      MainStep n s { s with totalThreads := s.counted + 1, counted := s.counted + 1 }

/-- No thread has been created. -/
structure Init {n : ℕ} (S : State n α) : Prop where
  sleepThreads : S.shared.sleepThreads = 0
  totalThreads : S.shared.totalThreads = 0
  created : S.shared.created = 0
  counted : S.shared.counted = 0
  /-- All of them will begin at the head of the loop. -/
  thread : ∀ i, S.thread i = ⟨.loop, false⟩

/-- The states of the crawler, in any interleaving. -/
def CrawlerReachable {n : ℕ} (S : State n α) : Prop := Reachable ThreadStep (MainStep n) Init S

/-! ### Sleeping threads -/

/-- **`sleep_threads` counts the threads that sleep**, those behind the loop included. -/
theorem sleepThreads_eq_count {S : State n α} (h : CrawlerReachable S) :
    S.shared.sleepThreads = (count Thread.iSleep S.thread : ℤ) := by
  refine Reachable.invariant (P := fun S => S.shared.sleepThreads = (count Thread.iSleep S.thread : ℤ)) ?_ ?_ ?_ h
  · intro S hinit
    have hnone : count Thread.iSleep S.thread = 0 := count_eq_zero fun i => by rw [hinit.thread i]
    rw [hinit.sleepThreads, hnone]
    rfl
  · intro S i s t hS hstep
    have hcount := count_update Thread.iSleep S.thread i t
    show s.sleepThreads = (count Thread.iSleep (Function.update S.thread i t) : ℤ)
    generalize hthread : S.thread i = t0 at hstep hcount
    cases hstep <;> simp only [Bool.toNat_true, Bool.toNat_false] at hcount ⊢ <;> omega
  · intro S s hS hstep
    cases hstep <;> exact hS

/-! ### Pending targets -/

/-- The thread will look for targets again. -/
def Phase.Live : Phase α → Prop
  | .loop | .storing | .indexing _ | .ok => True
  | .noTarget | .sleeping | .left | .finished => False

/-- The thread has left its loop. -/
def Phase.HasLeft : Phase α → Prop
  | .left | .finished => True
  | _ => False

theorem Phase.HasLeft.not_live {p : Phase α} (h : p.HasLeft) : ¬ p.Live := by
  cases p <;> simp_all [HasLeft, Live]

/-- **A step of a thread** leaves no target pending, or more targets than before only if the
thread will look for them, and it does not stop looking for targets while there are some. -/
theorem ThreadStep.live {i : Fin n} {s s' : Shared α} {t t' : Thread α} (h : ThreadStep i s t s' t')
    (hpending : s'.conf.pending ≠ 0) : (t.phase.Live → t'.phase.Live) ∧ (s.conf.pending = 0 → t'.phase.Live) := by
  cases h with
  | noTarget h hnumber =>
    obtain ⟨rfl, hzero⟩ := h.pending_eq_zero hnumber
    exact absurd hzero hpending
  | take h => exact ⟨fun _ => trivial, fun _ => trivial⟩
  | loop | store | add | ok | wake | again | retry => exact ⟨fun _ => trivial, fun _ => trivial⟩
  | sleep | sleepOn | done | finish => exact ⟨False.elim, fun h => absurd h hpending⟩

theorem exists_live {S : State n α} (h : CrawlerReachable S) (last : Fin n)
    (hpending : S.shared.conf.pending ≠ 0) : ∃ i, (S.thread i).phase.Live := by
  refine Reachable.invariant (P := fun S => S.shared.conf.pending ≠ 0 → ∃ i, (S.thread i).phase.Live) ?_ ?_ ?_ h hpending
  · intro S hinit _
    exact ⟨last, by rw [hinit.thread last]; trivial⟩
  · intro S i s t hS hstep hs
    obtain ⟨hlive, hnew⟩ := hstep.live hs
    by_cases hold : S.shared.conf.pending = 0
    · exact ⟨i, by rw [System.set_thread]; exact hnew hold⟩
    · obtain ⟨j, hj⟩ := hS hold
      by_cases hji : j = i
      · exact ⟨i, by rw [System.set_thread]; exact hlive (hji ▸ hj)⟩
      · exact ⟨j, by rwa [System.set_thread_of_ne S hji]⟩
  · intro S s hS hstep hs
    cases hstep <;> exact hS hs

/-- **No thread finishes too early**: in every interleaving, when the last thread has left its
loop no target is pending, and `sleep_threads` is never negative. -/
theorem no_pending_of_left {n : ℕ} {S : State n α} (h : CrawlerReachable S) :
    0 ≤ S.shared.sleepThreads ∧
      ∀ _last : Fin n, (∀ i, (S.thread i).phase.HasLeft) → S.shared.conf.pending = 0 := by
  refine ⟨?_, fun last hleft => ?_⟩
  · rw [sleepThreads_eq_count h]
    exact Int.natCast_nonneg _
  · by_contra hpending
    obtain ⟨i, hi⟩ := exists_live h last hpending
    exact (hleft i).not_live hi

/-- One thread indexes one document, finds no other, and leaves its loop. -/
theorem no_pending_of_left_one :
    ∃ S : State 1 ℕ, (S.thread 0).phase.HasLeft ∧ 0 ≤ S.shared.sleepThreads ∧ S.shared.conf.pending = 0 := by
  have h0 : CrawlerReachable (n := 1) ⟨⟨0, 0, 0, 0, ⟨10, 100, [], {7}⟩⟩, fun _ => ⟨.loop, false⟩⟩ :=
    Reachable.initial ⟨rfl, rfl, rfl, rfl, fun _ => rfl⟩
  have h1 := (h0.env (MainStep.create (by decide) rfl)).env (MainStep.total rfl)
  have h2 := h1.thread (i := 0) rfl (.loop Nat.zero_lt_one)
  have h3 := h2.thread (System.set_thread ..) (.take (.load (by decide) rfl (by decide)
    (show ({7} : Multiset ℕ) = ↑(7 :: ([] : List ℕ)) + 0 from rfl)))
  have h4 := h3.thread (System.set_thread ..) .ok
  have h5 := h4.thread (System.set_thread ..) .again
  have h6 := h5.thread (System.set_thread ..) (.loop Nat.zero_lt_one)
  have h7 := h6.thread (System.set_thread ..) (.noTarget (.noRows (by decide) rfl rfl) (by decide))
  have h8 := h7.thread (System.set_thread ..) .sleep
  have h9 := h8.thread (System.set_thread ..) (.done le_rfl)
  obtain ⟨hsleep, hpending⟩ := no_pending_of_left h9
  refine ⟨_, ?_, hsleep, hpending 0 fun i => ?_⟩
  · rw [System.set_thread]
    trivial
  · obtain rfl : i = 0 := Subsingleton.elim i 0
    rw [System.set_thread]
    trivial

end MnoGoSearch.Crawler
