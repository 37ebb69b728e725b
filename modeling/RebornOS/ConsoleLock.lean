import Mathlib.Tactic
import RebornOS.LabeledRun

/-!
# The lock of the serial console on one core

`kvprintf` holds `serial_lock` while it writes, and unlike the other users of a
spinlock it leaves interrupts as they are.  A timer tick may therefore take a
thread off the core between two characters, and a syscall or exception handler,
which runs with interrupts disabled, may print before that thread runs again.

The model is one core with any number of threads.  Every thread has code that
runs with interrupts enabled; above the current thread's code there can be
handlers, which run with interrupts disabled and can be nested (a handler that
enables interrupts goes on as the thread's own code).  A tick calls `schedule`,
which goes on with some other thread, and comes only while no handler runs.

* `Deadlocked` is a handler that spins for a lock that its own core holds, and
  `deadlock_permanent` says that it spins for ever.
* `no_deadlock_iff` says in which runs that does not happen.
-/

namespace RebornOS
namespace ConsoleLock

open LabeledRun Function

variable {τ : Type}

section Model

/-- Where code is with respect to `kvprintf`, and how much is left to write. -/
inductive Pc
  | outside
  /-- In front of the `xchg` of `spinlock_acquire`. -/
  | exchange (chars : Nat)
  /-- In the loop `while (lock->locked)`. -/
  | spin (chars : Nat)
  | printing (left : Nat)
deriving DecidableEq

/-- In `spinlock_acquire`. -/
def Pc.Acquiring : Pc → Prop
  | .exchange _ => True
  | .spin _ => True
  | _ => False

/-- Between `spinlock_acquire` and `spinlock_release`. -/
def Pc.Holds : Pc → Prop
  | .printing _ => True
  | _ => False

instance (pc : Pc) : Decidable pc.Acquiring := by
  cases pc <;> unfold Pc.Acquiring <;> infer_instance

instance (pc : Pc) : Decidable pc.Holds := by
  cases pc <;> unfold Pc.Holds <;> infer_instance

/-- The core; `handlers` are the active handlers, the innermost first. -/
structure Core (τ : Type) where
  locked : Bool
  threads : τ → Pc
  current : τ
  handlers : List Pc

variable [DecidableEq τ]

/-- The code that runs. -/
def Core.active (s : Core τ) : Pc := s.handlers.headD (s.threads s.current)

def Core.setActive (s : Core τ) (pc : Pc) : Core τ :=
  match s.handlers with
  | [] => { s with threads := update s.threads s.current pc }
  | _ :: hs => { s with handlers := pc :: hs }

inductive Label (τ : Type)
  /-- A call of `kvprintf` that writes this many characters. -/
  | call (chars : Nat)
  | exchange
  | look
  | put
  | release
  /-- A syscall or an exception. -/
  | trap
  | ret
  /-- A timer tick, after which `thread` runs. -/
  | tick (thread : τ)

/-- One step of the core. -/
def step (s : Core τ) : Label τ → Option (Core τ)
  | .call chars =>
      if s.active = .outside then some (s.setActive (.exchange chars)) else none
  | .exchange =>
      match s.active with
      | .exchange chars =>
          if s.locked then
            some (s.setActive (.spin chars))
          else
            some { s.setActive (.printing chars) with locked := true }
      | _ => none
  | .look =>
      match s.active with
      | .spin chars =>
          if s.locked then some s else some (s.setActive (.exchange chars))
      | _ => none
  | .put =>
      match s.active with
      | .printing (n + 1) => some (s.setActive (.printing n))
      | _ => none
  | .release =>
      match s.active with
      | .printing 0 => some { s.setActive .outside with locked := false }
      | _ => none
  | .trap => some { s with handlers := .outside :: s.handlers }
  | .ret =>
      match s.handlers with
      | .outside :: hs => some { s with handlers := hs }
      | _ => none
  | .tick thread => if s.handlers = [] then some { s with current := thread } else none

/-- Nobody prints, and the thread `t` runs. -/
def start (t : τ) : Core τ :=
  { locked := false, threads := fun _ => .outside, current := t, handlers := [] }

end Model

variable {a : Label τ}

section Specification

/-- Some code of this core holds the lock: a thread's, or an interrupted handler's. -/
def Core.InProgress (s : Core τ) : Prop :=
  (∃ t, (s.threads t).Holds) ∨ ∃ q, q ∈ s.handlers ∧ q.Holds

/--
The core is in `spinlock_acquire` with interrupts disabled, and the lock is held by
a thread that was preempted on it or by what the handler interrupted.
-/
def Core.Deadlocked (s : Core τ) : Prop :=
  s.locked = true ∧ s.InProgress ∧ ∃ p, s.handlers.head? = some p ∧ p.Acquiring

/-- A handler calls `kvprintf` only while no call of it is in progress on the core. -/
def PrintsAlone (s : Core τ) (a : Label τ) : Prop :=
  ∀ chars, a = .call chars → s.handlers ≠ [] → ¬ s.InProgress

end Specification

section Invariant

variable {s t : Core τ} {pc : Pc}

/--
Who holds the lock: nobody; a thread, and then no handler waits for it; or a
handler, and then only the handlers that it interrupted can be waiting for it.
-/
inductive Sound (s : Core τ) : Prop
  | free
      (unlocked : s.locked = false)
      (threads : ∀ i, ¬ (s.threads i).Holds)
      (handlers : ∀ q, q ∈ s.handlers → ¬ q.Holds)
  | thread (i : τ)
      (locked : s.locked = true)
      (holds : (s.threads i).Holds)
      (others : ∀ j, (s.threads j).Holds → j = i)
      (handlers : ∀ q, q ∈ s.handlers → q = .outside)
  | handler (above : List Pc) (p : Pc) (below : List Pc)
      (split : s.handlers = above ++ p :: below)
      (locked : s.locked = true)
      (threads : ∀ i, ¬ (s.threads i).Holds)
      (holds : p.Holds)
      (inner : ∀ q, q ∈ above → q = .outside)
      (outer : ∀ q, q ∈ below → ¬ q.Holds)

theorem Pc.Acquiring.not_holds
    (h : pc.Acquiring) : ¬ pc.Holds := by
  cases pc with
  | printing n =>
      exact absurd h id
  | _ =>
      exact id

/-- A holder, and only a holder, is in progress. -/
theorem Sound.inProgress_iff
    (h : Sound s) : s.InProgress ↔ s.locked = true := by
  cases h with
  | free hunlocked hthreads hhandlers =>
      rw [hunlocked]
      refine iff_of_false ?_ (by simp)
      rintro (⟨i, hi⟩ | ⟨q, hq, hholds⟩)
      · exact hthreads i hi
      · exact hhandlers q hq hholds
  | thread i hlocked hholds _ _ =>
      exact iff_of_true (Or.inl ⟨i, hholds⟩) hlocked
  | handler above p below hsplit hlocked _ hholds _ _ =>
      exact iff_of_true (Or.inr ⟨p, by rw [hsplit]; simp, hholds⟩) hlocked

/-- Nobody spins in vain. -/
theorem Sound.not_deadlocked
    (h : Sound s) : ¬ s.Deadlocked := by
  rintro ⟨hlocked, _, p, hhead, hacq⟩
  cases h with
  | free hunlocked _ _ =>
      rw [hunlocked] at hlocked
      cases hlocked
  | thread i _ _ _ hhandlers =>
      rw [hhandlers p (List.mem_of_mem_head? hhead)] at hacq
      exact hacq
  | handler above q below hsplit _ _ hholds hinner _ =>
      rw [hsplit] at hhead
      cases above with
      | nil =>
          cases hhead
          exact hacq.not_holds hholds
      | cons r above =>
          cases hhead
          rw [hinner p (List.mem_cons_self ..)] at hacq
          exact hacq

/-- Only a thread's own code waits for a lock that is taken. -/
theorem Sound.handlers_eq_nil
    (h : Sound s) (hlocked : s.locked = true) (hactive : s.active.Acquiring) :
    s.handlers = [] := by
  cases hhs : s.handlers with
  | nil =>
      rfl
  | cons p hs =>
      unfold Core.active at hactive
      rw [hhs] at hactive
      exact absurd
        ⟨hlocked, h.inProgress_iff.mpr hlocked, p, by rw [hhs]; rfl, hactive⟩
        h.not_deadlocked

theorem Sound.locked_of_active
    (h : Sound s) (hactive : s.active.Holds) : s.locked = true := by
  refine h.inProgress_iff.mp ?_
  unfold Core.active at hactive
  cases hhs : s.handlers with
  | nil =>
      rw [hhs] at hactive
      exact Or.inl ⟨s.current, hactive⟩
  | cons p hs =>
      rw [hhs] at hactive
      exact Or.inr ⟨p, by rw [hhs]; exact List.mem_cons_self .., hactive⟩

/-- If the running code holds the lock, it is a thread's or the innermost handler. -/
theorem Sound.of_active_holds
    (h : Sound s) (hactive : s.active.Holds) :
    (s.handlers = [] ∧ ∀ j, j ≠ s.current → ¬ (s.threads j).Holds) ∨
      ∃ p hs, s.handlers = p :: hs ∧ (∀ i, ¬ (s.threads i).Holds) ∧
        ∀ q, q ∈ hs → ¬ q.Holds := by
  obtain ⟨locked, threads, current, _ | ⟨q, hs⟩⟩ := s
  · change (threads current).Holds at hactive
    left
    cases h with
    | free _ hthreads _ =>
        exact absurd hactive (hthreads current)
    | thread i _ _ hothers _ =>
        refine ⟨rfl, fun j hj hholds => hj ?_⟩
        rw [hothers j hholds, hothers current hactive]
    | handler above p below hsplit _ _ _ _ _ =>
        exact absurd hsplit.symm (by simp)
  · change q.Holds at hactive
    right
    cases h with
    | free _ _ hhandlers =>
        exact absurd hactive (hhandlers q (List.mem_cons_self ..))
    | thread i _ _ _ hhandlers =>
        rw [hhandlers q (List.mem_cons_self ..)] at hactive
        exact absurd hactive id
    | handler above p below hsplit _ hthreads _ hinner houter =>
        cases above with
        | nil =>
            cases hsplit
            exact ⟨q, hs, rfl, hthreads, houter⟩
        | cons r above =>
            cases hsplit
            rw [hinner q (List.mem_cons_self ..)] at hactive
            exact absurd hactive id

theorem Sound.trap
    (h : Sound s) : Sound { s with handlers := .outside :: s.handlers } := by
  cases h with
  | free hunlocked hthreads hhandlers =>
      refine .free hunlocked hthreads (fun q hq => ?_)
      rcases List.mem_cons.mp hq with rfl | hq
      · exact id
      · exact hhandlers q hq
  | thread i hlocked hholds hothers hhandlers =>
      refine .thread i hlocked hholds hothers (fun q hq => ?_)
      rcases List.mem_cons.mp hq with rfl | hq
      · rfl
      · exact hhandlers q hq
  | handler above p below hsplit hlocked hthreads hholds hinner houter =>
      refine
        .handler (.outside :: above) p below (congrArg (.outside :: ·) hsplit) hlocked
          hthreads hholds (fun q hq => ?_) houter
      rcases List.mem_cons.mp hq with rfl | hq
      · rfl
      · exact hinner q hq

/-- A handler returns only when it is not printing. -/
theorem Sound.ret
    (h : Sound s) {hs : List Pc} (hhs : s.handlers = .outside :: hs) :
    Sound { s with handlers := hs } := by
  cases h with
  | free hunlocked hthreads hhandlers =>
      rw [hhs] at hhandlers
      exact
        .free hunlocked hthreads (fun q hq => hhandlers q (List.mem_cons_of_mem _ hq))
  | thread i hlocked hholds hothers hhandlers =>
      rw [hhs] at hhandlers
      exact
        .thread i hlocked hholds hothers
          (fun q hq => hhandlers q (List.mem_cons_of_mem _ hq))
  | handler above p below hsplit hlocked hthreads hholds hinner houter =>
      rw [hhs] at hsplit
      cases above with
      | nil =>
          cases hsplit
          exact absurd hholds id
      | cons r above =>
          cases hsplit
          exact
            .handler above p below rfl hlocked hthreads hholds
              (fun q hq => hinner q (List.mem_cons_of_mem _ hq)) houter

theorem Sound.tick
    (h : Sound s) (i : τ) : Sound { s with current := i } := by
  cases h with
  | free hunlocked hthreads hhandlers =>
      exact .free hunlocked hthreads hhandlers
  | thread j hlocked hholds hothers hhandlers =>
      exact .thread j hlocked hholds hothers hhandlers
  | handler above p below hsplit hlocked hthreads hholds hinner houter =>
      exact .handler above p below hsplit hlocked hthreads hholds hinner houter

variable [DecidableEq τ]

theorem not_holds_update
    {threads : τ → Pc} {i : τ} (h : ∀ j, j ≠ i → ¬ (threads j).Holds)
    (hpc : ¬ pc.Holds) : ∀ j, ¬ (update threads i pc j).Holds := by
  intro j
  by_cases hj : j = i
  · rw [hj, update_self]
    exact hpc
  · rw [update_of_ne hj]
    exact h j hj

/-- Running code that does not hold the lock starts or goes on to wait for it. -/
theorem Sound.wait
    (h : Sound s) (hactive : ¬ s.active.Holds) (hpc : pc.Acquiring)
    (hwait : s.handlers = [] ∨ s.locked = false) : Sound (s.setActive pc) := by
  obtain ⟨locked, threads, current, _ | ⟨q, hs⟩⟩ := s
  · change ¬ (threads current).Holds at hactive
    cases h with
    | free hunlocked hthreads hhandlers =>
        exact
          .free hunlocked (not_holds_update (fun j _ => hthreads j) hpc.not_holds)
            hhandlers
    | thread i hlocked hholds hothers hhandlers =>
        have hi : i ≠ current := fun heq => hactive (heq ▸ hholds)
        refine .thread i hlocked ?_ (fun j hj => ?_) hhandlers
        · show (update threads current pc i).Holds
          rwa [update_of_ne hi]
        · change (update threads current pc j).Holds at hj
          by_cases hjc : j = current
          · rw [hjc, update_self] at hj
            exact absurd hj hpc.not_holds
          · rw [update_of_ne hjc] at hj
            exact hothers j hj
    | handler above p below hsplit _ _ _ _ _ =>
        exact absurd hsplit.symm (by simp)
  · have hunlocked : locked = false := hwait.resolve_left (by simp)
    subst hunlocked
    cases h with
    | free hunlocked hthreads hhandlers =>
        refine .free rfl hthreads (fun r hr => ?_)
        rcases List.mem_cons.mp hr with rfl | hr
        · exact hpc.not_holds
        · exact hhandlers r (List.mem_cons_of_mem _ hr)
    | thread i hlocked _ _ _ =>
        cases hlocked
    | handler above p below _ hlocked _ _ _ _ =>
        cases hlocked

/-- Running code takes the free lock. -/
theorem Sound.take
    (h : Sound s) (hfree : s.locked = false) (hpc : pc.Holds) :
    Sound { s.setActive pc with locked := true } := by
  cases h with
  | thread i hlocked _ _ _ =>
      rw [hfree] at hlocked
      cases hlocked
  | handler above p below _ hlocked _ _ _ _ =>
      rw [hfree] at hlocked
      cases hlocked
  | free _ hthreads hhandlers =>
      obtain ⟨locked, threads, current, _ | ⟨q, hs⟩⟩ := s
      · refine .thread current rfl ?_ (fun j hj => ?_) nofun
        · show (update threads current pc current).Holds
          rwa [update_self]
        · change (update threads current pc j).Holds at hj
          by_contra hjc
          rw [update_of_ne hjc] at hj
          exact hthreads j hj
      · exact
          .handler [] pc hs rfl rfl hthreads hpc nofun
            (fun r hr => hhandlers r (List.mem_cons_of_mem _ hr))

/-- The holder writes a character. -/
theorem Sound.put
    (h : Sound s) (hlocked : s.locked = true) (hactive : s.active.Holds)
    (hpc : pc.Holds) : Sound (s.setActive pc) := by
  have hcase := h.of_active_holds hactive
  obtain ⟨locked, threads, current, handlers⟩ := s
  rcases hcase with ⟨rfl, hothers⟩ | ⟨p, hs, rfl, hthreads, houter⟩
  · refine .thread current hlocked ?_ (fun j hj => ?_) nofun
    · show (update threads current pc current).Holds
      rwa [update_self]
    · change (update threads current pc j).Holds at hj
      by_contra hjc
      rw [update_of_ne hjc] at hj
      exact hothers j hjc hj
  · exact .handler [] pc hs rfl hlocked hthreads hpc nofun houter

/-- The holder releases the lock. -/
theorem Sound.release
    (h : Sound s) (hactive : s.active.Holds) :
    Sound { s.setActive .outside with locked := false } := by
  have hcase := h.of_active_holds hactive
  obtain ⟨locked, threads, current, handlers⟩ := s
  rcases hcase with ⟨rfl, hothers⟩ | ⟨p, hs, rfl, hthreads, houter⟩
  · exact .free rfl (not_holds_update hothers id) nofun
  · refine .free rfl hthreads (fun q hq => ?_)
    rcases List.mem_cons.mp hq with rfl | hq
    · exact id
    · exact houter q hq

/-- What each step does, and what it needs. -/
inductive Move (s : Core τ) : Label τ → Core τ → Prop
  | call (chars : Nat) (hactive : s.active = .outside) :
      Move s (.call chars) (s.setActive (.exchange chars))
  | fail (chars : Nat) (hactive : s.active = .exchange chars) (hlocked : s.locked = true) :
      Move s .exchange (s.setActive (.spin chars))
  | take (chars : Nat) (hactive : s.active = .exchange chars) (hfree : s.locked = false) :
      Move s .exchange { s.setActive (.printing chars) with locked := true }
  | spin (chars : Nat) (hactive : s.active = .spin chars) (hlocked : s.locked = true) :
      Move s .look s
  | retry (chars : Nat) (hactive : s.active = .spin chars) (hfree : s.locked = false) :
      Move s .look (s.setActive (.exchange chars))
  | put (n : Nat) (hactive : s.active = .printing (n + 1)) :
      Move s .put (s.setActive (.printing n))
  | release (hactive : s.active = .printing 0) :
      Move s .release { s.setActive .outside with locked := false }
  | trap : Move s .trap { s with handlers := .outside :: s.handlers }
  | ret (hs : List Pc) (hhs : s.handlers = .outside :: hs) :
      Move s .ret { s with handlers := hs }
  | tick (thread : τ) (hhs : s.handlers = []) :
      Move s (.tick thread) { s with current := thread }

theorem move_of_step
    (hstep : step s a = some t) : Move s a t := by
  cases a with
  | call chars =>
      simp only [step] at hstep
      split_ifs at hstep with hactive
      cases hstep
      exact .call chars hactive
  | exchange =>
      cases hactive : s.active with
      | exchange chars =>
          simp only [step, hactive] at hstep
          split_ifs at hstep with hlocked
          · cases hstep
            exact .fail chars hactive hlocked
          · cases hstep
            exact .take chars hactive (by simpa using hlocked)
      | _ =>
          simp [step, hactive] at hstep
  | look =>
      cases hactive : s.active with
      | spin chars =>
          simp only [step, hactive] at hstep
          split_ifs at hstep with hlocked
          · cases hstep
            exact .spin chars hactive hlocked
          · cases hstep
            exact .retry chars hactive (by simpa using hlocked)
      | _ =>
          simp [step, hactive] at hstep
  | put =>
      simp only [step] at hstep
      split at hstep
      · rename_i n hactive
        cases hstep
        exact .put n hactive
      · cases hstep
  | release =>
      simp only [step] at hstep
      split at hstep
      · rename_i hactive
        cases hstep
        exact .release hactive
      · cases hstep
  | trap =>
      cases hstep
      exact .trap
  | ret =>
      simp only [step] at hstep
      split at hstep
      · rename_i hs hhs
        cases hstep
        exact .ret hs hhs
      · cases hstep
  | tick thread =>
      simp only [step] at hstep
      split_ifs at hstep with hhs
      cases hstep
      exact .tick thread hhs

/-- A step that meets the condition keeps the invariant. -/
theorem sound_step
    (h : Sound s) (hstep : step s a = some t) (halone : PrintsAlone s a) : Sound t := by
  cases move_of_step hstep with
  | call chars hactive =>
      refine h.wait (by rw [hactive]; exact id) trivial ?_
      by_cases hhs : s.handlers = []
      · exact Or.inl hhs
      · have hnot := halone chars rfl hhs
        rw [h.inProgress_iff, Bool.not_eq_true] at hnot
        exact Or.inr hnot
  | fail chars hactive hlocked =>
      have hacq : s.active.Acquiring := by
        rw [hactive]
        trivial
      exact h.wait hacq.not_holds trivial (Or.inl (h.handlers_eq_nil hlocked hacq))
  | take chars hactive hfree =>
      exact h.take hfree trivial
  | spin chars hactive hlocked =>
      exact h
  | retry chars hactive hfree =>
      exact h.wait (by rw [hactive]; exact id) trivial (Or.inr hfree)
  | put n hactive =>
      have hholds : s.active.Holds := by
        rw [hactive]
        trivial
      exact h.put (h.locked_of_active hholds) hholds trivial
  | release hactive =>
      exact h.release (by rw [hactive]; trivial)
  | trap =>
      exact h.trap
  | ret hs hhs =>
      exact h.ret hhs
  | tick thread hhs =>
      exact h.tick thread

end Invariant

section Deadlock

variable {s t : Core τ} {below : List Pc}

/--
The handler above `below` waits, the lock is taken, and no handler above it holds
the lock.
-/
def Core.Stuck (below : List Pc) (s : Core τ) : Prop :=
  s.locked = true ∧ ∃ above p, s.handlers = above ++ p :: below ∧
    p.Acquiring ∧ ∀ q, q ∈ above → ¬ q.Holds

theorem Core.Stuck.not_active_holds
    (h : s.Stuck below) : ¬ s.active.Holds := by
  obtain ⟨_, above, p, hsplit, hp, habove⟩ := h
  unfold Core.active
  rw [hsplit]
  cases above with
  | nil =>
      exact hp.not_holds
  | cons r above =>
      exact habove r (List.mem_cons_self ..)

theorem Core.Stuck.handlers_ne_nil
    (h : s.Stuck below) : s.handlers ≠ [] := by
  obtain ⟨_, above, p, hsplit, _⟩ := h
  rw [hsplit]
  simp

variable [DecidableEq τ]

/-- What the innermost handler does while another one below it is stuck. -/
theorem Core.Stuck.setActive
    {pc : Pc} (h : s.Stuck below) (hpc : ¬ pc.Holds)
    (hacq : s.active.Acquiring → pc.Acquiring) : (s.setActive pc).Stuck below := by
  obtain ⟨hlocked, above, p, hsplit, hp, habove⟩ := h
  obtain ⟨locked, threads, current, handlers⟩ := s
  change handlers = _ at hsplit
  subst hsplit
  cases above with
  | nil =>
      exact ⟨hlocked, [], pc, rfl, hacq hp, nofun⟩
  | cons r above =>
      refine ⟨hlocked, pc :: above, p, rfl, hp, fun q hq => ?_⟩
      rcases List.mem_cons.mp hq with rfl | hq
      · exact hpc
      · exact habove q (List.mem_cons_of_mem _ hq)

theorem stuck_step
    (h : s.Stuck below) (hstep : step s a = some t) : t.Stuck below := by
  cases move_of_step hstep with
  | call chars hactive =>
      exact h.setActive id (fun _ => trivial)
  | fail chars hactive hlocked =>
      exact h.setActive id (fun _ => trivial)
  | take chars hactive hfree =>
      exact absurd h.1 (by simp [hfree])
  | spin chars hactive hlocked =>
      exact h
  | retry chars hactive hfree =>
      exact h.setActive id (fun _ => trivial)
  | put n hactive =>
      exact absurd (by rw [hactive]; trivial) h.not_active_holds
  | release hactive =>
      exact absurd (by rw [hactive]; trivial) h.not_active_holds
  | trap =>
      obtain ⟨hlocked, above, p, hsplit, hp, habove⟩ := h
      refine
        ⟨hlocked, .outside :: above, p, congrArg (.outside :: ·) hsplit, hp,
          fun q hq => ?_⟩
      rcases List.mem_cons.mp hq with rfl | hq
      · exact id
      · exact habove q hq
  | ret hs hhs =>
      obtain ⟨hlocked, above, p, hsplit, hp, habove⟩ := h
      rw [hhs] at hsplit
      cases above with
      | nil =>
          cases hsplit
          exact absurd hp id
      | cons r above =>
          cases hsplit
          exact
            ⟨hlocked, above, p, rfl, hp,
              fun q hq => habove q (List.mem_cons_of_mem _ hq)⟩
  | tick thread hhs =>
      exact absurd hhs h.handlers_ne_nil

/--
**A deadlock is for ever.**  Whatever the core does, the lock stays taken, the
handler that waits for it stays where it is, in `spinlock_acquire` and above the
handlers that it interrupted, and the code that runs is never one that prints.
-/
theorem deadlock_permanent
    (h : s.Deadlocked) {labels : List (Label τ)} (hrun : runAll step s labels = some t) :
    t.locked = true ∧
    (∃ above p, t.handlers = above ++ p :: s.handlers.tail ∧ p.Acquiring ∧
      ∀ q, q ∈ above → ¬ q.Holds) ∧
    ¬ t.active.Holds := by
  obtain ⟨hlocked, _, p, hhead, hp⟩ := h
  have hstart : s.Stuck s.handlers.tail :=
    ⟨hlocked, [], p, List.eq_cons_of_mem_head? hhead, hp, nofun⟩
  have hend := runAll_invariant (fun _ _ _ => stuck_step) hstart hrun
  exact ⟨hend.1, hend.2, hend.not_active_holds⟩

/-- A syscall handler spins, and an exception handler comes on top of it. -/
theorem deadlock_permanent_look :
    ∃ t, runAll step (⟨true, fun _ => .printing 1, (), [.spin 1, .outside]⟩ : Core Unit)
        [.look, .trap, .call 3] = some t ∧
      t.locked = true ∧
      (∃ above p, t.handlers = above ++ p :: [.outside] ∧ p.Acquiring ∧
        ∀ q, q ∈ above → ¬ q.Holds) ∧
      ¬ t.active.Holds := by
  have hrun :
      runAll step (⟨true, fun _ => .printing 1, (), [.spin 1, .outside]⟩ : Core Unit)
        [.look, .trap, .call 3] =
      some ⟨true, fun _ => .printing 1, (), [.exchange 3, .spin 1, .outside]⟩ := rfl
  refine ⟨_, hrun, deadlock_permanent ?_ hrun⟩
  exact ⟨rfl, Or.inl ⟨(), trivial⟩, .spin 1, rfl, trivial⟩

/-- A handler that starts to print while the lock is taken deadlocks. -/
theorem deadlocked_of_call
    {chars : Nat} (h : Sound s) (hstep : step s (.call chars) = some t)
    (hhs : s.handlers ≠ []) (hprogress : s.InProgress) : t.Deadlocked := by
  have hlocked := h.inProgress_iff.mp hprogress
  obtain ⟨_, hout⟩ := move_of_step hstep
  obtain ⟨locked, threads, current, _ | ⟨q, hs⟩⟩ := s
  · exact absurd rfl hhs
  · change q = .outside at hout
    subst hout
    refine ⟨hlocked, ?_, _, rfl, trivial⟩
    rcases hprogress with hthread | ⟨r, hr, hholds⟩
    · exact Or.inl hthread
    · rcases List.mem_cons.mp hr with rfl | hr
      · exact absurd hholds id
      · exact Or.inr ⟨r, List.mem_cons_of_mem _ hr, hholds⟩

/--
**When the console lock cannot deadlock the core.**  In every run, no state has a
handler spinning for a lock that its own core holds, if and only if no handler of
the run calls `kvprintf` while a call of it is in progress on the core.
-/
theorem no_deadlock_iff
    (i : τ) (labels : List (Label τ)) :
    EveryStep step (fun _ _ t => ¬ t.Deadlocked) (start i) labels ↔
      EveryStep step (fun s a _ => PrintsAlone s a) (start i) labels := by
  have hiff : ∀ (s : Core τ) a t, Sound s → step s a = some t →
      (¬ t.Deadlocked ↔ PrintsAlone s a) := by
    intro s a t hs hstep
    constructor
    · rintro hnot chars rfl hhs hprogress
      exact hnot (deadlocked_of_call hs hstep hhs hprogress)
    · exact fun halone => (sound_step hs hstep halone).not_deadlocked
  refine everyStep_iff (fun s a t hs hstep hnot => ?_) hiff labels
    (.free rfl (fun _ => id) nofun)
  exact sound_step hs hstep ((hiff s a t hs hstep).mp hnot)

/--
Thread `false` has written one of two characters when a tick switches to thread
`true`, whose syscall handler prints.
-/
theorem preempted_print_deadlocks :
    ∃ t : Core Bool,
      runAll step (start false)
          [.call 2, .exchange, .put, .tick true, .trap, .call 1, .exchange, .look] =
        some t ∧ t.Deadlocked :=
  ⟨_, rfl, rfl, Or.inl ⟨false, by decide⟩, .spin 1, rfl, trivial⟩

end Deadlock

end ConsoleLock
end RebornOS
