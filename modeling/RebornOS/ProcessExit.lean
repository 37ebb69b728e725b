import RebornOS.ProcessSteps

/-!
# Whom `thread_exit_code` ends

`thread_exit_code` reads the index of its core and then `current_thread` at that
index.  Both reads come before interrupts are disabled, and a kernel thread that
calls `thread_exit` has them enabled: it can be preempted between the reads and
resumed by another core, while the first core runs some other thread.

The slot that is read is the caller's own exactly if the caller is back on the
core whose index it holds.  As long as every exit is of this kind the ownership
invariant of the scheduler holds, so the condition at one exit does not depend on
the exits before it.
-/

namespace RebornOS
namespace Process

open Scheduler LabeledRun Function

variable {t : Slot} {e : Event} {core : Nat}

/-- The core on which a step of `thread_exit_code` is executed. -/
def Event.exitOn : Event → Option Nat
  | exitIndex core _ _ => some core
  | exitRead core => some core
  | exitWrite core => some core
  | exitMark core => some core
  | _ => none

/-- A step of `thread_exit_code` is about the thread that executes it. -/
structure EndsCallerAt (m m' : Machine) (e : Event) (t : Slot) : Prop where
  /-- The slot that will be ended, once it is read, is the caller's. -/
  tid : ∀ tid, (m'.task t).ending = some tid → tid = t
  /-- The slot that is marked is the caller's. -/
  marked :
    ∀ core, e = .exitMark core → m'.sys.threads t = (m.sys.threads t).exited
  other_threads : ∀ u, u ≠ t → m'.sys.threads u = m.sys.threads u
  /-- The code goes where the caller's own pointer points to. -/
  delivered :
    ∀ core masked code tid, e = .exitWrite core →
      m.task t = .exitTid masked code tid →
      (m.sys.threads t).exitCodeOut ≠ 0 →
        m'.sys.exitCodes (m.sys.threads t).exitCodeOut = code
  other_codes :
    ∀ cell, cell ≠ (m.sys.threads t).exitCodeOut →
      m'.sys.exitCodes cell = m.sys.exitCodes cell

/-- Every step of `thread_exit_code` ends its caller and nobody else. -/
def EndsCaller (m : Machine) (e : Event) (m' : Machine) : Prop :=
  ∀ core t, e.exitOn = some core → m.sys.currentThread core = some t →
    EndsCallerAt m m' e t

/-- `current_thread` is read on the core whose index the caller has read before. -/
def ReadsOwnCore (m : Machine) (e : Event) (_ : Machine) : Prop :=
  match e with
  | .exitRead core => (m.taskOn core).index = some core
  | _ => True

instance (m : Machine) (e : Event) (m' : Machine) : Decidable (ReadsOwnCore m e m') :=
  match e with
  | .exitRead core => inferInstanceAs (Decidable ((m.taskOn core).index = some core))
  | .kernel _ | .create _ _ _ _ | .enterWait _ _ | .spawn _ _ _ _ | .spawnFails _
  | .poll _ | .yield _ | .exitIndex _ _ _ | .exitWrite _ | .exitMark _ =>
      isTrue trivial

/-- What a thread in `thread_exit_code` holds, if all is well. -/
def Task.Sound (n : Nat) (t : Slot) : Task → Prop
  | exitCore _ _ index => index < n
  | exitTid _ _ tid => tid = t
  | exitSent _ tid => tid = t
  | _ => True

/-- The state between exits of callers only. -/
structure OwnExits (n : Nat) (m : Machine) : Prop where
  inv : Inv n n m.sys
  sound : ∀ t, (m.task t).Sound n t

section Steps

variable {pf : Platform} {n : Nat} {m m' : Machine}

theorem Task.Sound.ending_eq
    {tid : Slot} {task : Task} (h : task.Sound n t) (hending : task.ending = some tid) :
    tid = t := by
  cases task with
  | exitTid _ _ _ | exitSent _ _ =>
      cases hending
      exact h
  | _ =>
      cases hending

/-- The caller gets a new task, and another slot may have lost its old one. -/
theorem sound_update
    {task : Slot → Task} {next : Task} (h : ∀ u, (task u).Sound n u)
    (hnext : next.Sound n t) : ∀ u, (update task t next u).Sound n u :=
  (forall_update_iff task (fun u task => task.Sound n u)).mpr
    ⟨hnext, fun u _ => h u⟩

/-- A step that ends only its caller keeps the invariant. -/
theorem OwnExits.step
    (h : OwnExits n m) (hstep : Process.step pf n m e = some m')
    (hends : EndsCaller m e m') : OwnExits n m' := by
  cases transition_of_step hstep with
  | kernel _ hkernel =>
      exact ⟨step_preserves h.inv hkernel, h.sound⟩
  | create _ _ hcreate =>
      exact ⟨h.inv.threadCreateEx hcreate, sound_update h.sound trivial⟩
  | enterWait _ _ _ _ _ =>
      exact ⟨h.inv.congr_memory _ _, sound_update h.sound trivial⟩
  | spawn _ _ _ _ hcreate =>
      exact ⟨h.inv.threadCreateEx hcreate,
        sound_update (sound_update h.sound trivial) trivial⟩
  | spawnFails _ _ _ _ =>
      exact ⟨h.inv, sound_update h.sound trivial⟩
  | alive _ _ _ _ _ =>
      exact ⟨h.inv, sound_update h.sound trivial⟩
  | leave _ _ _ _ _ =>
      exact ⟨h.inv, sound_update h.sound trivial⟩
  | yield _ _ _ hkernel =>
      exact ⟨step_preserves h.inv hkernel, sound_update h.sound trivial⟩
  | exitIndex hc _ _ _ =>
      exact ⟨h.inv, sound_update h.sound hc⟩
  | @exitRead core _ _ _ t tid _ _ hcur _ _ =>
      refine ⟨h.inv, sound_update h.sound ?_⟩
      refine (hends core t rfl hcur).tid tid ?_
      rw [Machine.setTask_task_self]
      rfl
  | @exitWrite _ _ _ t tid _ _ hcur htask =>
      have hown : tid = t := (h.sound t).ending_eq (by rw [htask]; rfl)
      split_ifs
      · exact ⟨h.inv, sound_update h.sound hown⟩
      · exact ⟨h.inv.congr_memory _ _, sound_update h.sound hown⟩
  | @exitMark _ _ t tid hc hexit hcur htask =>
      have hown : tid = t := (h.sound t).ending_eq (by rw [htask]; rfl)
      subst hown
      exact ⟨h.inv.exit hc hexit.1 hcur (hexit.2 _ hcur),
        sound_update h.sound trivial⟩

/-- A step of another function. -/
theorem endsCaller_of_none
    (he : e.exitOn = none) : EndsCaller m e m' := by
  intro core t hon
  rw [he] at hon
  cases hon

theorem endsCaller_of_at
    (hon : e.exitOn = some core) (hcur : m.sys.currentThread core = some t)
    (h : EndsCallerAt m m' e t) : EndsCaller m e m' := by
  intro core' t' hon' hcur'
  rw [hon] at hon'
  cases hon'
  rw [hcur] at hcur'
  cases hcur'
  exact h

theorem readsOwnCore_exitRead
    {index : Nat} {masked : Bool} {code : Int}
    (hcur : m.sys.currentThread core = some t)
    (htask : m.task t = .exitCore masked code index) :
    ReadsOwnCore m (.exitRead core) m' ↔ index = core := by
  have hon : m.taskOn core = .exitCore masked code index := by
    rw [Machine.taskOn, hcur]
    exact htask
  simp only [ReadsOwnCore, hon, Task.index, Option.some.injEq]

/-- The two reads change nothing but the caller's task. -/
theorem endsCallerAt_setTask
    {next : Task} (hmark : ∀ core, e ≠ .exitMark core)
    (hwrite : ∀ core, e ≠ .exitWrite core)
    (htid : ∀ tid, next.ending = some tid → tid = t) :
    EndsCallerAt m (m.setTask t next) e t where
  tid := by
    intro tid h
    rw [Machine.setTask_task_self] at h
    exact htid tid h
  marked := fun core h => absurd h (hmark core)
  other_threads := fun _ _ => rfl
  delivered := fun core _ _ _ h => absurd h (hwrite core)
  other_codes := fun _ _ => rfl

/-- The write through the caller's own pointer. -/
theorem endsCallerAt_exitWrite
    {masked : Bool} {code : Int} (htask : m.task t = .exitTid masked code t) :
    EndsCallerAt m
      ((if (m.sys.threads t).exitCodeOut = 0 then m
        else m.store (m.sys.threads t).exitCodeOut code).setTask t
          (.exitSent masked t))
      (.exitWrite core) t := by
  refine ⟨?_, nofun, ?_, ?_, ?_⟩
  · intro tid h
    rw [Machine.setTask_task_self] at h
    cases h
    rfl
  · intro u _
    split_ifs <;> rfl
  · intro _ masked' code' tid _ htask' hout
    rw [htask] at htask'
    cases htask'
    rw [if_neg hout]
    exact update_self _ _ _
  · intro cell hcell
    split_ifs
    · rfl
    · exact update_of_ne hcell _ _

/-- The caller marks its own slot. -/
theorem endsCallerAt_exitMark :
    EndsCallerAt m
      ({ m with
        sys :=
          (m.sys.setThread t (m.sys.threads t).exited).setPhase core
            .exiting }.setTask t .exitLoop)
      (.exitMark core) t := by
  refine ⟨?_, ?_, ?_, nofun, fun _ _ => rfl⟩
  · intro tid h
    rw [Machine.setTask_task_self] at h
    cases h
  · intro _ _
    exact update_self _ _ _
  · intro u hu
    exact update_of_ne hu _ _

/-- Only the read of `current_thread` can go wrong, and only on another core. -/
theorem OwnExits.endsCaller_iff
    (h : OwnExits n m) (hstep : Process.step pf n m e = some m') :
    EndsCaller m e m' ↔ ReadsOwnCore m e m' := by
  cases transition_of_step hstep with
  | kernel _ _ | create _ _ _ | enterWait _ _ _ _ _ | spawn _ _ _ _ _
  | spawnFails _ _ _ _ | alive _ _ _ _ _ | leave _ _ _ _ _ | yield _ _ _ _ =>
      exact iff_of_true (endsCaller_of_none rfl) trivial
  | exitIndex _ _ hcur _ =>
      exact iff_of_true
        (endsCaller_of_at rfl hcur (endsCallerAt_setTask nofun nofun nofun)) trivial
  | @exitRead core index masked code t tid hc _ hcur htask htid =>
      rw [readsOwnCore_exitRead hcur htask]
      constructor
      · intro hends
        have hown : tid = t := by
          refine (hends core t rfl hcur).tid tid ?_
          rw [Machine.setTask_task_self]
          rfl
        -- no thread is current on two cores
        have hindex : index < n := by
          have hsound := h.sound t
          rwa [htask] at hsound
        exact h.inv.ownership.current_injective index core t hindex hc
          (hown ▸ htid) hcur
      · intro hindex
        rw [hindex, hcur] at htid
        cases htid
        refine endsCaller_of_at rfl hcur (endsCallerAt_setTask nofun nofun ?_)
        intro tid htid
        cases htid
        rfl
  | @exitWrite _ _ _ t tid _ _ hcur htask =>
      have hown : tid = t := (h.sound t).ending_eq (by rw [htask]; rfl)
      subst hown
      exact iff_of_true (endsCaller_of_at rfl hcur (endsCallerAt_exitWrite htask))
        trivial
  | @exitMark _ _ t tid _ _ hcur htask =>
      have hown : tid = t := (h.sound t).ending_eq (by rw [htask]; rfl)
      subst hown
      exact iff_of_true (endsCaller_of_at rfl hcur endsCallerAt_exitMark) trivial

end Steps

theorem ownExits_booted
    {pf : Platform} {n : Nat} {s₀ s₁ : System}
    (hboot : boot pf n s₀ = .ok s₁) : OwnExits n (booted s₁) :=
  ⟨inv_boot hboot, fun _ => trivial⟩

/--
**`thread_exit_code` ends its caller.**  In every run, all exits mark their own
caller's slot, write through its pointer and change no other thread or exit code,
exactly if every exit reads `current_thread` on the core whose index it has read
before.
-/
theorem exits_end_caller_iff
    (pf : Platform) (n : Nat) (s₀ s₁ : System) (events : List Event)
    (hboot : boot pf n s₀ = .ok s₁) :
    EveryStep (step pf n) EndsCaller (booted s₁) events ↔
      EveryStep (step pf n) ReadsOwnCore (booted s₁) events :=
  everyStep_iff (fun _ _ _ h hstep hends => h.step hstep hends)
    (fun _ _ _ h hstep => h.endsCaller_iff hstep) events (ownExits_booted hboot)

/--
A kernel thread on core 0 calls `thread_exit` with interrupts enabled and reads
its core index.  A timer tick hands core 0 to a second thread.
-/
def preemptedExit : List Event :=
  [.create 0 0x100300 0 0x1000, .create 0 0x100400 0 0x1000,
    .kernel (.start 0), .kernel (.readRsp 0), .kernel (.switchTo 0),
    .exitIndex 0 false 0, .kernel (.schedule 0), .kernel (.readRsp 0),
    .kernel (.saveRsp 0 0x1008000), .kernel (.clearFlag 0)]

/-- Core 1 resumes the first thread, which goes on to exit there. -/
def migratedExit : List Event :=
  preemptedExit ++
    [.kernel (.start 1), .kernel (.readRsp 1), .kernel (.switchTo 1),
      .exitRead 1, .exitWrite 1]

/-- The two threads; the idle threads have the first two slots. -/
def exitingSlot : Slot := 2

def bystanderSlot : Slot := 3

/-- The exit of the first thread marks the second one. -/
theorem exit_ends_bystander :
    ∃ s₁ m m',
      boot somePlatform 2 zeroed = .ok s₁ ∧
        runAll (step somePlatform 2) (booted s₁) migratedExit =
          some m ∧
        m.caller 1 = some exitingSlot ∧
        (m.sys.threads bystanderSlot).state = .active ∧
        step somePlatform 2 m (.exitMark 1) = some m' ∧
        (m'.sys.threads bystanderSlot).state = .zombie ∧
        (m'.sys.threads exitingSlot).state = .active ∧
        ¬ EndsCaller m (.exitMark 1) m' := by
  have hfinal :
      ((boot somePlatform 2 zeroed).toOption.bind (fun s₁ =>
        runAll (step somePlatform 2) (booted s₁)
          migratedExit)).any (fun m =>
        m.caller 1 = some exitingSlot ∧
          (m.sys.threads bystanderSlot).state = .active ∧
          (step somePlatform 2 m (.exitMark 1)).any (fun m' =>
            (m'.sys.threads bystanderSlot).state = .zombie ∧
              (m'.sys.threads exitingSlot).state = .active)) := by
    decide
  obtain ⟨m, hm, hspec⟩ := (Option.any_eq_true _ _).mp hfinal
  obtain ⟨s₁, hopt, hrun⟩ := Option.bind_eq_some_iff.mp hm
  obtain ⟨hcaller, hactive, hmark⟩ := of_decide_eq_true hspec
  obtain ⟨m', hstep, hafter⟩ := (Option.any_eq_true _ _).mp hmark
  obtain ⟨hzombie, halive⟩ := of_decide_eq_true hafter
  refine ⟨s₁, m, m', Fallible.toOption_eq_some.mp hopt, hrun, hcaller, hactive, hstep,
    hzombie, halive, ?_⟩
  intro hends
  have hat := hends 1 exitingSlot rfl (caller_eq_some.mp hcaller).2
  rw [hat.other_threads bystanderSlot (by decide), hactive] at hzombie
  cases hzombie

/-- Core 0 resumes the first thread itself. -/
def resumedExit : List Event :=
  preemptedExit ++
    [.kernel (.schedule 0), .kernel (.readRsp 0), .kernel (.saveRsp 0 0x100c000),
      .kernel (.clearFlag 0), .exitRead 0, .exitWrite 0, .exitMark 0]

/-- Then the exit is the caller's own. -/
theorem exits_end_caller_resumed :
    ∃ s₁ m,
      boot somePlatform 2 zeroed = .ok s₁ ∧
        runAll (step somePlatform 2) (booted s₁) resumedExit =
          some m ∧
        (m.sys.threads exitingSlot).state = .zombie ∧
        EveryStep (step somePlatform 2) EndsCaller (booted s₁)
          resumedExit := by
  have hreads :
      (boot somePlatform 2 zeroed).toOption.any (fun s₁ =>
        EveryStep (step somePlatform 2) ReadsOwnCore (booted s₁)
            resumedExit ∧
          (runAll (step somePlatform 2) (booted s₁)
            resumedExit).any (fun m =>
              (m.sys.threads exitingSlot).state = .zombie)) := by
    decide
  obtain ⟨s₁, hboot, hspec⟩ := Fallible.any_toOption.mp hreads
  obtain ⟨hevery, hfinal⟩ := of_decide_eq_true hspec
  obtain ⟨m, hrun, hzombie⟩ := (Option.any_eq_true _ _).mp hfinal
  exact ⟨s₁, m, hboot, hrun, of_decide_eq_true hzombie,
    (exits_end_caller_iff _ 2 zeroed s₁ _ hboot).mpr hevery⟩

end Process
end RebornOS
