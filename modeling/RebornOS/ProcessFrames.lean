import RebornOS.ProcessExit

/-!
# Masked exits and the frames of waiters

An exit that is entered with interrupts disabled is never interrupted between its
two reads: the kernel takes no step on its core, and no other core can take over
a thread that is held.  So it ends its own caller.

While exits are of this kind the thread of a live frame is alive, and the frames
of different waiters stay apart.
-/

namespace RebornOS
namespace Process

open Scheduler LabeledRun Function

variable {pf : Platform} {n out : Nat} {m m' : Machine} {l : Label} {id t w : Slot}
  {next : Task} {s : System} {e : Event}

/-- Interrupts are disabled when `thread_exit_code` is entered. -/
def Event.masksExit : Event → Bool
  | exitIndex _ masked _ => masked
  | _ => true

/-- A thread between the two reads is still on the core whose index it has read. -/
def MaskedExits (m : Machine) : Prop :=
  ∀ t masked code index, m.task t = .exitCore masked code index →
    masked = true ∧ m.sys.currentThread index = some t ∧
      m.sys.phase index = .running

section Masked

/-- A step moves only its own core. -/
theorem others_of_step
    {s' : System} {d : Nat} (h : Inv n n s) (hstep : Scheduler.step pf n s l = some s')
    (hd : d ≠ l.core) :
    s'.currentThread d = s.currentThread d ∧ s'.phase d = s.phase d := by
  have hswitched : ∀ {core : Nat} {next : Slot} {s' : System}, d ≠ core →
      Switched s core next s' →
      s'.currentThread d = s.currentThread d ∧ s'.phase d = s.phase d := by
    intro core next s' hd hs
    obtain ⟨p, hphase, _⟩ := hs.phase
    rw [hs.current, hphase, update_of_ne hd, update_of_ne hd]
    exact ⟨rfl, rfl⟩
  cases move_of_step hstep with
  | create _ _ hcreate =>
      obtain ⟨stack, heap, _, _, _, rfl⟩ := threadCreateEx_eq_ok hcreate
      exact ⟨rfl, rfl⟩
  | stay _ _ | kmalloc _ _ _ | kfree _ _ =>
      exact ⟨rfl, rfl⟩
  | switch hc _ hdecide =>
      exact hswitched hd (h.switched hc hdecide).2
  | start hc hphase hchoice =>
      exact hswitched hd (h.switched_start hc hphase hchoice).2
  | exit _ _ _ _ | reapStack _ _ | readDiscard _ _ | readRelease _ _ | saveRsp _ _
  | clearFlag _ _ | switchTo _ _ =>
      exact ⟨rfl, update_of_ne hd _ _⟩

/-- The kernel takes no step on a core that executes a masked exit. -/
theorem kernel_core_ne
    {code : Int} {index : Nat} (hallowed : allowed m l = true)
    (hstep : Scheduler.step pf n m.sys l = some s)
    (hcur : m.sys.currentThread index = some t) (hphase : m.sys.phase index = .running)
    (htask : m.task t = .exitCore true code index) : index ≠ l.core := by
  rintro rfl
  have hon : m.taskOn l.core = .exitCore true code l.core := by
    rw [Machine.taskOn, hcur]
    exact htask
  cases move_of_step hstep with
  | create _ _ _ | exit _ _ _ _ =>
      cases hallowed
  | stay _ _ | switch _ _ _ =>
      simp only [allowed, Label.core] at hallowed hon
      rw [hon] at hallowed
      cases hallowed
  | kmalloc _ _ _ | kfree _ _ =>
      simp only [allowed, Label.core] at hallowed hon
      rw [hon] at hallowed
      cases hallowed
  | start _ h | reapStack _ h | readDiscard _ h | readRelease _ h | saveRsp _ h
  | clearFlag _ h | switchTo _ h =>
      cases hphase.symm.trans h

/-- The steps that take a thread to another task than `exitCore`. -/
theorem MaskedExits.update
    (h : MaskedExits m) (htask : m'.task = update m.task w next)
    (hnext : next.index = none) (hcur : m'.sys.currentThread = m.sys.currentThread)
    (hphase : ∀ d, m.sys.currentThread d ≠ some w →
      m'.sys.phase d = m.sys.phase d) : MaskedExits m' := by
  intro t masked code index ht
  rw [htask] at ht
  by_cases htw : t = w
  · rw [htw, update_self] at ht
    rw [ht] at hnext
    cases hnext
  · rw [update_of_ne htw] at ht
    obtain ⟨hmasked, hrun, hrunning⟩ := h t masked code index ht
    refine ⟨hmasked, hcur ▸ hrun, ?_⟩
    rw [hphase index (fun hw => htw (Option.some.inj (hrun.symm.trans hw))), hrunning]

theorem MaskedExits.create
    (h : MaskedExits m) (hcreated : Created m.sys id out s) :
    MaskedExits { m with sys := s, task := Function.update m.task id .other } :=
  h.update rfl rfl hcreated.current (fun d _ => congrFun hcreated.phase d)

/-- Masked exits are not preempted. -/
theorem MaskedExits.step
    (h : MaskedExits m) (hown : OwnExits n m) (he : e.masksExit = true)
    (hstep : Process.step pf n m e = some m') : MaskedExits m' := by
  cases transition_of_step hstep with
  | kernel hallowed hkernel =>
      intro t masked code index ht
      obtain ⟨rfl, hcur, hphase⟩ := h t masked code index ht
      have hne := kernel_core_ne hallowed hkernel hcur hphase ht
      obtain ⟨hcur', hphase'⟩ := others_of_step hown.inv hkernel hne
      exact ⟨rfl, hcur'.trans hcur, hphase'.trans hphase⟩
  | create _ _ hcreate =>
      exact h.create (created_of_ok hcreate)
  | enterWait _ _ _ _ _ | spawnFails _ _ _ _ | alive _ _ _ _ _ | leave _ _ _ _ _
  | exitRead _ _ _ _ _ =>
      exact h.update rfl rfl rfl (fun _ _ => rfl)
  | spawn _ _ _ _ hcreate =>
      exact (h.create (created_of_ok hcreate)).update rfl rfl rfl (fun _ _ => rfl)
  | @yield core cell w tid s _ hcur htask hkernel =>
      intro t masked code index ht
      by_cases htw : t = w
      · rw [htw, Machine.setTask_task_self] at ht
        cases ht
      · have hold : m.task t = .exitCore masked code index :=
          (update_of_ne htw _ _).symm.trans ht
        obtain ⟨hmasked, hrun, hrunning⟩ := h t masked code index hold
        -- the yielding core executes another thread
        have hne : index ≠ core := by
          rintro rfl
          exact htw (Option.some.inj (hrun.symm.trans hcur))
        obtain ⟨hcur', hphase'⟩ := others_of_step hown.inv hkernel hne
        exact ⟨hmasked, hcur'.trans hrun, hphase'.trans hrunning⟩
  | @exitIndex core masked code t _ hexit hcur _ =>
      intro u masked' code' index hu
      by_cases hut : u = t
      · subst hut
        rw [Machine.setTask_task_self] at hu
        cases hu
        exact ⟨he, hcur, hexit.1⟩
      · exact h u masked' code' index ((update_of_ne hut _ _).symm.trans hu)
  | exitWrite _ _ _ _ =>
      split_ifs
      · exact h.update rfl rfl rfl (fun _ _ => rfl)
      · exact h.update rfl rfl rfl (fun _ _ => rfl)
  | exitMark _ _ hcur _ =>
      refine h.update rfl rfl rfl ?_
      intro d hd
      refine update_of_ne ?_ _ _
      rintro rfl
      exact hd hcur

/-- Both reads of a masked exit happen on the same core. -/
theorem MaskedExits.readsOwnCore
    (h : MaskedExits m) (hown : OwnExits n m) (hstep : Process.step pf n m e = some m') :
    ReadsOwnCore m e m' := by
  cases transition_of_step hstep with
  | @exitRead core index masked code t tid hc _ hcur htask _ =>
      obtain ⟨_, hrun, _⟩ := h t masked code index htask
      have hindex := hown.sound t
      rw [htask] at hindex
      rw [readsOwnCore_exitRead hcur htask]
      exact hown.inv.ownership.current_injective _ _ _ hindex hc hrun hcur
  | _ =>
      trivial

end Masked

/-- The stages in which the thread in a slot is certainly alive. -/
def Task.busy : Task → Bool
  | other => false
  | exitLoop => false
  | _ => true

/-- The frames of waiters are disjoint, and their threads are alive. -/
structure Frames (m : Machine) : Prop where
  cell_ne_zero : ∀ w cell, (m.task w).cell = some cell → cell ≠ 0
  cell_injective :
    ∀ w u cell, (m.task w).cell = some cell → (m.task u).cell = some cell → w = u
  active : ∀ t, (m.task t).busy = true → (m.sys.threads t).state = .active

section Frames

/-- A thread gets a new task, with its old frame, a fresh one or none. -/
theorem Frames.update
    (h : Frames m) (htask : m'.task = update m.task w next)
    (hcell : ∀ cell, next.cell = some cell →
      (m.task w).cell = some cell ∨ m.FreshCell cell)
    (hactive : next.busy = true → (m'.sys.threads w).state = .active)
    (hstate : ∀ t, t ≠ w → (m.sys.threads t).state = .active →
      (m'.sys.threads t).state = .active) : Frames m' := by
  have hother : ∀ t cell, t ≠ w → (m.task t).cell = some cell →
      next.cell ≠ some cell := by
    intro t cell ht hold hnew
    rcases hcell cell hnew with hw | hfresh
    · exact ht (h.cell_injective t w cell hold hw)
    · exact hfresh.2 t hold
  constructor
  · rw [htask, forall_update_iff m.task
      (fun _ task => ∀ cell, task.cell = some cell → cell ≠ 0)]
    refine ⟨?_, fun t _ => h.cell_ne_zero t⟩
    intro cell hnew
    rcases hcell cell hnew with hw | hfresh
    · exact h.cell_ne_zero w cell hw
    · exact hfresh.1
  · intro t u cell ht hu
    rw [htask] at ht hu
    by_cases htw : t = w
    · by_cases huw : u = w
      · rw [htw, huw]
      · rw [update_of_ne huw] at hu
        rw [htw, update_self] at ht
        exact absurd ht (hother u cell huw hu)
    · rw [update_of_ne htw] at ht
      by_cases huw : u = w
      · rw [huw, update_self] at hu
        exact absurd hu (hother t cell htw ht)
      · rw [update_of_ne huw] at hu
        exact h.cell_injective t u cell ht hu
  · rw [htask, forall_update_iff m.task
      (fun t task => task.busy = true → (m'.sys.threads t).state = .active)]
    exact ⟨hactive, fun t ht hbusy => hstate t ht (h.active t hbusy)⟩

theorem Frames.create
    (h : Frames m) (hcreated : Created m.sys id out s) :
    Frames { m with sys := s, task := Function.update m.task id .other } := by
  refine h.update rfl nofun nofun ?_
  intro t ht hactive
  exact (congrArg Thread.state (hcreated.others t ht)).trans hactive

/-- A thread that executes outside the scheduler is alive. -/
theorem OwnExits.active_of_current
    {core : Nat} (h : OwnExits n m) (hc : core < n)
    (hphase : m.sys.phase core = .running) (hcur : m.sys.currentThread core = some t) :
    (m.sys.threads t).state = .active := by
  have hstate := h.inv.current_state core t hc hcur
  rwa [if_neg (by rw [hphase]; decide)] at hstate

theorem Frames.step
    (h : Frames m) (hown : OwnExits n m) (hstep : Process.step pf n m e = some m') :
    Frames m' := by
  cases transition_of_step hstep with
  | kernel hallowed hkernel =>
      have hkeep := keepsSlots_of_step (reschedules_of_allowed hallowed) hkernel
      exact ⟨h.cell_ne_zero, h.cell_injective,
        fun t hbusy => (hkeep.active t).mpr (h.active t hbusy)⟩
  | create _ _ hcreate =>
      exact h.create (created_of_ok hcreate)
  | enterWait hc hphase hcur _ hfresh =>
      refine h.update rfl ?_ (fun _ => hown.active_of_current hc hphase hcur)
        (fun _ _ hactive => hactive)
      intro cell hcell
      cases hcell
      exact Or.inr hfresh
  | @spawn core entry arg cr3 cell w id s hc hphase hcur htask hcreate =>
      have hcreated := created_of_ok hcreate
      have hactive : (m.sys.threads w).state = .active :=
        hown.active_of_current hc hphase hcur
      have hne : w ≠ id := hcreated.ne_of_active hactive
      have hkept : Function.update m.task id .other w = .spawning cell :=
        (update_of_ne hne _ _).trans htask
      refine (h.create hcreated).update rfl ?_ ?_ (fun _ _ hactive => hactive)
      · intro c hcell
        exact Or.inl ((congrArg Task.cell hkept).trans hcell)
      · intro _
        exact (congrArg Thread.state (hcreated.others w hne)).trans hactive
  | spawnFails _ _ _ _ =>
      exact h.update rfl nofun nofun (fun _ _ hactive => hactive)
  | alive hc hphase hcur htask _ =>
      exact h.update rfl (fun _ hcell => Or.inl (by rw [htask]; exact hcell))
        (fun _ => hown.active_of_current hc hphase hcur) (fun _ _ hactive => hactive)
  | leave _ _ _ _ _ =>
      exact h.update rfl nofun nofun (fun _ _ hactive => hactive)
  | yield hphase hcur htask hkernel =>
      have hkeep := keepsSlots_of_step rfl hkernel
      refine h.update rfl (fun _ hcell => Or.inl (by rw [htask]; exact hcell)) ?_
        (fun t _ => (hkeep.active t).mpr)
      intro _
      exact (hkeep.active _).mpr (h.active _ (by rw [htask]; rfl))
  | exitIndex hc hexit hcur _ =>
      exact h.update rfl nofun (fun _ => hown.active_of_current hc hexit.1 hcur)
        (fun _ _ hactive => hactive)
  | exitRead hc hexit hcur _ _ =>
      exact h.update rfl nofun (fun _ => hown.active_of_current hc hexit.1 hcur)
        (fun _ _ hactive => hactive)
  | exitWrite hc hexit hcur _ =>
      have hactive := hown.active_of_current hc hexit.1 hcur
      split_ifs
      · exact h.update rfl nofun (fun _ => hactive) (fun _ _ hactive => hactive)
      · exact h.update rfl nofun (fun _ => hactive) (fun _ _ hactive => hactive)
  | @exitMark _ _ t tid _ _ _ htask =>
      have htid : tid = t := (hown.sound t).ending_eq (by rw [htask]; rfl)
      subst htid
      refine h.update rfl nofun nofun ?_
      intro u hu hactive
      exact (congrArg Thread.state (update_of_ne hu _ _)).trans hactive

end Frames

end Process
end RebornOS
