import RebornOS.ProcessSteps

/-!
# Which thread is in which slot

A thread id is a slot index, and a slot has many occupants one after the other.
The history below numbers the threads in the order of their creation, so that
one can ask whether two looks at a slot have seen the same thread.  It also
records what the threads have passed to `thread_exit_code`, which of them have
been marked `ZOMBIE`, and every write through an exit code pointer.

The census holds in every run.  A slot loses its thread only after the thread
was marked, so a waiter that finds the slot `ACTIVE` is looking at its own child
exactly as long as the child has not exited.
-/

namespace RebornOS
namespace Process

open Scheduler LabeledRun Function

/-- A write through `exit_code_out`. -/
structure Write where
  cell : Nat
  /-- The number of the thread that wrote. -/
  writer : Nat
  code : Int
deriving DecidableEq

/-- What has happened so far. -/
structure History where
  /-- The next number for a new thread. -/
  created : Nat
  /-- The number of the thread that was last created in a slot. -/
  number : Slot → Nat
  /-- The argument of `thread_exit_code`, by thread number. -/
  passed : Nat → Option Int
  /-- The threads that were marked `ZOMBIE`. -/
  ended : Nat → Bool
  /-- The threads whose slot was taken again. -/
  replaced : Nat → Bool
  /-- The number of the child for which the thread in a slot waits. -/
  child : Slot → Nat
  /-- How many writes there were when it entered `process_spawn_args_and_wait`. -/
  opened : Slot → Nat
  writes : List Write

namespace History

/-- A thread was created in the slot found by the scan. -/
def addThread (h : History) : Option Slot → History
  | none => h
  | some id =>
      { h with
        created := h.created + 1
        number := update h.number id h.created
        replaced := update h.replaced (h.number id) true }

end History

/-- The idle threads have the numbers of their slots. -/
def initialHistory : History where
  created := schedulerMaxThreads
  number := fun t => t.val
  passed := fun _ => none
  ended := fun _ => false
  replaced := fun _ => false
  child := fun _ => 0
  opened := fun _ => 0
  writes := []

/-- What the caller's step adds to the history. -/
def recordCall (m : Machine) (h : History) (t : Slot) : Task → Event → History
  | _, .enterWait _ _ =>
      { h with opened := update h.opened t h.writes.length }
  | _, .spawn _ _ _ _ =>
      { h.addThread (firstUnused m.sys.threads) with
        child := update h.child t h.created }
  | _, .exitIndex _ _ code =>
      { h with passed := update h.passed (h.number t) (some code) }
  | .exitTid _ code tid, .exitWrite _ =>
      let out := (m.sys.threads tid).exitCodeOut
      if out = 0 then h
      else { h with writes := h.writes ++ [⟨out, h.number t, code⟩] }
  | .exitSent _ tid, .exitMark _ =>
      { h with ended := update h.ended (h.number tid) true }
  | _, _ => h

/-- What a step adds to the history. -/
def record (m : Machine) (e : Event) (_ : Machine) (h : History) : History :=
  match e with
  | .kernel _ => h
  | .create _ _ _ _ => h.addThread (firstUnused m.sys.threads)
  | e =>
      match m.sys.currentThread e.core with
      | none => h
      | some t => recordCall m h t (m.task t) e

/-- The numbers and the states of the slots fit together. -/
structure Census (m : Machine) (h : History) : Prop where
  number_lt : ∀ t, h.number t < h.created
  number_injective : ∀ t u, h.number t = h.number u → t = u
  /-- A number that was not given away has not ended. -/
  unused : ∀ k, h.created ≤ k → h.ended k = false
  active : ∀ t, (m.sys.threads t).state = .active → h.ended (h.number t) = false
  unreplaced : ∀ k, h.created ≤ k → h.replaced k = false
  present : ∀ t, h.replaced (h.number t) = false
  /-- The child of a waiter has been marked, or is still in its slot. -/
  awaited :
    ∀ w tid, (m.task w).awaits = some tid →
      h.ended (h.child w) = true ∨
        (h.number tid = h.child w ∧ (m.sys.threads tid).state = .active)
  /-- The child of a waiter is still in its slot, or the slot was taken again. -/
  slot :
    ∀ w tid, (m.task w).awaits = some tid →
      h.number tid = h.child w ∨ h.replaced (h.child w) = true

section Steps

variable {pf : Platform} {n : Nat} {m m' : Machine} {h : History}

theorem census_booted
    (s : System) : Census (booted s) initialHistory where
  number_lt := fun t => t.isLt
  number_injective := fun _ _ htu => Fin.ext htu
  unused := fun _ _ => rfl
  active := fun _ _ => rfl
  unreplaced := fun _ _ => rfl
  present := fun _ => rfl
  awaited := fun _ _ hawaits => nomatch hawaits
  slot := fun _ _ hawaits => nomatch hawaits

/-- A step that moves no thread in or out of a slot. -/
theorem Census.keep
    {h' : History}
    (hcensus : Census m h)
    (hsame : h'.created = h.created ∧ h'.number = h.number ∧
      h'.ended = h.ended ∧ h'.replaced = h.replaced ∧ h'.child = h.child)
    (hactive : ∀ t, (m'.sys.threads t).state = .active ↔
      (m.sys.threads t).state = .active)
    (hawaits : ∀ w tid, (m'.task w).awaits = some tid →
      (m.task w).awaits = some tid) : Census m' h' := by
  obtain ⟨hcreated, hnumber, hended, hreplaced, hchild⟩ := hsame
  constructor
  · rw [hnumber, hcreated]
    exact hcensus.number_lt
  · rw [hnumber]
    exact hcensus.number_injective
  · rw [hcreated, hended]
    exact hcensus.unused
  · intro t ht
    rw [hended, hnumber]
    exact hcensus.active t ((hactive t).mp ht)
  · rw [hcreated, hreplaced]
    exact hcensus.unreplaced
  · rw [hreplaced, hnumber]
    exact hcensus.present
  · intro w tid hw
    rw [hended, hnumber, hchild, hactive]
    exact hcensus.awaited w tid (hawaits w tid hw)
  · intro w tid hw
    rw [hreplaced, hnumber, hchild]
    exact hcensus.slot w tid (hawaits w tid hw)

/-- The tasks of a step that changes the task of one thread only. -/
theorem awaits_of_update
    {task : Slot → Task} {w u tid : Slot} (next : Task)
    (hnext : ∀ tid, next.awaits = some tid → (task w).awaits = some tid)
    (hu : (update task w next u).awaits = some tid) : (task u).awaits = some tid := by
  by_cases huw : u = w
  · subst huw
    rw [update_self] at hu
    exact hnext tid hu
  · rwa [update_of_ne huw] at hu

/-- A new thread in a slot that was `UNUSED`. -/
theorem Census.addThread
    {id : Slot} {s : System} {out : Nat}
    (hcensus : Census m h) (hcreated : Created m.sys id out s) :
    Census { m with sys := s, task := update m.task id .other }
      (h.addThread (some id)) := by
  have hfresh : ∀ v, h.number v ≠ h.created :=
    fun v => Nat.ne_of_lt (hcensus.number_lt v)
  constructor
  · intro t
    show update h.number id h.created t < h.created + 1
    by_cases ht : t = id
    · rw [ht, update_self]
      exact Nat.lt_succ_self _
    · rw [update_of_ne ht]
      exact Nat.lt_succ_of_lt (hcensus.number_lt t)
  · intro t u htu
    simp only [History.addThread, update_apply] at htu
    split_ifs at htu with ht hu hu
    · rw [ht, hu]
    · exact absurd htu.symm (hfresh u)
    · exact absurd htu (hfresh t)
    · exact hcensus.number_injective t u htu
  · intro k hk
    exact hcensus.unused k (Nat.le_of_succ_le hk)
  · intro t ht
    show h.ended (update h.number id h.created t) = false
    by_cases htid : t = id
    · rw [htid, update_self]
      exact hcensus.unused _ (Nat.le_refl _)
    · rw [update_of_ne htid]
      exact hcensus.active t (hcreated.others t htid ▸ ht)
  · intro k hk
    have hne : k ≠ h.number id :=
      Nat.ne_of_gt (Nat.lt_trans (hcensus.number_lt id) hk)
    exact
      (update_of_ne hne _ _).trans (hcensus.unreplaced k (Nat.le_of_succ_le hk))
  · intro t
    show update h.replaced (h.number id) true
      (update h.number id h.created t) = false
    by_cases ht : t = id
    · rw [ht, update_self, update_of_ne (hfresh id).symm]
      exact hcensus.unreplaced _ (Nat.le_refl _)
    · have hne : h.number t ≠ h.number id :=
        fun heq => ht (hcensus.number_injective t id heq)
      rw [update_of_ne ht, update_of_ne hne]
      exact hcensus.present t
  · intro w tid hw
    have hold : (m.task w).awaits = some tid :=
      awaits_of_update .other nofun hw
    rcases hcensus.awaited w tid hold with hended | ⟨hnumber, hactive⟩
    · exact Or.inl hended
    · have hne := hcreated.ne_of_active hactive
      refine Or.inr ⟨?_, ?_⟩
      · exact (update_of_ne hne _ _).trans hnumber
      · exact (congrArg Thread.state (hcreated.others tid hne)).trans hactive
  · intro w tid hw
    have hold : (m.task w).awaits = some tid :=
      awaits_of_update .other nofun hw
    show update h.number id h.created tid = h.child w ∨
      update h.replaced (h.number id) true (h.child w) = true
    by_cases hchild : h.child w = h.number id
    · exact Or.inr (by rw [hchild, update_self])
    · rw [update_of_ne hchild]
      rcases hcensus.slot w tid hold with hnumber | hreplaced
      · have hne : tid ≠ id := by
          rintro rfl
          exact hchild hnumber.symm
        exact Or.inl ((update_of_ne hne _ _).trans hnumber)
      · exact Or.inr hreplaced

/-- A slot is marked `ZOMBIE`. -/
theorem Census.mark
    {t tid : Slot} {core : Nat}
    (hcensus : Census m h) :
    Census
      ({ m with
        sys :=
          (m.sys.setThread tid (m.sys.threads tid).exited).setPhase core
            .exiting }.setTask t .exitLoop)
      { h with ended := update h.ended (h.number tid) true } := by
  have hself : (update m.sys.threads tid (m.sys.threads tid).exited tid) =
      (m.sys.threads tid).exited := update_self _ _ _
  have hother : ∀ u, u ≠ tid →
      update m.sys.threads tid (m.sys.threads tid).exited u =
        m.sys.threads u := fun u hu => update_of_ne hu _ _
  refine
    ⟨hcensus.number_lt, hcensus.number_injective, ?_, ?_, hcensus.unreplaced,
      hcensus.present, ?_,
      fun w u hw => hcensus.slot w u (awaits_of_update .exitLoop nofun hw)⟩
  · intro k hk
    have hne : k ≠ h.number tid :=
      Nat.ne_of_gt (Nat.lt_of_lt_of_le (hcensus.number_lt tid) hk)
    exact (update_of_ne hne _ _).trans (hcensus.unused k hk)
  · intro u hu
    have hne : u ≠ tid := by
      rintro rfl
      have hzombie := (congrArg Thread.state hself).symm.trans hu
      cases hzombie
    have hnumber : h.number u ≠ h.number tid :=
      fun heq => hne (hcensus.number_injective u tid heq)
    have hactive := (congrArg Thread.state (hother u hne)).symm.trans hu
    exact (update_of_ne hnumber _ _).trans (hcensus.active u hactive)
  · intro w u hw
    have hold : (m.task w).awaits = some u :=
      awaits_of_update .exitLoop nofun hw
    show update h.ended (h.number tid) true (h.child w) = true ∨ _
    by_cases hchild : h.child w = h.number tid
    · exact Or.inl (by rw [hchild, update_self])
    · rw [update_of_ne hchild]
      rcases hcensus.awaited w u hold with hended | ⟨hnumber, hactive⟩
      · exact Or.inl hended
      · have hne : u ≠ tid := by
          rintro rfl
          exact hchild hnumber.symm
        exact Or.inr ⟨hnumber, (congrArg Thread.state (hother u hne)).trans hactive⟩

/-- Every step keeps the census. -/
theorem census_step
    {e : Event}
    (hcensus : Census m h) (hstep : step pf n m e = some m') :
    Census m' (record m e m' h) := by
  -- most steps change the task of the caller, and it awaits nothing new
  have hcall : ∀ {m' : Machine} {h' : History} {w : Slot} {next : Task},
      h'.created = h.created ∧ h'.number = h.number ∧
        h'.ended = h.ended ∧ h'.replaced = h.replaced ∧ h'.child = h.child →
      (∀ t, (m'.sys.threads t).state = .active ↔
        (m.sys.threads t).state = .active) →
      m'.task = update m.task w next →
      (∀ tid, next.awaits = some tid → (m.task w).awaits = some tid) →
      Census m' h' := by
    intro m' h' w next hsame hactive htask hnext
    refine hcensus.keep hsame hactive ?_
    rw [htask]
    exact fun _ _ => awaits_of_update next hnext
  cases transition_of_step hstep with
  | kernel hallowed hkernel =>
      exact hcensus.keep ⟨rfl, rfl, rfl, rfl, rfl⟩
        (keepsSlots_of_step (reschedules_of_allowed hallowed) hkernel).active
        (fun _ _ hw => hw)
  | create _ _ hcreate =>
      have hcreated := created_of_ok hcreate
      simp only [record, hcreated.slot]
      exact hcensus.addThread hcreated
  | enterWait _ _ hcur _ _ =>
      simp only [record, Event.core, hcur, recordCall]
      exact hcall ⟨rfl, rfl, rfl, rfl, rfl⟩ (fun _ => Iff.rfl) rfl nofun
  | @spawn core entry arg cr3 cell w id s _ _ hcur _ hcreate =>
      have hcreated := created_of_ok hcreate
      have hnew := hcensus.addThread hcreated
      simp only [record, Event.core, hcur, recordCall, hcreated.slot]
      -- the caller waits for the thread it has just created
      have hself : ∀ {tid}, (update (update m.task id .other) w
          (.polling cell id) w).awaits = some tid →
            tid = id ∧ update h.number id h.created tid =
              update h.child w h.created w := by
        intro tid hu
        rw [update_self] at hu
        cases hu
        exact ⟨rfl, by rw [update_self, update_self]⟩
      have hother : ∀ {u tid}, u ≠ w → (update (update m.task id
          .other) w (.polling cell id) u).awaits = some tid →
            (update m.task id .other u).awaits = some tid ∧
              update h.child w h.created u = h.child u := by
        intro u tid huw hu
        rw [update_of_ne huw] at hu
        exact ⟨hu, update_of_ne huw _ _⟩
      refine
        ⟨hnew.number_lt, hnew.number_injective, hnew.unused, hnew.active,
          hnew.unreplaced, hnew.present, fun u tid hu => ?_, fun u tid hu => ?_⟩
      all_goals by_cases huw : u = w
      · subst huw
        obtain ⟨rfl, hnumber⟩ := hself hu
        exact Or.inr ⟨hnumber, hcreated.active⟩
      · obtain ⟨hold, hchild⟩ := hother huw hu
        simp only [hchild]
        exact hnew.awaited u tid hold
      · subst huw
        exact Or.inl (hself hu).2
      · obtain ⟨hold, hchild⟩ := hother huw hu
        simp only [hchild]
        exact hnew.slot u tid hold
  | spawnFails _ _ hcur _ =>
      simp only [record, Event.core, hcur, recordCall]
      exact hcall ⟨rfl, rfl, rfl, rfl, rfl⟩ (fun _ => Iff.rfl) rfl nofun
  | alive _ _ hcur htask _ =>
      simp only [record, Event.core, hcur, recordCall]
      exact hcall ⟨rfl, rfl, rfl, rfl, rfl⟩ (fun _ => Iff.rfl) rfl
        (fun _ hnext => by rw [htask]; exact hnext)
  | leave _ _ hcur _ _ =>
      simp only [record, Event.core, hcur, recordCall]
      exact hcall ⟨rfl, rfl, rfl, rfl, rfl⟩ (fun _ => Iff.rfl) rfl nofun
  | yield _ hcur htask hkernel =>
      simp only [record, Event.core, hcur, recordCall]
      exact hcall ⟨rfl, rfl, rfl, rfl, rfl⟩ (keepsSlots_of_step rfl hkernel).active rfl
        (fun _ hnext => by rw [htask]; exact hnext)
  | exitIndex _ _ hcur _ =>
      simp only [record, Event.core, hcur, recordCall]
      exact hcall ⟨rfl, rfl, rfl, rfl, rfl⟩ (fun _ => Iff.rfl) rfl nofun
  | exitRead _ _ hcur _ _ =>
      simp only [record, Event.core, hcur, recordCall]
      exact hcall ⟨rfl, rfl, rfl, rfl, rfl⟩ (fun _ => Iff.rfl) rfl nofun
  | exitWrite _ _ hcur htask =>
      simp only [record, Event.core, hcur, htask, recordCall]
      split_ifs <;> exact hcall ⟨rfl, rfl, rfl, rfl, rfl⟩ (fun _ => Iff.rfl) rfl nofun
  | exitMark _ _ hcur htask =>
      simp only [record, Event.core, hcur, htask, recordCall]
      exact hcensus.mark

end Steps

/-- The census holds after every run. -/
theorem census_of_run
    {pf : Platform} {n : Nat} {s : System} {events : List Event}
    {m : Machine} {h : History}
    (hrun : runAll (withHistory (step pf n) record) (booted s, initialHistory)
      events = some (m, h)) : Census m h := by
  refine runAll_invariant (P := fun x : Machine × History => Census x.1 x.2) ?_
    (census_booted s) hrun
  intro x e y hx hstep
  obtain ⟨hmachine, hhistory⟩ := withHistory_eq_some.mp hstep
  rw [hhistory]
  exact census_step hx hmachine

/--
**What a waiter sees.**  In every run, when `thread_is_alive(tid)` holds for the
slot a thread waits on, the slot holds the thread that the waiter has spawned
exactly if that child has not been marked `ZOMBIE` yet, and exactly if the slot has
not been taken again since then.
-/
theorem alive_poll_sees_child_iff
    (pf : Platform) (n : Nat) (s : System) (events : List Event)
    (m : Machine) (h : History) (w tid : Slot)
    (hrun : runAll (withHistory (step pf n) record) (booted s, initialHistory)
      events = some (m, h))
    (hwait : (m.task w).awaits = some tid)
    (halive : threadIsAlive m.sys tid.val = true) :
    (h.number tid = h.child w ↔ h.ended (h.child w) = false) ∧
      (h.number tid = h.child w ↔ h.replaced (h.child w) = false) := by
  have hcensus := census_of_run hrun
  rw [threadIsAlive_slot] at halive
  have hactive := of_decide_eq_true halive
  refine ⟨⟨fun hnumber => ?_, fun hrunning => ?_⟩, fun hnumber => ?_, fun hkept => ?_⟩
  · rw [← hnumber]
    exact hcensus.active tid hactive
  · rcases hcensus.awaited w tid hwait with hended | ⟨hnumber, _⟩
    · rw [hrunning] at hended
      cases hended
    · exact hnumber
  · rw [← hnumber]
    exact hcensus.present tid
  · rcases hcensus.slot w tid hwait with hnumber | hreplaced
    · exact hnumber
    · rw [hkept] at hreplaced
      cases hreplaced

/--
Core 0 runs a waiter and then its child, core 1 runs another thread.  The child
exits and is reaped, and the other thread creates one more thread.
-/
def reuseEvents : List Event :=
  [.create 0 0x100300 0 0x1000, .create 0 0x100400 0 0x1000,
    .kernel (.start 0), .kernel (.readRsp 0), .kernel (.switchTo 0),
    .kernel (.start 1), .kernel (.readRsp 1), .kernel (.switchTo 1),
    .enterWait 0 0x1008000, .spawn 0 0x100500 0 0x2000, .poll 0, .yield 0,
    .kernel (.readRsp 0), .kernel (.saveRsp 0 0x1007f00), .kernel (.clearFlag 0),
    .exitIndex 0 true 5, .exitRead 0, .exitWrite 0, .exitMark 0,
    .kernel (.schedule 0), .kernel (.reapStack 0), .kernel (.readRsp 0),
    .kernel (.switchTo 0), .create 1 0x100600 0 0x1000]

/-- The slots of the waiter and of its child; the idle threads have the first two. -/
def waiterSlot : Slot := 2

def childSlot : Slot := 4

/-- The waiter's next poll succeeds although its child is gone. -/
theorem alive_poll_sees_stranger :
    ∃ s₁ m h,
      boot somePlatform 2 zeroed = .ok s₁ ∧
        runAll (withHistory (step somePlatform 2) record)
          (booted s₁, initialHistory) reuseEvents = some (m, h) ∧
        m.caller 0 = some waiterSlot ∧
        m.task waiterSlot = .polling 0x1008000 childSlot ∧
        threadIsAlive m.sys childSlot.val = true ∧
        h.ended (h.child waiterSlot) = true ∧
        h.number childSlot ≠ h.child waiterSlot := by
  have hfinal :
      ((boot somePlatform 2 zeroed).toOption.bind (fun s₁ =>
        runAll (withHistory (step somePlatform 2) record)
          (booted s₁, initialHistory) reuseEvents)).any (fun x =>
        x.1.caller 0 = some waiterSlot ∧
          x.1.task waiterSlot = .polling 0x1008000 childSlot ∧
          threadIsAlive x.1.sys childSlot.val = true ∧
          x.2.ended (x.2.child waiterSlot) = true ∧
          x.2.number childSlot ≠ x.2.child waiterSlot) := by
    decide
  obtain ⟨⟨m, h⟩, hx, hspec⟩ := (Option.any_eq_true _ _).mp hfinal
  obtain ⟨s₁, hopt, hrun⟩ := Option.bind_eq_some_iff.mp hx
  exact ⟨s₁, m, h, Fallible.toOption_eq_some.mp hopt, hrun,
    of_decide_eq_true hspec⟩

/-- The first poll of the same run, while the child is alive. -/
theorem alive_poll_sees_child_first :
    ∃ s₁ m h,
      boot somePlatform 2 zeroed = .ok s₁ ∧
        runAll (withHistory (step somePlatform 2) record)
          (booted s₁, initialHistory) (reuseEvents.take 10) = some (m, h) ∧
        threadIsAlive m.sys childSlot.val = true ∧
        h.ended (h.child waiterSlot) = false ∧
        h.replaced (h.child waiterSlot) = false ∧
        h.number childSlot = h.child waiterSlot := by
  have hfinal :
      ((boot somePlatform 2 zeroed).toOption.bind (fun s₁ =>
        runAll (withHistory (step somePlatform 2) record)
          (booted s₁, initialHistory) (reuseEvents.take 10))).any (fun x =>
        (x.1.task waiterSlot).awaits = some childSlot ∧
          threadIsAlive x.1.sys childSlot.val = true ∧
          x.2.ended (x.2.child waiterSlot) = false) := by
    decide
  obtain ⟨⟨m, h⟩, hx, hspec⟩ := (Option.any_eq_true _ _).mp hfinal
  obtain ⟨s₁, hopt, hrun⟩ := Option.bind_eq_some_iff.mp hx
  obtain ⟨hwait, halive, hrunning⟩ := of_decide_eq_true hspec
  obtain ⟨hended, hreplaced⟩ :=
    alive_poll_sees_child_iff _ 2 s₁ _ m h waiterSlot childSlot hrun hwait halive
  have hnumber := hended.mpr hrunning
  exact ⟨s₁, m, h, Fallible.toOption_eq_some.mp hopt, hrun, halive, hrunning,
    hreplaced.mp hnumber, hnumber⟩

end Process
end RebornOS
