import RebornOS.Process

/-!
# What the steps of processes do

`Transition` lists every effect of a step, with what the step has found in the
caller's task; it is the only place where the step function is unfolded.

Towards the slots of the thread table the scheduler's own steps do very little:
they end no thread, redirect no exit code pointer and write no exit code
(`KeepsSlots`).  This holds in every state, also where the ownership invariant
of the scheduler is lost.
-/

namespace RebornOS
namespace Process

open Scheduler LabeledRun Function

variable {arg core cr3 entry n out : Nat} {m : Machine} {l : Label} {pf : Platform}
  {id t : Slot} {e : Event} {s s' : System}

/-- What the steps of the first `n` cores do. -/
inductive Transition (pf : Platform) (n : Nat) (m : Machine) : Event → Machine → Prop
  | kernel {l : Label} {s : System}
      (hallowed : allowed m l = true)
      (hstep : Scheduler.step pf n m.sys l = some s) :
      Transition pf n m (.kernel l) { m with sys := s }
  | create {core entry arg cr3 : Nat} {id : Slot} {s : System}
      (hc : core < n) (hother : m.taskOn core = .other)
      (hcreate : threadCreateEx pf m.sys entry arg cr3 0 = .ok (id, s)) :
      Transition pf n m (.create core entry arg cr3)
        { m with sys := s, task := update m.task id .other }
  | enterWait {core cell : Nat} {w : Slot}
      (hc : core < n) (hphase : m.sys.phase core = .running)
      (hcur : m.sys.currentThread core = some w)
      (htask : m.task w = .other) (hfresh : m.FreshCell cell) :
      Transition pf n m (.enterWait core cell)
        ((m.store cell 0).setTask w (.spawning cell))
  | spawn {core entry arg cr3 cell : Nat} {w id : Slot} {s : System}
      (hc : core < n) (hphase : m.sys.phase core = .running)
      (hcur : m.sys.currentThread core = some w)
      (htask : m.task w = .spawning cell)
      (hcreate : threadCreateEx pf m.sys entry arg cr3 cell = .ok (id, s)) :
      Transition pf n m (.spawn core entry arg cr3)
        ({ m with
          sys := s
          task := update m.task id .other }.setTask w (.polling cell id))
  | spawnFails {core cell : Nat} {w : Slot}
      (hc : core < n) (hphase : m.sys.phase core = .running)
      (hcur : m.sys.currentThread core = some w)
      (htask : m.task w = .spawning cell) :
      Transition pf n m (.spawnFails core)
        ({ m with result := update m.result w (-1) }.setTask w .other)
  | alive {core cell : Nat} {w tid : Slot}
      (hc : core < n) (hphase : m.sys.phase core = .running)
      (hcur : m.sys.currentThread core = some w)
      (htask : m.task w = .polling cell tid)
      (halive : (m.sys.threads tid).state = .active) :
      Transition pf n m (.poll core) (m.setTask w (.yielding cell tid))
  | leave {core cell : Nat} {w tid : Slot}
      (hc : core < n) (hphase : m.sys.phase core = .running)
      (hcur : m.sys.currentThread core = some w)
      (htask : m.task w = .polling cell tid)
      (hdead : (m.sys.threads tid).state ≠ .active) :
      Transition pf n m (.poll core)
        ({ m with
          result :=
            update m.result w (toInt (m.sys.exitCodes cell)) }.setTask
              w .other)
  | yield {core cell : Nat} {w tid : Slot} {s : System}
      (hphase : m.sys.phase core = .running)
      (hcur : m.sys.currentThread core = some w)
      (htask : m.task w = .yielding cell tid)
      (hstep : Scheduler.step pf n m.sys (.schedule core) = some s) :
      Transition pf n m (.yield core)
        ({ m with sys := s }.setTask w (.polling cell tid))
  | exitIndex {core : Nat} {masked : Bool} {code : Int} {t : Slot}
      (hc : core < n) (hexit : mayExit m.sys core)
      (hcur : m.sys.currentThread core = some t)
      (htask : m.task t = .other) :
      Transition pf n m (.exitIndex core masked code)
        (m.setTask t (.exitCore masked code core))
  | exitRead {core index : Nat} {masked : Bool} {code : Int} {t tid : Slot}
      (hc : core < n) (hexit : mayExit m.sys core)
      (hcur : m.sys.currentThread core = some t)
      (htask : m.task t = .exitCore masked code index)
      (htid : m.sys.currentThread index = some tid) :
      Transition pf n m (.exitRead core)
        (m.setTask t (.exitTid masked code tid))
  | exitWrite {core : Nat} {masked : Bool} {code : Int} {t tid : Slot}
      (hc : core < n) (hexit : mayExit m.sys core)
      (hcur : m.sys.currentThread core = some t)
      (htask : m.task t = .exitTid masked code tid) :
      Transition pf n m (.exitWrite core)
        ((if (m.sys.threads tid).exitCodeOut = 0 then m
          else m.store (m.sys.threads tid).exitCodeOut code).setTask t
            (.exitSent masked tid))
  | exitMark {core : Nat} {masked : Bool} {t tid : Slot}
      (hc : core < n) (hexit : mayExit m.sys core)
      (hcur : m.sys.currentThread core = some t)
      (htask : m.task t = .exitSent masked tid) :
      Transition pf n m (.exitMark core)
        ({ m with
          sys :=
            (m.sys.setThread tid (m.sys.threads tid).exited).setPhase core
              .exiting }.setTask t .exitLoop)

section Inversion

variable {m' : Machine}

theorem caller_eq_some :
    m.caller core = some t ↔
      m.sys.phase core = .running ∧ m.sys.currentThread core = some t := by
  unfold Machine.caller
  split_ifs with hphase <;> simp [hphase]

theorem exitCaller_eq_some :
    m.exitCaller core = some t ↔
      mayExit m.sys core ∧ m.sys.currentThread core = some t := by
  unfold Machine.exitCaller
  split_ifs with hexit <;> simp [hexit]

theorem createThread_eq_some
    (h : m.createThread pf entry arg cr3 out = some (id, m')) :
    ∃ s, threadCreateEx pf m.sys entry arg cr3 out = .ok (id, s) ∧
      m' = { m with sys := s, task := update m.task id .other } := by
  unfold Machine.createThread at h
  cases hcreate : threadCreateEx pf m.sys entry arg cr3 out with
  | error e =>
      rw [hcreate] at h
      cases h
  | ok r =>
      rw [hcreate] at h
      cases h
      exact ⟨_, rfl, rfl⟩

/-- The steps of `process_spawn_args_and_wait`. -/
theorem transition_of_wait
    {w : Slot} (hc : e.core < n) (hphase : m.sys.phase e.core = .running)
    (hcur : m.sys.currentThread e.core = some w)
    (h : processSpawnArgsAndWait pf m w (m.task w) e = some m') :
    Transition pf n m e m' := by
  unfold processSpawnArgsAndWait at h
  split at h
  · split_ifs at h with hfresh
    cases h
    exact .enterWait hc hphase hcur ‹_› hfresh
  · obtain ⟨⟨id, m₁⟩, hcreate, rfl⟩ := Option.map_eq_some_iff.mp h
    obtain ⟨s, hs, rfl⟩ := createThread_eq_some hcreate
    exact .spawn hc hphase hcur ‹_› hs
  · cases h
    exact .spawnFails hc hphase hcur ‹_›
  · rw [threadIsAlive_slot] at h
    split_ifs at h with halive
    · cases h
      exact .alive hc hphase hcur ‹_› (of_decide_eq_true halive)
    · cases h
      exact .leave hc hphase hcur ‹_› (fun hactive => halive (decide_eq_true hactive))
  · obtain ⟨s, hs, rfl⟩ := Option.map_eq_some_iff.mp h
    refine .yield hphase hcur ‹_› ?_
    exact (if_pos hc).trans ((if_pos (Or.inl (Or.inr hphase))).trans hs)
  · cases h

/-- The steps of `thread_exit_code`. -/
theorem transition_of_exit
    (hc : e.core < n) (hexit : mayExit m.sys e.core)
    (hcur : m.sys.currentThread e.core = some t)
    (h : threadExitCode m t (m.task t) e = some m') : Transition pf n m e m' := by
  unfold threadExitCode at h
  split at h
  · cases h
    exact .exitIndex hc hexit hcur ‹_›
  · obtain ⟨tid, htid, rfl⟩ := Option.map_eq_some_iff.mp h
    exact .exitRead hc hexit hcur ‹_› htid
  · cases h
    exact .exitWrite hc hexit hcur ‹_›
  · cases h
    exact .exitMark hc hexit hcur ‹_›
  · cases h

/-- Every step is one of these transitions. -/
theorem transition_of_step
    (hstep : step pf n m e = some m') : Transition pf n m e m' := by
  unfold step at hstep
  split_ifs at hstep with hc
  have hwait : ∀ {e : Event}, e.core < n →
      (m.caller e.core).bind (fun t =>
        processSpawnArgsAndWait pf m t (m.task t) e) = some m' →
      Transition pf n m e m' := by
    intro e hc h
    obtain ⟨w, hw, hstep⟩ := Option.bind_eq_some_iff.mp h
    obtain ⟨hphase, hcur⟩ := caller_eq_some.mp hw
    exact transition_of_wait hc hphase hcur hstep
  have hexit : ∀ {e : Event}, e.core < n →
      (m.exitCaller e.core).bind (fun t =>
        threadExitCode m t (m.task t) e) = some m' →
      Transition pf n m e m' := by
    intro e hc h
    obtain ⟨t, ht, hstep⟩ := Option.bind_eq_some_iff.mp h
    obtain ⟨hexit, hcur⟩ := exitCaller_eq_some.mp ht
    exact transition_of_exit hc hexit hcur hstep
  cases e with
  | kernel l =>
      simp only [act] at hstep
      split_ifs at hstep with hallowed
      obtain ⟨s, hs, rfl⟩ := Option.map_eq_some_iff.mp hstep
      exact .kernel hallowed ((if_pos hc).trans hs)
  | create core entry arg cr3 =>
      simp only [act] at hstep
      split_ifs at hstep with hother
      obtain ⟨⟨id, m₁⟩, hcreate, rfl⟩ := Option.map_eq_some_iff.mp hstep
      obtain ⟨s, hs, rfl⟩ := createThread_eq_some hcreate
      exact .create hc hother.2 hs
  | enterWait core cell =>
      exact hwait hc hstep
  | spawn core entry arg cr3 =>
      exact hwait hc hstep
  | spawnFails core =>
      exact hwait hc hstep
  | poll core =>
      exact hwait hc hstep
  | yield core =>
      exact hwait hc hstep
  | exitIndex core masked code =>
      exact hexit hc hstep
  | exitRead core =>
      exact hexit hc hstep
  | exitWrite core =>
      exact hexit hc hstep
  | exitMark core =>
      exact hexit hc hstep

end Inversion

/-- What `thread_create_ex` does to the slots and to the cores. -/
structure Created (s : System) (id : Slot) (out : Nat) (s' : System) : Prop where
  slot : firstUnused s.threads = some id
  active : (s'.threads id).state = .active
  out : (s'.threads id).exitCodeOut = out
  others : ∀ t, t ≠ id → s'.threads t = s.threads t
  codes : s'.exitCodes = s.exitCodes
  current : s'.currentThread = s.currentThread
  phase : s'.phase = s.phase

theorem created_of_ok
    (h : threadCreateEx pf s entry arg cr3 out = .ok (id, s')) :
    Created s id out s' := by
  obtain ⟨stack, heap, hslot, _, _, rfl⟩ := threadCreateEx_eq_ok h
  have hself : update s.threads id (newThread stack cr3 out) id =
      newThread stack cr3 out := update_self _ _ _
  exact
    { slot := hslot
      active := congrArg Thread.state hself
      out := congrArg Thread.exitCodeOut hself
      others := fun t ht => update_of_ne ht _ _
      codes := rfl
      current := rfl
      phase := rfl }

/-- An `ACTIVE` slot is not the one that gets the new thread. -/
theorem Created.ne_of_active
    (h : Created s id out s') (ht : (s.threads t).state = .active) : t ≠ id := by
  rintro rfl
  rw [firstUnused_unused h.slot] at ht
  cases ht

/-- No slot gains or loses its thread, and no exit code moves. -/
structure KeepsSlots (s s' : System) : Prop where
  active :
    ∀ t, (s'.threads t).state = .active ↔ (s.threads t).state = .active
  out : ∀ t, (s'.threads t).exitCodeOut = (s.threads t).exitCodeOut
  codes : s'.exitCodes = s.exitCodes

section Slots

theorem KeepsSlots.of_threads
    (hthreads : ∀ t, (s'.threads t).state = (s.threads t).state ∧
      (s'.threads t).exitCodeOut = (s.threads t).exitCodeOut)
    (hcodes : s'.exitCodes = s.exitCodes) : KeepsSlots s s' :=
  ⟨fun t => by rw [(hthreads t).1], fun t => (hthreads t).2, hcodes⟩

theorem KeepsSlots.trans
    {s'' : System} (h : KeepsSlots s s') (h' : KeepsSlots s' s'') : KeepsSlots s s'' :=
  ⟨fun t => (h'.active t).trans (h.active t), fun t => (h'.out t).trans (h.out t),
    h'.codes.trans h.codes⟩

/-- One slot changes, but neither its state nor its pointer. -/
theorem KeepsSlots.of_update
    {th : Thread} (hthreads : s'.threads = update s.threads t th)
    (hstate : th.state = (s.threads t).state)
    (hout : th.exitCodeOut = (s.threads t).exitCodeOut)
    (hcodes : s'.exitCodes = s.exitCodes) : KeepsSlots s s' := by
  refine .of_threads ?_ hcodes
  intro u
  rw [hthreads]
  by_cases hu : u = t
  · subst hu
    rw [update_self]
    exact ⟨hstate, hout⟩
  · rw [update_of_ne hu]
    exact ⟨rfl, rfl⟩

theorem keepsSlots_claim
    (s : System) (core : Nat) (next : Slot) : KeepsSlots s (claim s core next) :=
  .of_update rfl rfl rfl rfl

theorem keepsSlots_retire
    {prev : Slot} (hz : (s.threads prev).state = .zombie) :
    KeepsSlots s (retire s prev) := by
  refine ⟨?_, ?_, rfl⟩
  · intro t
    show (update s.threads prev _ t).state = _ ↔ _
    by_cases ht : t = prev
    · subst ht
      rw [update_self, hz]
      exact ⟨nofun, nofun⟩
    · rw [update_of_ne ht]
  · intro t
    show (update s.threads prev _ t).exitCodeOut = _
    by_cases ht : t = prev
    · subst ht
      rw [update_self]
      rfl
    · rw [update_of_ne ht]

/-- `schedule` retires at most a thread that has exited. -/
theorem keepsSlots_switchUnderLock
    (s : System) (core : Nat) (next : Slot) :
    KeepsSlots s (switchUnderLock s core next) := by
  have hclaim := keepsSlots_claim s core next
  cases hcur : s.currentThread core with
  | none =>
      rw [switchUnderLock_of_none hcur]
      exact ⟨hclaim.active, hclaim.out, hclaim.codes⟩
  | some prev =>
      simp only [switchUnderLock, hcur]
      by_cases hz : (s.threads prev).state = .zombie
      · have hz' : ((claim s core next).threads prev).state = .zombie := by
          simp only [claim, update_apply]
          split_ifs with hne
          · rw [← hne]
            exact hz
          · exact hz
        have hboth := hclaim.trans (keepsSlots_retire hz')
        rw [if_pos hz]
        exact ⟨hboth.active, hboth.out, hboth.codes⟩
      · rw [if_neg hz]
        exact ⟨hclaim.active, hclaim.out, hclaim.codes⟩

/-- A step of the scheduler that neither creates nor ends a thread. -/
def reschedules : Label → Bool
  | .create _ _ _ _ _ => false
  | .exit _ _ => false
  | _ => true

theorem reschedules_of_allowed
    (hallowed : allowed m l = true) : reschedules l = true := by
  cases l <;> first | rfl | exact hallowed

/-- The scheduler's own steps keep the slots. -/
theorem keepsSlots_of_step
    (hl : reschedules l = true) (hstep : Scheduler.step pf n s l = some s') :
    KeepsSlots s s' := by
  have hrefl : ∀ {s s' : System}, s'.threads = s.threads →
      s'.exitCodes = s.exitCodes → KeepsSlots s s' :=
    fun hthreads hcodes => .of_threads (fun t => by rw [hthreads]; exact ⟨rfl, rfl⟩) hcodes
  cases move_of_step hstep with
  | create _ _ _ =>
      cases hl
  | stay _ _ =>
      exact hrefl rfl rfl
  | switch _ _ _ =>
      exact keepsSlots_switchUnderLock _ _ _
  | @start core first _ _ _ =>
      have hclaim := keepsSlots_claim s core first
      exact ⟨hclaim.active, hclaim.out, hclaim.codes⟩
  | exit _ _ _ _ =>
      cases hl
  | reapStack _ _ =>
      exact hrefl rfl rfl
  | readDiscard _ _ =>
      exact hrefl rfl rfl
  | readRelease _ _ =>
      exact hrefl rfl rfl
  | saveRsp _ _ =>
      exact .of_update rfl rfl rfl rfl
  | clearFlag _ _ =>
      exact .of_update rfl rfl rfl rfl
  | switchTo _ _ =>
      exact hrefl rfl rfl
  | kmalloc _ _ _ =>
      exact hrefl rfl rfl
  | kfree _ _ =>
      exact hrefl rfl rfl

end Slots

end Process
end RebornOS
