import RebornOS.SchedulerBypass

/-!
# The hand-off from `kmain` to the scheduler

The last calls of `kmain` create the boot-time threads, install `schedule` as the
callback of the timer, tell the application processors to join, and enter
`scheduler_start`.  The timer has been running since `timer_init`, so a tick can
arrive between any two of these calls.

`schedule` treats a core without a current thread as one whose context is not
needed any more.  If it switches before `smp_signal_scheduler_ready` was called,
nobody is left to call it, and the other cores wait in `ap_entry` for ever.
-/

namespace RebornOS

namespace Scheduler

open Function

section Scheduling

variable {n c : Nat} {s : System} {t : Slot}

/-- A ready thread and the idle thread of a core make two threads. -/
theorem Inv.one_lt_activeCount
    (h : Inv n n s) (hn : 0 < n) (hready : (s.threads t).Ready) :
    1 < s.activeCount := by
  obtain ⟨i, _, hidle, hactive, _⟩ := h.idle 0 hn
  have hne : i ≠ t := by
    rintro rfl
    rw [hready.2.2] at hidle
    cases hidle
  have ht : (s.threads t).state ≠ .unused := by
    rw [hready.1]
    decide
  -- without `t` the idle thread is still in use
  have hcount : usedCount s.threads =
      usedCount (update s.threads t (s.threads t).retired) + 1 :=
    usedCount_retire ht rfl
  have hrest : 0 < usedCount (update s.threads t (s.threads t).retired) := by
    refine FiniteCount.count_pos_iff.mpr ⟨i.val, i.isLt, ?_⟩
    rw [inUse_val, update_of_ne hne, hactive]
    decide
  rw [h.count]
  omega

/-- While a thread is ready, `schedule` switches to a thread. -/
theorem Inv.decision_of_ready
    (h : Inv n n s) (hn : 0 < n) (hready : (s.threads t).Ready) :
    ∃ next, scheduleDecision s c = .switchTo (some next) := by
  have hactive := h.one_lt_activeCount hn hready
  cases hscan : nextReadyAfter s.threads (s.currentThread c) with
  | none =>
      exact absurd hscan (nextReadyAfter_ne_none hready)
  | some next =>
      refine ⟨next, ?_⟩
      rw [scheduleDecision, if_neg (by omega), hscan]

end Scheduling

end Scheduler

namespace HandOff

open Scheduler LabeledRun Function

variable {l : Label}

/-- The calls of `kmain` from the first thread on. -/
inductive BootCall where
  /-- `thread_create`, `thread_create_process` or `process_spawn`. -/
  | create (entry arg cr3 : Nat)
  | kmalloc (size : Nat)
  | kfree (ptr : Nat)
  /-- `timer_set_tick_callback(schedule)`. -/
  | setTickCallback
  /-- `smp_signal_scheduler_ready()`. -/
  | signalSchedulerReady
  /-- `scheduler_start()`. -/
  | start
deriving DecidableEq

namespace BootCall

/-- The calls that come before the hand-off proper. -/
def prepares : BootCall → Bool
  | create _ _ _ => true
  | kmalloc _ => true
  | kfree _ => true
  | _ => false

def creates : BootCall → Bool
  | create _ _ _ => true
  | _ => false

end BootCall

/-- The scheduler, the timer and the flag, with what `kmain` still has to call. -/
structure Kmain where
  sys : System
  tickCount : Nat
  /-- `tick_callback` is `schedule`, not `NULL`. -/
  tickCallback : Bool
  schedulerReady : Bool
  todo : List BootCall

/-- What can happen next. -/
inductive Event where
  /-- The boot core executes the next call of `kmain`. -/
  | call
  /-- A timer interrupt on the boot core. -/
  | tick
  /-- A core that has left its boot code, or leaves `ap_entry`. -/
  | kernel (l : Label)
deriving DecidableEq

/-- A step of the scheduler model. -/
def Kmain.sched (pf : Platform) (n : Nat) (k : Kmain) (l : Label) : Option Kmain :=
  (Scheduler.step pf n k.sys l).map (fun s => { k with sys := s })

/-- `timer_irq_handler`. -/
def timerIrqHandler (pf : Platform) (n : Nat) (k : Kmain) : Option Kmain :=
  let k := { k with tickCount := k.tickCount + 1 }
  if k.tickCallback then k.sched pf n (.schedule 0) else some k

/-- One call of `kmain`. -/
def bootCall (pf : Platform) (n : Nat) (k : Kmain) : BootCall → Option Kmain
  | .create entry arg cr3 => k.sched pf n (.create 0 entry arg cr3 0)
  | .kmalloc size => k.sched pf n (.kmalloc 0 size)
  | .kfree ptr => k.sched pf n (.kfree 0 ptr)
  | .setTickCallback => some { k with tickCallback := true }
  | .signalSchedulerReady => some { k with schedulerReady := true }
  | .start => k.sched pf n (.start 0)

/--
The boot core takes part in the scheduler once it has left `kmain`.  The others
spin in `ap_entry` until the flag is set and then call `scheduler_start`.
-/
def mayStep (k : Kmain) (l : Label) : Prop :=
  k.sys.phase l.core ≠ .boot ∨
    (l = .start l.core ∧ l.core ≠ 0 ∧ k.schedulerReady = true)

instance (k : Kmain) (l : Label) : Decidable (mayStep k l) :=
  inferInstanceAs (Decidable (_ ∨ _))

def step (pf : Platform) (n : Nat) (k : Kmain) : Event → Option Kmain
  | .call =>
      match k.todo with
      | [] => none
      | c :: rest =>
          if k.sys.phase 0 = .boot then
            bootCall pf n { k with todo := rest } c
          else
            none
  | .tick =>
      if (k.sys.phase 0).canCall then timerIrqHandler pf n k else none
  | .kernel l => if mayStep k l then k.sched pf n l else none

/-- `kmain` after `scheduler_create_idle_threads`. -/
def handOff (s : System) (ticks : Nat) (prepare : List BootCall) : Kmain where
  sys := s
  tickCount := ticks
  tickCallback := false
  schedulerReady := false
  todo := prepare ++ [.setTickCallback, .signalSchedulerReady, .start]

/-- The boot context is gone and nobody will set the flag. -/
def Stranded (k : Kmain) : Prop :=
  k.sys.currentThread 0 ≠ none ∧ k.schedulerReady = false

instance (k : Kmain) : Decidable (Stranded k) :=
  inferInstanceAs (Decidable (_ ∧ _))

/-- Between `timer_set_tick_callback` and `smp_signal_scheduler_ready`. -/
def InWindow (k : Kmain) : Prop :=
  k.tickCallback = true ∧ k.schedulerReady = false

instance (k : Kmain) : Decidable (InWindow k) :=
  inferInstanceAs (Decidable (_ ∧ _))

/-- How far `kmain` has come, as long as nothing went wrong. -/
inductive Progress (k : Kmain) : Prop
  | preparing {calls : List BootCall}
      (hready : k.schedulerReady = false) (hcallback : k.tickCallback = false)
      (htodo : k.todo =
        calls ++ [.setTickCallback, .signalSchedulerReady, .start])
      (hcalls : calls.all BootCall.prepares = true)
      (hthread : calls.any BootCall.creates = true ∨
        ∃ t, (k.sys.threads t).Ready)
  | window
      (hready : k.schedulerReady = false) (hcallback : k.tickCallback = true)
      (htodo : k.todo = [.signalSchedulerReady, .start])
      (hthread : ∃ t, (k.sys.threads t).Ready)
  | signalled
      (hready : k.schedulerReady = true)

/-- No core has a thread before the flag is set. -/
structure OnTrack (n : Nat) (k : Kmain) : Prop where
  inv : Inv n n k.sys
  waiting :
    k.schedulerReady = false → ∀ c, c < n → k.sys.currentThread c = none
  progress : Progress k

section Steps

variable {pf : Platform} {n : Nat} {k k' : Kmain}

theorem sched_eq_some :
    k.sched pf n l = some k' ↔
      ∃ s, Scheduler.step pf n k.sys l = some s ∧ { k with sys := s } = k' :=
  Option.map_eq_some_iff

theorem OnTrack.not_stranded
    (h : OnTrack n k) (hn : 0 < n) : ¬ Stranded k :=
  fun hstranded => hstranded.1 (h.waiting hstranded.2 0 hn)

/-- Once the flag is set, every step of the scheduler is fine. -/
theorem OnTrack.sched_of_ready
    (h : OnTrack n k) (hready : k.schedulerReady = true)
    (hstep : k.sched pf n l = some k') : OnTrack n k' := by
  obtain ⟨s, hs, rfl⟩ := sched_eq_some.mp hstep
  refine ⟨step_preserves h.inv hs, ?_, .signalled hready⟩
  intro hnot
  rw [hready] at hnot
  cases hnot

/-- A call that only prepares changes no core and takes no thread away. -/
theorem prepare_effect
    {c : BootCall}
    (hcall : bootCall pf n k c = some k') (h : Inv n n k.sys)
    (hc : c.prepares = true) :
    ∃ s, k' = { k with sys := s } ∧ Inv n n s ∧
      s.currentThread = k.sys.currentThread ∧
      ((c.creates = true ∨ ∃ t, (k.sys.threads t).Ready) →
        ∃ t, (s.threads t).Ready) := by
  cases c with
  | create entry arg cr3 =>
      obtain ⟨s, hs, rfl⟩ := sched_eq_some.mp hcall
      refine ⟨s, rfl, step_preserves h hs, ?_⟩
      cases move_of_step hs with
      | @create _ _ _ _ _ id _ _ _ hcreate =>
          obtain ⟨stack, heap, _, _, _, rfl⟩ := threadCreateEx_eq_ok hcreate
          refine ⟨rfl, fun _ => ⟨id, ?_⟩⟩
          show (update k.sys.threads id (newThread stack cr3 0) id).Ready
          rw [update_self]
          exact ⟨rfl, rfl, rfl⟩
  | kmalloc size =>
      obtain ⟨s, hs, rfl⟩ := sched_eq_some.mp hcall
      refine ⟨s, rfl, step_preserves h hs, ?_⟩
      cases move_of_step hs with
      | kmalloc _ _ _ =>
          exact ⟨rfl, fun hthread => hthread.resolve_left nofun⟩
  | kfree ptr =>
      obtain ⟨s, hs, rfl⟩ := sched_eq_some.mp hcall
      refine ⟨s, rfl, step_preserves h hs, ?_⟩
      cases move_of_step hs with
      | kfree _ _ =>
          exact ⟨rfl, fun hthread => hthread.resolve_left nofun⟩
  | setTickCallback | signalSchedulerReady | start =>
      cases hc

theorem OnTrack.bootCall_of_ready
    {c : BootCall}
    (h : OnTrack n k) (hready : k.schedulerReady = true)
    (hcall : bootCall pf n k c = some k') : OnTrack n k' := by
  have hflag : k.schedulerReady ≠ false := by
    rw [hready]
    decide
  cases c with
  | create _ _ _ | kmalloc _ | kfree _ | start =>
      exact h.sched_of_ready hready hcall
  | setTickCallback =>
      cases hcall
      exact ⟨h.inv, fun hnot => absurd hnot hflag, .signalled hready⟩
  | signalSchedulerReady =>
      cases hcall
      exact ⟨h.inv, nofun, .signalled rfl⟩

/-- No call of `kmain` strands the other cores. -/
theorem OnTrack.call
    (h : OnTrack n k) (hstep : step pf n k .call = some k') : OnTrack n k' := by
  simp only [step] at hstep
  cases h.progress with
  | @preparing calls hready hcallback htodo hcalls hthread =>
      cases calls with
      | nil =>
          rw [htodo] at hstep
          simp only [List.nil_append] at hstep
          split_ifs at hstep
          cases hstep
          exact ⟨h.inv, h.waiting, .window hready rfl rfl (hthread.resolve_left nofun)⟩
      | cons c calls =>
          rw [htodo] at hstep
          simp only [List.cons_append] at hstep
          split_ifs at hstep
          simp only [List.all_cons, Bool.and_eq_true] at hcalls
          simp only [List.any_cons, Bool.or_eq_true] at hthread
          obtain ⟨s, rfl, hinv, hcur, hkeeps⟩ := prepare_effect hstep h.inv hcalls.1
          refine ⟨hinv, ?_, .preparing hready hcallback rfl hcalls.2 ?_⟩
          · intro hnot c hc
            rw [hcur]
            exact h.waiting hnot c hc
          · rcases hthread with (hnew | hlater) | hold
            · exact Or.inr (hkeeps (Or.inl hnew))
            · exact Or.inl hlater
            · exact Or.inr (hkeeps (Or.inr hold))
  | window hready hcallback htodo hthread =>
      rw [htodo] at hstep
      simp only at hstep
      split_ifs at hstep
      cases hstep
      exact ⟨h.inv, nofun, .signalled rfl⟩
  | signalled hready =>
      cases htodo : k.todo with
      | nil =>
          rw [htodo] at hstep
          cases hstep
      | cons c rest =>
          rw [htodo] at hstep
          simp only at hstep
          split_ifs at hstep
          have hrest : OnTrack n { k with todo := rest } :=
            ⟨h.inv, h.waiting, .signalled hready⟩
          exact hrest.bootCall_of_ready hready hstep

/-- Neither does a core that has joined. -/
theorem OnTrack.kernel
    (h : OnTrack n k) (hstep : step pf n k (.kernel l) = some k') : OnTrack n k' := by
  simp only [step] at hstep
  split_ifs at hstep with hmay
  refine h.sched_of_ready ?_ hstep
  rcases hmay with hphase | ⟨_, _, hready⟩
  · -- a core that has left its boot code has a thread
    by_contra hnot
    obtain ⟨s, hs, _⟩ := sched_eq_some.mp hstep
    have hc : l.core < n := by
      by_contra hge
      rw [Scheduler.step, if_neg hge] at hs
      cases hs
    have hcur := h.waiting (Bool.eq_false_iff.mpr hnot) l.core hc
    exact hphase ((h.inv.boot l.core hc).mpr hcur)
  · exact hready

theorem step_tick
    (hstep : step pf n k .tick = some k') :
    (k.tickCallback = false ∧ k' = { k with tickCount := k.tickCount + 1 }) ∨
      (k.tickCallback = true ∧
        { k with tickCount := k.tickCount + 1 }.sched pf n (.schedule 0) = some k') := by
  simp only [step] at hstep
  split_ifs at hstep
  unfold timerIrqHandler at hstep
  cases hcallback : k.tickCallback with
  | false =>
      simp only [hcallback] at hstep
      cases hstep
      exact Or.inl ⟨rfl, rfl⟩
  | true =>
      simp only [hcallback, if_true] at hstep
      exact Or.inr ⟨rfl, hstep⟩

/-- A tick outside the window is harmless. -/
theorem OnTrack.tick_outside
    (h : OnTrack n k) (hout : ¬ InWindow k)
    (hstep : step pf n k .tick = some k') : OnTrack n k' := by
  have hcounted : OnTrack n { k with tickCount := k.tickCount + 1 } := by
    refine ⟨h.inv, h.waiting, ?_⟩
    cases h.progress with
    | preparing hready hcallback htodo hcalls hthread =>
        exact .preparing hready hcallback htodo hcalls hthread
    | window hready hcallback htodo hthread =>
        exact .window hready hcallback htodo hthread
    | signalled hready =>
        exact .signalled hready
  rcases step_tick hstep with ⟨_, rfl⟩ | ⟨hcallback, hsched⟩
  · exact hcounted
  · have hready : k.schedulerReady = true := by
      by_contra hnot
      exact hout ⟨hcallback, Bool.eq_false_iff.mpr hnot⟩
    exact hcounted.sched_of_ready hready hsched

/-- A tick inside the window strands them. -/
theorem OnTrack.tick_inside
    (h : OnTrack n k) (hn : 0 < n) (hin : InWindow k)
    (hstep : step pf n k .tick = some k') : Stranded k' := by
  obtain ⟨hcallback, hnot⟩ := hin
  have hthread : ∃ t, (k.sys.threads t).Ready := by
    cases h.progress with
    | preparing _ hnone _ _ _ =>
        rw [hcallback] at hnone
        cases hnone
    | window _ _ _ hthread =>
        exact hthread
    | signalled hready =>
        rw [hnot] at hready
        cases hready
  obtain ⟨t, ht⟩ := hthread
  obtain ⟨next, hnext⟩ := h.inv.decision_of_ready (c := 0) hn ht
  rcases step_tick hstep with ⟨hnone, _⟩ | ⟨_, hsched⟩
  · rw [hcallback] at hnone
    cases hnone
  · obtain ⟨s, hs, rfl⟩ := sched_eq_some.mp hsched
    refine ⟨?_, hnot⟩
    cases move_of_step hs with
    | stay _ hstay =>
        rw [hnext] at hstay
        cases hstay
    | switch hc _ hdecide =>
        show (switchUnderLock k.sys 0 _).currentThread 0 ≠ none
        rw [(h.inv.switched hc hdecide).2.current, update_self]
        exact Option.some_ne_none _

/-- A core that has a thread keeps having one. -/
theorem current_ne_none_of_step
    {s s' : System} {c : Nat} (hinv : Inv n n s)
    (hstep : Scheduler.step pf n s l = some s') (hcur : s.currentThread c ≠ none) :
    s'.currentThread c ≠ none := by
  have hupdate : ∀ core next,
      update s.currentThread core (some next) c ≠ none := by
    intro core next
    rw [update_apply]
    split_ifs
    · exact Option.some_ne_none next
    · exact hcur
  cases move_of_step hstep with
  | create _ _ hcreate =>
      obtain ⟨stack, heap, _, _, _, rfl⟩ := threadCreateEx_eq_ok hcreate
      exact hcur
  | switch hc _ hdecide =>
      rw [(hinv.switched hc hdecide).2.current]
      exact hupdate _ _
  | start hc hphase hchoice =>
      rw [(hinv.switched_start hc hphase hchoice).2.current]
      exact hupdate _ _
  | stay _ _ | exit _ _ _ _ | reapStack _ _ | readDiscard _ _ | readRelease _ _
  | saveRsp _ _ | clearFlag _ _ | switchTo _ _ | kmalloc _ _ _ | kfree _ _ =>
      exact hcur

/-- The ownership invariant of the scheduler holds whatever happens. -/
theorem inv_step
    {e : Event}
    (hinv : Inv n n k.sys) (hstep : step pf n k e = some k') : Inv n n k'.sys := by
  have hsched : ∀ {k : Kmain} {l : Label}, Inv n n k.sys →
      k.sched pf n l = some k' → Inv n n k'.sys := by
    intro k l hinv hk
    obtain ⟨s, hs, rfl⟩ := sched_eq_some.mp hk
    exact step_preserves hinv hs
  cases e with
  | call =>
      simp only [step] at hstep
      split at hstep
      · cases hstep
      · rename_i c rest _
        split_ifs at hstep
        cases c with
        | create _ _ _ | kmalloc _ | kfree _ | start =>
            exact hsched (k := { k with todo := rest }) hinv hstep
        | setTickCallback | signalSchedulerReady =>
            cases hstep
            exact hinv
  | tick =>
      rcases step_tick hstep with ⟨_, rfl⟩ | ⟨_, hk⟩
      · exact hinv
      · exact hsched (k := { k with tickCount := k.tickCount + 1 }) hinv hk
  | kernel l =>
      simp only [step] at hstep
      split_ifs at hstep
      exact hsched hinv hstep

/-- Nobody sets the flag any more. -/
theorem Stranded.step
    {e : Event}
    (h : Stranded k) (hinv : Inv n n k.sys) (hn : 0 < n)
    (hstep : HandOff.step pf n k e = some k') : Stranded k' := by
  have hsched : ∀ {k : Kmain} {l : Label}, Stranded k → Inv n n k.sys →
      k.sched pf n l = some k' → Stranded k' := by
    intro k l h hinv hk
    obtain ⟨s, hs, rfl⟩ := sched_eq_some.mp hk
    exact ⟨current_ne_none_of_step hinv hs h.1, h.2⟩
  cases e with
  | call =>
      -- `kmain` does not go on
      simp only [HandOff.step] at hstep
      split at hstep
      · cases hstep
      · split_ifs at hstep with hphase
        exact absurd ((hinv.boot 0 hn).mp hphase) h.1
  | tick =>
      rcases step_tick hstep with ⟨_, rfl⟩ | ⟨_, hk⟩
      · exact h
      · exact hsched (k := { k with tickCount := k.tickCount + 1 }) h hinv hk
  | kernel l =>
      simp only [HandOff.step] at hstep
      split_ifs at hstep
      exact hsched h hinv hstep

/-- The state lasts: the other cores wait for ever. -/
theorem Stranded.run
    {events : List Event}
    (h : Stranded k) (hinv : Inv n n k.sys) (hn : 0 < n)
    (hrun : runAll (HandOff.step pf n) k events = some k') : Stranded k' :=
  (runAll_invariant (P := fun k => Inv n n k.sys ∧ Stranded k)
    (fun _ _ _ hk hstep => ⟨inv_step hk.1 hstep, hk.2.step hk.1 hn hstep⟩)
    ⟨hinv, h⟩ hrun).2

end Steps

theorem onTrack_handOff
    {pf : Platform} {n : Nat} {s₀ s₁ : System} {prepare : List BootCall}
    (ticks : Nat) (hboot : boot pf n s₀ = .ok s₁)
    (hprepare : prepare.all BootCall.prepares = true)
    (hcreate : prepare.any BootCall.creates = true) :
    OnTrack n (handOff s₁ ticks prepare) := by
  refine ⟨inv_boot hboot, ?_, .preparing rfl rfl rfl hprepare (Or.inl hcreate)⟩
  intro _ c hc
  refine ((inv_boot hboot).boot c hc).mp ?_
  show s₁.phase c = .boot
  rw [phase_of_boot hboot]

/--
**The hand-off.**  Whatever `kmain` creates before it, in every interleaving the
boot core has a thread while `scheduler_ready` is still 0 exactly if a timer tick
arrives between `timer_set_tick_callback` and `smp_signal_scheduler_ready`.
-/
theorem hand_off_safe_iff
    (pf : Platform) (n ticks : Nat) (s₀ s₁ : System)
    (prepare : List BootCall) (events : List Event)
    (hn : 0 < n) (hboot : boot pf n s₀ = .ok s₁)
    (hprepare : prepare.all BootCall.prepares = true)
    (hcreate : prepare.any BootCall.creates = true) :
    EveryStep (step pf n) (fun _ _ k => ¬ Stranded k)
        (handOff s₁ ticks prepare) events ↔
      EveryStep (step pf n) (fun k e _ => ¬ (e = .tick ∧ InWindow k))
        (handOff s₁ ticks prepare) events := by
  refine everyStep_iff (I := OnTrack n) ?_ ?_ events
    (onTrack_handOff ticks hboot hprepare hcreate)
  · intro k e k' h hstep hsafe
    cases e with
    | call =>
        exact h.call hstep
    | tick =>
        refine h.tick_outside ?_ hstep
        exact fun hin => hsafe (h.tick_inside hn hin hstep)
    | kernel l =>
        exact h.kernel hstep
  · intro k e k' h hstep
    cases e with
    | call =>
        exact iff_of_true ((h.call hstep).not_stranded hn) nofun
    | tick =>
        constructor
        · rintro hsafe ⟨_, hin⟩
          exact hsafe (h.tick_inside hn hin hstep)
        · intro hout
          exact (h.tick_outside (fun hin => hout ⟨rfl, hin⟩) hstep).not_stranded hn
    | kernel l =>
        exact iff_of_true ((h.kernel hstep).not_stranded hn) nofun

/-- One thread is created, and the tick comes right after the callback is set. -/
theorem tick_in_window_strands :
    ∃ s₁ k,
      boot somePlatform 2 zeroed = .ok s₁ ∧
        runAll (step somePlatform 2)
          (handOff s₁ 0 [.create 0x100300 0 0x2000]) [.call, .call, .tick] = some k ∧
        Stranded k ∧
        ∀ events k',
          runAll (step somePlatform 2) k events = some k' →
            Stranded k' := by
  have hfinal :
      (boot somePlatform 2 zeroed).toOption.any (fun s₁ =>
        (runAll (step somePlatform 2)
          (handOff s₁ 0 [.create 0x100300 0 0x2000]) [.call, .call, .tick]).any
            (fun k => Stranded k)) := by
    decide
  obtain ⟨s₁, hboot, hspec⟩ := Fallible.any_toOption.mp hfinal
  obtain ⟨k, hrun, hstranded⟩ := (Option.any_eq_true _ _).mp hspec
  have hinv : Inv 2 2 k.sys :=
    runAll_invariant (P := fun k : Kmain => Inv 2 2 k.sys)
      (fun _ _ _ h hstep => inv_step h hstep) (inv_boot hboot) hrun
  have hnow : Stranded k := of_decide_eq_true hstranded
  exact ⟨s₁, k, hboot, hrun, hnow, fun _ _ => hnow.run hinv (by decide)⟩

/-- Ticks before and after the window, and the other core joins. -/
def safeHandOff : List Event :=
  [.tick, .call, .tick, .call, .call, .tick, .kernel (.start 1),
    .kernel (.readRsp 0), .kernel (.switchTo 0)]

theorem hand_off_safe_two_cores :
    ∃ s₁ k,
      boot somePlatform 2 zeroed = .ok s₁ ∧
        runAll (step somePlatform 2)
          (handOff s₁ 0 [.create 0x100300 0 0x2000]) safeHandOff = some k ∧
        k.sys.currentThread 0 ≠ none ∧ k.sys.currentThread 1 ≠ none ∧
        EveryStep (step somePlatform 2) (fun _ _ k => ¬ Stranded k)
          (handOff s₁ 0 [.create 0x100300 0 0x2000]) safeHandOff := by
  have hfinal :
      (boot somePlatform 2 zeroed).toOption.any (fun s₁ =>
        EveryStep (step somePlatform 2)
            (fun k e _ => ¬ (e = .tick ∧ InWindow k))
            (handOff s₁ 0 [.create 0x100300 0 0x2000]) safeHandOff ∧
          (runAll (step somePlatform 2)
            (handOff s₁ 0 [.create 0x100300 0 0x2000]) safeHandOff).any (fun k =>
              k.sys.currentThread 0 ≠ none ∧ k.sys.currentThread 1 ≠ none)) := by
    decide
  obtain ⟨s₁, hboot, hspec⟩ := Fallible.any_toOption.mp hfinal
  obtain ⟨hevery, hend⟩ := of_decide_eq_true hspec
  obtain ⟨k, hrun, hjoined⟩ := (Option.any_eq_true _ _).mp hend
  obtain ⟨hzero, hone⟩ := of_decide_eq_true hjoined
  exact ⟨s₁, k, hboot, hrun, hzero, hone,
    (hand_off_safe_iff _ 2 0 zeroed s₁ _ _ (by decide) hboot (by decide)
      (by decide)).mpr hevery⟩

end HandOff
end RebornOS
