import RebornOS.SchedulerInvariant
import RebornOS.Fallible

/-!
# Every run of the scheduler

The choices of `schedule` and `scheduler_start` are safe under the ownership
invariant: the slot they name exists, is `ACTIVE`, and is held by no core.  The
ready scan checks this; the idle fallback does not, and is safe because a core
that falls back holds no other thread, so nobody holds its idle thread.

Every step therefore preserves the invariant, and it holds in every state
reachable from `scheduler_init` and `scheduler_create_idle_threads`.
-/

namespace RebornOS
namespace Scheduler

open LabeledRun FiniteCount Function Fallible

variable {threads : Slot → Thread} {arg c cr3 entry exitCodeOut n : Nat}
  {first id next t : Slot} {l : Label} {pf : Platform} {s s' : System}

section Scans

/-- The ready scan returns only ready slots. -/
theorem nextReadyAfter_ready
    {start : Option Slot} (h : nextReadyAfter threads start = some t) :
    (threads t).Ready := by
  simpa using List.find?_some h

theorem firstUnused_unused
    (h : firstUnused threads = some t) : (threads t).state = .unused := by
  simpa using List.find?_some h

/-- What a successful `thread_create_ex` has done. -/
theorem threadCreateEx_eq_ok
    (h : threadCreateEx pf s entry arg cr3 exitCodeOut = .ok (id, s')) :
    ∃ stack heap,
      firstUnused s.threads = some id ∧
        Heap.kmalloc s.heap schedulerStackSize = some (stack, heap) ∧
        stack ≠ 0 ∧
        s' =
          { s.setThread id (newThread stack cr3 exitCodeOut) with
            heap :=
              { heap with
                mem :=
                  initialFrame heap.mem (stack + schedulerStackSize)
                    pf.threadTrampoline entry arg }
            activeCount := (s.activeCount + 1) % 2 ^ 32 } := by
  unfold threadCreateEx at h
  cases hslot : firstUnused s.threads with
  | none =>
      simp [hslot] at h
  | some t =>
      cases hk : Heap.kmalloc s.heap schedulerStackSize with
      | none =>
          simp [hslot, hk] at h
      | some r =>
          obtain ⟨stack, heap⟩ := r
          simp only [hslot, hk] at h
          split_ifs at h with hstack
          simp only [Except.ok.injEq, Prod.mk.injEq] at h
          obtain ⟨rfl, rfl⟩ := h
          exact ⟨stack, heap, rfl, rfl, hstack, rfl⟩

end Scans

section Booting

variable {k : Nat}

theorem inv_schedulerInit
    (n : Nat) (s : System) : Inv n 0 (schedulerInit s) := by
  have hcount : usedCount (schedulerInit s).threads = 0 := by
    by_contra hne
    obtain ⟨i, hi, hused⟩ := count_pos_iff.mp (Nat.pos_of_ne_zero hne)
    exact (inUse_val _ ⟨i, hi⟩).mp hused rfl
  constructor <;> simp [schedulerInit, Thread.retired, Phase.pending, Phase.target]
  exact hcount.symm

theorem Inv.threadCreateEx
    (h : Inv n k s) (hc : threadCreateEx pf s entry arg cr3 exitCodeOut = .ok (id, s')) :
    Inv n k s' := by
  obtain ⟨stack, heap, hslot, _, hstack, rfl⟩ := threadCreateEx_eq_ok hc
  exact h.create (firstUnused_unused hslot) rfl rfl rfl hstack

/-- A ready thread becomes the idle thread of core `k`. -/
theorem Inv.markIdle
    (h : Inv n k s) (hactive : (s.threads id).state = .active)
    (hfree : (s.threads id).runningOnCore = none)
    (hidle : (s.threads id).isIdle = false) :
    Inv n (k + 1)
      { s.setThread id { s.threads id with isIdle := true } with
        idleTid := update s.idleTid k (some id) } := by
  have hcount : usedCount (update s.threads id
      { s.threads id with isIdle := true }) = usedCount s.threads := by
    refine usedCount_congr ?_
    intro t
    by_cases ht : t = id
    · subst ht
      simp
    · simp [ht]
  unfold System.setThread
  constructor
  · intro u d
    have hflag := h.flag u d
    grind [update_apply]
  · intro d u hd
    have hcurrent := h.current d u hd
    grind [update_apply]
  · intro d u hd
    have hstate := h.current_state d u hd
    grind [update_apply]
  · intro d u hd
    have hheld := h.pending d u hd
    grind [update_apply]
  · exact h.target
  · exact h.boot
  · intro u
    have hcore := h.zombie u
    grind [update_apply]
  · intro d hd
    by_cases hdk : d = k
    · refine ⟨id, ?_⟩
      grind [update_apply]
    · obtain ⟨i, hi⟩ := h.idle d (by omega)
      refine ⟨i, ?_⟩
      grind [update_apply]
  · intro d e i hd he
    have hsame := h.idle_injective d e i
    have hd' := h.idle d
    have he' := h.idle e
    grind [update_apply]
  · intro u hu hused
    by_cases huid : u = id
    · refine ⟨k, by omega, ?_⟩
      grind [update_apply]
    · obtain ⟨d, hd, htid⟩ := h.idle_owner u (by grind [update_apply])
        (by grind [update_apply])
      exact ⟨d, by omega, by grind [update_apply]⟩
  · intro u
    have hbase := h.stack u
    grind [update_apply]
  · exact h.count.trans hcount.symm

/-- What the loop body of `scheduler_create_idle_threads` has done. -/
theorem createIdleThread_eq_ok
    (h : createIdleThread pf s k = .ok s') :
    ∃ id s₁, Scheduler.threadCreateEx pf s pf.idleLoop 0 pf.kernelCr3 0 = .ok (id, s₁) ∧
      s' =
        { s₁.setThread id { s₁.threads id with isIdle := true } with
          idleTid := update s₁.idleTid k (some id) } := by
  unfold Scheduler.createIdleThread at h
  cases hcreate : Scheduler.threadCreateEx pf s pf.idleLoop 0 pf.kernelCr3 0 with
  | error e =>
      rw [hcreate] at h
      cases h
  | ok r =>
      rw [hcreate] at h
      cases h
      exact ⟨r.1, r.2, rfl, rfl⟩

/-- Booting is `scheduler_init` and one idle thread after the other. -/
theorem boot_induction
    {P : Nat → System → Prop}
    (hinit : P 0 (schedulerInit s))
    (hidle : ∀ k s s', P k s → createIdleThread pf s k = .ok s' → P (k + 1) s')
    (hboot : Scheduler.boot pf n s = .ok s') : P n s' := by
  have hloop : ∀ k s', schedulerCreateIdleThreads pf (schedulerInit s) k = .ok s' →
      P k s' := by
    intro k
    induction k with
    | zero =>
        intro s' h
        cases h
        exact hinit
    | succ k ih =>
        intro s' h
        obtain ⟨s₁, h₁, h₂⟩ := bind_eq_ok.mp h
        exact hidle k s₁ s' (ih s₁ h₁) h₂
  exact hloop n s' hboot

theorem Inv.createIdleThread
    (h : Inv n k s) (hc : createIdleThread pf s k = .ok s') : Inv n (k + 1) s' := by
  obtain ⟨id, s₁, hcreate, rfl⟩ := createIdleThread_eq_ok hc
  have hinv := h.threadCreateEx hcreate
  obtain ⟨stack, heap, _, _, _, rfl⟩ := threadCreateEx_eq_ok hcreate
  refine hinv.markIdle ?_ ?_ ?_ <;> simp [System.setThread, newThread]

/-- The invariant holds once every core has its idle thread. -/
theorem inv_boot
    (hboot : Scheduler.boot pf n s = .ok s') : Inv n n s' :=
  boot_induction (P := Inv n) (inv_schedulerInit n s)
    (fun _ _ _ h hc => h.createIdleThread hc) hboot

/-- Creating the idle threads moves no core. -/
theorem phase_of_boot
    (hboot : Scheduler.boot pf n s = .ok s') : s'.phase = fun _ => .boot := by
  refine boot_induction (P := fun _ s => s.phase = fun _ => .boot) rfl ?_ hboot
  intro k s s' hphase hc
  obtain ⟨id, s₁, hcreate, rfl⟩ := createIdleThread_eq_ok hc
  obtain ⟨stack, heap, _, _, _, rfl⟩ := threadCreateEx_eq_ok hcreate
  exact hphase

end Booting

section Choices

/-- A slot that core `c` may take over. -/
structure Available (s : System) (c : Nat) (t : Slot) : Prop where
  active : (s.threads t).state = .active
  free : (s.threads t).runningOnCore = none
  own_idle : (s.threads t).isIdle = true → s.idleTid c = some t

theorem available_of_ready
    (h : (s.threads t).Ready) : Available s c t :=
  ⟨h.1, h.2.1, fun hidle => by rw [h.2.2] at hidle; cases hidle⟩

/-- A core that holds no live thread can fall back to its idle thread. -/
theorem Inv.idle_available
    (h : Inv n n s) (hc : c < n) (hpending : (s.phase c).pending = none)
    (hdead : ∀ t, s.currentThread c = some t → (s.threads t).state = .zombie) :
    ∃ i, s.idleTid c = some i ∧ Available s c i := by
  obtain ⟨i, htid, _, hactive, hown⟩ := h.idle c hc
  refine ⟨i, htid, hactive, ?_, fun _ => htid⟩
  cases hrun : (s.threads i).runningOnCore with
  | none =>
      rfl
  | some d =>
      -- the flag could only name `c` itself, which holds nothing alive
      obtain ⟨_, hheld⟩ := h.flag i d hrun
      have hdc := hown d hrun
      subst hdc
      rcases hheld with hcur | hpend
      · have hz := hdead i hcur
        rw [hactive] at hz
        cases hz
      · rw [hpending] at hpend
        cases hpend

theorem Inv.phase_of_zombie
    (h : Inv n n s) (hc : c < n) (hcur : s.currentThread c = some t)
    (hz : (s.threads t).state = .zombie) : s.phase c = .exiting := by
  by_contra hphase
  have hstate := h.current_state c t hc hcur
  rw [if_neg hphase, hz] at hstate
  cases hstate

/-- The index chosen by `schedule` names a slot the core may take over. -/
theorem Inv.scheduleDecision_available
    {next : Option Slot}
    (h : Inv n n s) (hc : c < n)
    (hdecide : scheduleDecision s c = .switchTo next) :
    ∃ t, next = some t ∧ Available s c t := by
  have hgo : ¬ (¬ prevIsZombie s c ∧ s.activeCount ≤ 1) := by
    intro hstay
    rw [scheduleDecision, if_pos hstay] at hdecide
    cases hdecide
  rw [scheduleDecision, if_neg hgo] at hdecide
  cases hnext : nextReadyAfter s.threads (s.currentThread c) with
  | some t =>
      rw [hnext] at hdecide
      cases hdecide
      exact ⟨t, rfl, available_of_ready (nextReadyAfter_ready hnext)⟩
  | none =>
      simp only [hnext] at hdecide
      split_ifs at hdecide with hzombie
      cases hdecide
      obtain ⟨t, hcur, hz⟩ := hzombie
      have hphase := h.phase_of_zombie hc hcur hz
      refine h.idle_available hc (by rw [hphase]; rfl) ?_
      intro u hu
      rw [hcur] at hu
      cases hu
      exact hz

/-- The index chosen by `scheduler_start` likewise. -/
theorem Inv.startChoice_available
    (h : Inv n n s) (hc : c < n) (hphase : s.phase c = .boot) :
    ∃ t, startChoice s c = some t ∧ Available s c t := by
  unfold startChoice
  cases hnext : nextReadyAfter s.threads none with
  | some t =>
      exact ⟨t, rfl, available_of_ready (nextReadyAfter_ready hnext)⟩
  | none =>
      have hcur := (h.boot c hc).mp hphase
      refine h.idle_available hc (by rw [hphase]; rfl) ?_
      intro u hu
      rw [hcur] at hu
      cases hu

end Choices

/-- Core `c` has chosen `next` under the lock and is on its way to it. -/
structure Switched (s : System) (c : Nat) (next : Slot) (s' : System) : Prop where
  current : s'.currentThread = update s.currentThread c (some next)
  phase :
    ∃ p, s'.phase = update s.phase c p ∧
      (p = .discard next ∨ (∃ stack, p = .reap stack next) ∨
        ∃ prev, p = .release prev next)
  held : s'.threads next = (s.threads next).heldBy c
  /-- The other slots stay, except for a zombie that is retired. -/
  others :
    ∀ t, t ≠ next →
      s'.threads t = s.threads t ∨
        ((s.threads t).state = .zombie ∧ s'.threads t = (s.threads t).retired)

section Switching

/-- Without a current thread `schedule` switches as `scheduler_start` does. -/
theorem switchUnderLock_of_none
    (h : s.currentThread c = none) :
    switchUnderLock s c next =
      (loadContext (claim s c next) c next).setPhase c (.discard next) := by
  simp only [switchUnderLock, h]

theorem switched_switchUnderLock
    (hactive : (s.threads next).state = .active) :
    Switched s c next (switchUnderLock s c next) := by
  have hclaim : ∀ t, t ≠ next → (claim s c next).threads t = s.threads t :=
    fun t ht => update_of_ne ht _ _
  have hheld : (claim s c next).threads next = (s.threads next).heldBy c :=
    update_self _ _ _
  cases hcur : s.currentThread c with
  | none =>
      rw [switchUnderLock_of_none hcur]
      exact ⟨rfl, ⟨_, rfl, Or.inl rfl⟩, hheld, fun t ht => Or.inl (hclaim t ht)⟩
  | some prev =>
      simp only [switchUnderLock, hcur]
      by_cases hz : (s.threads prev).state = .zombie
      · have hne : next ≠ prev := by
          rintro rfl
          rw [hactive] at hz
          cases hz
        rw [if_pos hz]
        refine ⟨rfl, ⟨_, rfl, ?_⟩, ?_, ?_⟩
        · split_ifs
          · exact Or.inr (Or.inr ⟨prev, rfl⟩)
          · exact Or.inr (Or.inl ⟨_, rfl⟩)
        · exact (update_of_ne hne _ _).trans hheld
        · intro t ht
          by_cases htp : t = prev
          · subst htp
            refine Or.inr ⟨hz, ?_⟩
            show update (claim s c next).threads t _ t = _
            rw [update_self, hclaim t ht]
          · exact Or.inl ((update_of_ne htp _ _).trans (hclaim t ht))
      · rw [if_neg hz]
        exact ⟨rfl, ⟨_, rfl, Or.inr (Or.inr ⟨prev, rfl⟩)⟩, hheld,
          fun t ht => Or.inl (hclaim t ht)⟩

/-- The stack pointers stay. -/
theorem Switched.rsp
    (h : Switched s c next s') (t : Slot) : (s'.threads t).rsp = (s.threads t).rsp := by
  by_cases ht : t = next
  · rw [ht, h.held]
    rfl
  · rcases h.others t ht with hsame | ⟨_, hretired⟩
    · rw [hsame]
    · rw [hretired]
      rfl

/-- A slot that is free and active afterwards was so before. -/
theorem Switched.free
    (h : Switched s c next s') (hactive : (s'.threads t).state = .active)
    (hrun : (s'.threads t).runningOnCore = none) : s'.threads t = s.threads t := by
  by_cases ht : t = next
  · rw [ht, h.held] at hrun
    cases hrun
  · rcases h.others t ht with hsame | ⟨_, hretired⟩
    · exact hsame
    · rw [hretired] at hactive
      cases hactive

end Switching

/-- What the steps of the first `n` cores do to the system. -/
inductive Move (pf : Platform) (n : Nat) (s : System) : Label → System → Prop
  | create {core entry arg cr3 exitCodeOut : Nat} {id : Slot} {s' : System}
      (hc : core < n) (hphase : (s.phase core).canCall)
      (hcreate : threadCreateEx pf s entry arg cr3 exitCodeOut = .ok (id, s')) :
      Move pf n s (.create core entry arg cr3 exitCodeOut) s'
  | stay {core : Nat}
      (hc : core < n) (hdecide : scheduleDecision s core = .stay) :
      Move pf n s (.schedule core) s
  | switch {core : Nat} {next : Slot}
      (hc : core < n)
      (hphase : (s.phase core).canCall ∨ s.phase core = .exiting)
      (hdecide : scheduleDecision s core = .switchTo (some next)) :
      Move pf n s (.schedule core) (switchUnderLock s core next)
  | start {core : Nat} {first : Slot}
      (hc : core < n) (hphase : s.phase core = .boot)
      (hchoice : startChoice s core = some first) :
      Move pf n s (.start core)
        ((loadContext (claim s core first) core first).setPhase core
          (.discard first))
  | exit {core : Nat} {code : Int} {t : Slot} {exitCodes : Nat → Int}
      (hc : core < n) (hexit : mayExit s core)
      (hcur : s.currentThread core = some t)
      (hcodes : exitCodes =
        if (s.threads t).exitCodeOut = 0 then s.exitCodes
        else update s.exitCodes (s.threads t).exitCodeOut code) :
      Move pf n s (.exit core code)
        (({ s with exitCodes := exitCodes }.setThread t
          (s.threads t).exited).setPhase core .exiting)
  | reapStack {core stack : Nat} {next : Slot}
      (hc : core < n) (hphase : s.phase core = .reap stack next) :
      Move pf n s (.reapStack core)
        ({ s with heap := Heap.kfree s.heap stack }.setPhase core (.discard next))
  | readDiscard {core : Nat} {next : Slot}
      (hc : core < n) (hphase : s.phase core = .discard next) :
      Move pf n s (.readRsp core)
        (s.setPhase core (.jump next (s.threads next).rsp))
  | readRelease {core : Nat} {prev next : Slot}
      (hc : core < n) (hphase : s.phase core = .release prev next) :
      Move pf n s (.readRsp core)
        (s.setPhase core (.save prev next (s.threads next).rsp))
  | saveRsp {core rsp new : Nat} {prev next : Slot}
      (hc : core < n) (hphase : s.phase core = .save prev next new) :
      Move pf n s (.saveRsp core rsp)
        ((s.setThread prev { s.threads prev with rsp := rsp }).setPhase core
          (.clear prev next new))
  | clearFlag {core new : Nat} {prev next : Slot}
      (hc : core < n) (hphase : s.phase core = .clear prev next new) :
      Move pf n s (.clearFlag core)
        ((s.setThread prev (s.threads prev).released).setPhase core .running)
  | switchTo {core rsp : Nat} {next : Slot}
      (hc : core < n) (hphase : s.phase core = .jump next rsp) :
      Move pf n s (.switchTo core) (s.setPhase core .running)
  | kmalloc {core size p : Nat} {heap : Heap.State}
      (hc : core < n) (hphase : (s.phase core).canCall)
      (hk : Heap.kmalloc s.heap size = some (p, heap)) :
      Move pf n s (.kmalloc core size) { s with heap := heap }
  | kfree {core ptr : Nat}
      (hc : core < n) (hphase : (s.phase core).canCall) :
      Move pf n s (.kfree core ptr) { s with heap := Heap.kfree s.heap ptr }

section Steps

/-- Retiring commutes with taking over another slot. -/
theorem switch_retire_eq
    {prev : Slot} {p : Phase} (hne : next ≠ prev) :
    (loadContext (retire (claim s c next) prev) c next).setPhase c p =
      (loadContext
        (claim
          ({ retire s prev with
            currentThread := update s.currentThread c none }.setPhase
              c .boot) c next) c next).setPhase c p := by
  simp only [loadContext, retire, claim, System.setPhase, update_idem, update_of_ne hne,
    update_of_ne hne.symm, update_comm hne]

/-- The critical section of `schedule` keeps the invariant. -/
theorem Inv.switchUnderLock
    (h : Inv n n s) (hc : c < n) (hphase : (s.phase c).canCall ∨ s.phase c = .exiting)
    (hnext : Available s c next) : Inv n n (switchUnderLock s c next) := by
  cases hcur : s.currentThread c with
  | none =>
      have hboot := (h.boot c hc).mpr hcur
      simp only [Scheduler.switchUnderLock, hcur]
      exact h.switchTo hc hnext.active hnext.free hnext.own_idle (Or.inl hboot)
        hcur.symm rfl
  | some prev =>
      have hstate := h.current_state c prev hc hcur
      simp only [Scheduler.switchUnderLock, hcur]
      by_cases hz : (s.threads prev).state = .zombie
      · have hexit := h.phase_of_zombie hc hcur hz
        have hne : next ≠ prev := by
          rintro rfl
          have hactive := hnext.active
          rw [hz] at hactive
          cases hactive
        have hstack : ((claim s c next).threads prev).stackBase ≠ 0 := by
          have hslot : (claim s c next).threads prev = s.threads prev :=
            update_of_ne hne.symm _ _
          rw [hslot]
          exact h.stack prev (by rw [hz]; decide)
        rw [if_pos hz, if_neg hstack, switch_retire_eq hne]
        have hslot : (Scheduler.retire s prev).threads next = s.threads next :=
          update_of_ne hne _ _
        refine (h.retire hc hexit hcur).switchTo hc ?_ ?_ ?_ ?_ ?_ rfl
        · exact (congrArg Thread.state hslot).trans hnext.active
        · exact (congrArg Thread.runningOnCore hslot).trans hnext.free
        · intro hidle
          exact hnext.own_idle ((congrArg Thread.isIdle hslot).symm.trans hidle)
        · exact Or.inl (by simp [System.setPhase])
        · simp [System.setPhase, Phase.pending]
      · have hcan : (s.phase c).canCall := by
          refine hphase.resolve_right ?_
          intro hexit
          rw [if_pos hexit] at hstate
          exact hz hstate
        rw [if_neg hz]
        exact h.switchTo hc hnext.active hnext.free hnext.own_idle hcan
          hcur.symm rfl

theorem Inv.schedulerStart
    (h : Inv n n s) (hc : c < n) (hphase : s.phase c = .boot)
    (hchoice : startChoice s c = some first) :
    Inv n n
      ((loadContext (claim s c first) c first).setPhase c (.discard first)) := by
  obtain ⟨t, hchoice', havail⟩ := h.startChoice_available hc hphase
  rw [hchoice] at hchoice'
  cases hchoice'
  exact h.switchTo hc havail.active havail.free havail.own_idle (Or.inl hphase)
    ((h.boot c hc).mp hphase).symm rfl

/-- Every step is one of these moves. -/
theorem move_of_step
    (hstep : step pf n s l = some s') : Move pf n s l s' := by
  unfold step at hstep
  split_ifs at hstep with hc
  cases l with
  | create core entry arg cr3 exitCodeOut =>
      simp only [act] at hstep
      split_ifs at hstep with hphase
      rw [toOption_eq_some] at hstep
      cases hcreate : threadCreateEx pf s entry arg cr3 exitCodeOut with
      | error e =>
          rw [hcreate] at hstep
          cases hstep
      | ok r =>
          obtain ⟨id, s₁⟩ := r
          rw [hcreate] at hstep
          cases hstep
          exact .create hc hphase hcreate
  | schedule core =>
      simp only [act] at hstep
      split_ifs at hstep with hphase
      rw [toOption_eq_some, Scheduler.schedule] at hstep
      cases hdecide : scheduleDecision s core with
      | stay =>
          rw [hdecide] at hstep
          cases hstep
          exact .stay hc hdecide
      | switchTo next =>
          rw [hdecide] at hstep
          cases next with
          | none =>
              cases hstep
          | some next =>
              cases hstep
              exact .switch hc hphase hdecide
  | start core =>
      simp only [act] at hstep
      split_ifs at hstep with hphase
      rw [toOption_eq_some, Scheduler.schedulerStart] at hstep
      split_ifs at hstep
      cases hchoice : startChoice s core with
      | none =>
          rw [hchoice] at hstep
          cases hstep
      | some first =>
          rw [hchoice] at hstep
          cases hstep
          exact .start hc hphase hchoice
  | exit core code =>
      simp only [act] at hstep
      split_ifs at hstep with hexit
      rw [toOption_eq_some, Scheduler.threadExitCode] at hstep
      cases hcur : s.currentThread core with
      | none =>
          rw [hcur] at hstep
          cases hstep
      | some t =>
          rw [hcur] at hstep
          cases hstep
          exact .exit hc hexit hcur rfl
  | reapStack core =>
      simp only [act] at hstep
      split at hstep <;> cases hstep
      exact .reapStack hc ‹_›
  | readRsp core =>
      simp only [act] at hstep
      split at hstep <;> cases hstep
      · exact .readDiscard hc ‹_›
      · exact .readRelease hc ‹_›
  | saveRsp core rsp =>
      simp only [act] at hstep
      split at hstep <;> cases hstep
      exact .saveRsp hc ‹_›
  | clearFlag core =>
      simp only [act] at hstep
      split at hstep <;> cases hstep
      exact .clearFlag hc ‹_›
  | switchTo core =>
      simp only [act] at hstep
      split at hstep <;> cases hstep
      exact .switchTo hc ‹_›
  | kmalloc core size =>
      simp only [act] at hstep
      split_ifs at hstep with hphase
      obtain ⟨⟨p, heap⟩, hk, rfl⟩ := Option.map_eq_some_iff.mp hstep
      exact .kmalloc hc hphase hk
  | kfree core ptr =>
      simp only [act] at hstep
      split_ifs at hstep with hphase
      cases hstep
      exact .kfree hc hphase

/-- A switch by `schedule`. -/
theorem Inv.switched
    (h : Inv n n s) (hc : c < n)
    (hdecide : scheduleDecision s c = .switchTo (some next)) :
    Available s c next ∧ Switched s c next (Scheduler.switchUnderLock s c next) := by
  obtain ⟨t, hnext, havail⟩ := h.scheduleDecision_available hc hdecide
  cases hnext
  exact ⟨havail, switched_switchUnderLock havail.active⟩

/-- A switch by `scheduler_start`. -/
theorem Inv.switched_start
    (h : Inv n n s) (hc : c < n) (hphase : s.phase c = .boot)
    (hchoice : startChoice s c = some first) :
    Available s c first ∧
      Switched s c first
        ((loadContext (claim s c first) c first).setPhase c (.discard first)) := by
  obtain ⟨t, hchoice', havail⟩ := h.startChoice_available hc hphase
  rw [hchoice] at hchoice'
  cases hchoice'
  rw [← switchUnderLock_of_none ((h.boot c hc).mp hphase)]
  exact ⟨havail, switched_switchUnderLock havail.active⟩

/-- Every step of every core keeps the invariant. -/
theorem step_preserves
    (h : Inv n n s) (hstep : step pf n s l = some s') : Inv n n s' := by
  cases move_of_step hstep with
  | create _ _ hcreate =>
      exact h.threadCreateEx hcreate
  | stay _ _ =>
      exact h
  | switch hc hphase hdecide =>
      obtain ⟨t, hnext, havail⟩ := h.scheduleDecision_available hc hdecide
      cases hnext
      exact h.switchUnderLock hc hphase havail
  | start hc hphase hchoice =>
      exact h.schedulerStart hc hphase hchoice
  | exit hc hexit hcur _ =>
      exact (h.congr_memory s.heap _).exit hc hexit.1 hcur (hexit.2 _ hcur)
  | reapStack _ hphase =>
      refine (h.congr_memory _ s.exitCodes).setPhase ?_ ?_ ?_ ?_ ?_ ?_ <;>
        simp [hphase, Phase.pending, Phase.target]
  | readDiscard _ hphase =>
      refine h.setPhase ?_ ?_ ?_ ?_ ?_ ?_ <;>
        simp [hphase, Phase.pending, Phase.target]
  | readRelease _ hphase =>
      refine h.setPhase ?_ ?_ ?_ ?_ ?_ ?_ <;>
        simp [hphase, Phase.pending, Phase.target]
  | @saveRsp _ rsp _ prev _ _ hphase =>
      refine (h.setRsp prev rsp).setPhase ?_ ?_ ?_ ?_ ?_ ?_ <;>
        simp [System.setThread, hphase, Phase.pending, Phase.target]
  | clearFlag hc hphase =>
      exact h.clearFlag hc hphase
  | switchTo _ hphase =>
      refine h.setPhase ?_ ?_ ?_ ?_ ?_ ?_ <;>
        simp [hphase, Phase.pending, Phase.target]
  | kmalloc _ _ _ =>
      exact h.congr_memory _ s.exitCodes
  | kfree _ _ =>
      exact h.congr_memory _ s.exitCodes

end Steps

/-- Who owns which thread, read off the tables and the registers. -/
structure Ownership (n : Nat) (s : System) : Prop where
  /-- No slot is current on two cores. -/
  current_injective :
    ∀ c d t, c < n → d < n →
      s.currentThread c = some t → s.currentThread d = some t → c = d
  /-- The flag, `TSS.RSP0` and `CR3` belong to the current thread. -/
  current_loaded :
    ∀ c t, c < n → s.currentThread c = some t →
      (s.threads t).runningOnCore = some c ∧
        s.rsp0 c = (s.threads t).kernelStackTop ∧
        s.cr3 c = (s.threads t).cr3
  /-- A zombie is current on exactly one core. -/
  zombie_current :
    ∀ t, (s.threads t).state = .zombie →
      ∃! c, c < n ∧ s.currentThread c = some t
  /-- An idle thread is current on its own core only. -/
  idle_current :
    ∀ c t, c < n → s.currentThread c = some t →
      (s.threads t).isIdle = true →
        s.idleTid c = some t ∧ ∀ d, d < n → s.idleTid d = some t → d = c
  /-- `schedule` never switches to a slot it may not take. -/
  schedule_valid :
    ∀ c next, c < n → scheduleDecision s c = .switchTo next →
      ∃ t, next = some t ∧
        (s.threads t).state = .active ∧ (s.threads t).runningOnCore = none
  /-- Neither does `scheduler_start`, called once by a core that is booting. -/
  start_valid :
    ∀ c, c < n → s.phase c = .boot →
      ∃ t, startChoice s c = some t ∧
        (s.threads t).state = .active ∧ (s.threads t).runningOnCore = none
  /-- `active_count` is the number of slots that are not `UNUSED`. -/
  active_count : s.activeCount = usedCount s.threads

theorem Inv.ownership
    (h : Inv n n s) : Ownership n s := by
  have hinj : ∀ c d t, c < n → d < n →
      s.currentThread c = some t → s.currentThread d = some t → c = d := by
    intro c d t hc hd hct hdt
    have hflag := (h.current c t hc hct).1
    rw [(h.current d t hd hdt).1, Option.some.injEq] at hflag
    exact hflag.symm
  refine ⟨hinj, h.current, ?_, ?_, ?_, ?_, h.count⟩
  · intro t hz
    obtain ⟨c, hc, hcur⟩ := h.zombie t hz
    refine ⟨c, ⟨hc, hcur⟩, ?_⟩
    rintro d ⟨hd, hdcur⟩
    exact hinj d c t hd hc hdcur hcur
  · intro c t hc hcur hidle
    have hused : (s.threads t).state ≠ .unused := by
      rw [h.current_state c t hc hcur]
      split_ifs <;> decide
    obtain ⟨d, hd, htid⟩ := h.idle_owner t hidle hused
    obtain ⟨i, hi, _, _, hown⟩ := h.idle d hd
    rw [htid, Option.some.injEq] at hi
    subst hi
    have hcd := hown c (h.current c t hc hcur).1
    subst hcd
    exact ⟨htid, fun e he hte => h.idle_injective e c t he hc hte htid⟩
  · intro c next hc hdecide
    obtain ⟨t, hnext, havail⟩ := h.scheduleDecision_available hc hdecide
    exact ⟨t, hnext, havail.active, havail.free⟩
  · intro c hc hphase
    obtain ⟨t, hchoice, havail⟩ := h.startChoice_available hc hphase
    exact ⟨t, hchoice, havail.active, havail.free⟩

/-- **Ownership holds in every reachable state.** -/
theorem ownership_of_run
    (pf : Platform) (n : Nat) (s₀ s₁ s : System) (labels : List Label)
    (hboot : boot pf n s₀ = .ok s₁)
    (hrun : runAll (step pf n) s₁ labels = some s) :
    Ownership n s :=
  (runAll_invariant (fun _ _ _ h hstep => step_preserves h hstep)
    (inv_boot hboot) hrun).ownership

def somePlatform : Platform := ⟨0x100100, 0x100200, 0x1000⟩

/-- Zeroed tables over a fresh heap, as they are before `scheduler_init`. -/
def zeroed : System where
  threads := fun _ => ⟨0, 0, 0, 0, .unused, none, 0, 0, false⟩
  activeCount := 0
  currentThread := fun _ => none
  idleTid := fun _ => none
  heap := Heap.heapInit (fun _ => 0)
  exitCodes := fun _ => 0
  cr3 := fun _ => 0
  rsp0 := fun _ => 0
  phase := fun _ => .boot

/-- Two cores: start, preempt, and an exit that falls back to the idle thread. -/
theorem ownership_of_run_two_cores :
    ∃ s₁ s,
      boot somePlatform 2 zeroed = .ok s₁ ∧
        runAll (step somePlatform 2) s₁
          [.create 0 0x100300 0 0x1000 0, .start 0, .readRsp 0, .switchTo 0,
            .create 0 0x100400 7 0x2000 0, .schedule 0, .readRsp 0, .start 1,
            .saveRsp 0 0x1008000, .clearFlag 0, .readRsp 1, .switchTo 1,
            .exit 0 3, .schedule 0, .reapStack 0] = some s ∧
        Ownership 2 s := by
  have hsome :
      ((boot somePlatform 2 zeroed).toOption.bind (fun s₁ =>
        runAll (step somePlatform 2) s₁
          [.create 0 0x100300 0 0x1000 0, .start 0, .readRsp 0, .switchTo 0,
            .create 0 0x100400 7 0x2000 0, .schedule 0, .readRsp 0, .start 1,
            .saveRsp 0 0x1008000, .clearFlag 0, .readRsp 1, .switchTo 1,
            .exit 0 3, .schedule 0, .reapStack 0])).isSome := by
    decide
  obtain ⟨s, hs⟩ := Option.isSome_iff_exists.mp hsome
  obtain ⟨s₁, hboot, hrun⟩ := Option.bind_eq_some_iff.mp hs
  have hok := toOption_eq_some.mp hboot
  exact ⟨s₁, s, hok, hrun, ownership_of_run _ 2 zeroed s₁ s _ hok hrun⟩

end Scheduler
end RebornOS
