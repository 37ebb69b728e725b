import RebornOS.Scheduler
import RebornOS.FiniteCount
import RebornOS.LabeledRun

/-!
# Ownership of threads by cores

The invariant behind the scheduler.  A slot is held by the core whose number is
in `running_on_core`: either because that core runs it, or because the core has
chosen another thread and has not yet cleared the flag of the one it leaves
(`Phase.pending`).  The flag is cleared outside the lock, so the invariant is
stated for every intermediate phase of a switch.

The proof follows the operations on the system: filling a slot, choosing the
next thread, marking a zombie, retiring it, and clearing the flag.
-/

namespace RebornOS
namespace Scheduler

open LabeledRun FiniteCount Function

variable {t : Slot} {th : Thread}

section Count

/-- Slot `i` of the table is in use. -/
def InUse (threads : Slot → Thread) (i : Nat) : Prop :=
  ∃ h : i < schedulerMaxThreads, (threads ⟨i, h⟩).state ≠ .unused

instance (threads : Slot → Thread) : DecidablePred (InUse threads) :=
  fun i => inferInstanceAs (Decidable (∃ _ : i < schedulerMaxThreads, _))

/-- The number of slots that are not `UNUSED`. -/
def usedCount (threads : Slot → Thread) : Nat :=
  Nat.count (InUse threads) schedulerMaxThreads

variable {threads threads' : Slot → Thread}

theorem inUse_val
    (threads : Slot → Thread) (t : Slot) :
    InUse threads t.val ↔ (threads t).state ≠ .unused := by
  constructor
  · rintro ⟨_, h⟩
    exact h
  · intro h
    exact ⟨t.isLt, h⟩

theorem usedCount_le
    (threads : Slot → Thread) : usedCount threads ≤ schedulerMaxThreads :=
  Nat.count_le _

/-- The count depends only on which slots are in use. -/
theorem usedCount_congr
    (h : ∀ t, (threads t).state = .unused ↔ (threads' t).state = .unused) :
    usedCount threads = usedCount threads' := by
  refine count_congr ?_
  intro i hi
  calc InUse threads i
      ↔ (threads ⟨i, hi⟩).state ≠ .unused := inUse_val threads ⟨i, hi⟩
    _ ↔ (threads' ⟨i, hi⟩).state ≠ .unused := not_congr (h ⟨i, hi⟩)
    _ ↔ InUse threads' i := (inUse_val threads' ⟨i, hi⟩).symm

/-- Filling a free slot. -/
theorem usedCount_update
    (hfree : (threads t).state = .unused) (hused : th.state ≠ .unused) :
    usedCount (update threads t th) = usedCount threads + 1 := by
  refine count_flip t.isLt ?_ ?_ ?_
  · intro i hi hne
    have hslot : (⟨i, hi⟩ : Slot) ≠ t := fun h => hne (congrArg Fin.val h)
    have h := inUse_val (update threads t th) ⟨i, hi⟩
    rw [update_of_ne hslot] at h
    exact h.trans (inUse_val threads ⟨i, hi⟩).symm
  · rw [inUse_val, update_self]
    exact hused
  · rw [inUse_val]
    exact fun h => h hfree

/-- Freeing a used slot. -/
theorem usedCount_retire
    (hused : (threads t).state ≠ .unused) (hfree : th.state = .unused) :
    usedCount threads = usedCount (update threads t th) + 1 := by
  have hupdated : (update threads t th t).state = .unused := by
    rw [update_self, hfree]
  have h := usedCount_update hupdated hused
  rwa [update_idem, update_eq_self] at h

end Count

/--
The ownership invariant on `n` cores, of which the first `k` already have their
idle thread.
-/
structure Inv (n k : Nat) (s : System) : Prop where
  /-- A held slot is current on its core, or about to be given up by it. -/
  flag :
    ∀ t c, (s.threads t).runningOnCore = some c →
      c < n ∧
        (s.currentThread c = some t ∨ (s.phase c).pending = some t)
  current :
    ∀ c t, c < n → s.currentThread c = some t →
      (s.threads t).runningOnCore = some c ∧
        s.rsp0 c = (s.threads t).kernelStackTop ∧
        s.cr3 c = (s.threads t).cr3
  current_state :
    ∀ c t, c < n → s.currentThread c = some t →
      (s.threads t).state = if s.phase c = .exiting then .zombie else .active
  pending :
    ∀ c t, c < n → (s.phase c).pending = some t →
      (s.threads t).runningOnCore = some c ∧
        (s.threads t).state = .active ∧
        s.currentThread c ≠ some t
  target :
    ∀ c t, c < n → (s.phase c).target = some t →
      s.currentThread c = some t
  boot : ∀ c, c < n → (s.phase c = .boot ↔ s.currentThread c = none)
  zombie :
    ∀ t, (s.threads t).state = .zombie →
      ∃ c, c < n ∧ s.currentThread c = some t
  idle :
    ∀ c, c < k → ∃ i,
      s.idleTid c = some i ∧
        (s.threads i).isIdle = true ∧
        (s.threads i).state = .active ∧
        ∀ d, (s.threads i).runningOnCore = some d → d = c
  idle_injective :
    ∀ c d i, c < k → d < k → s.idleTid c = some i → s.idleTid d = some i →
      c = d
  idle_owner :
    ∀ t, (s.threads t).isIdle = true → (s.threads t).state ≠ .unused →
      ∃ c, c < k ∧ s.idleTid c = some t
  stack : ∀ t, (s.threads t).state ≠ .unused → (s.threads t).stackBase ≠ 0
  count : s.activeCount = usedCount s.threads

section Operations

variable {n k c : Nat} {s : System}

/-- The current thread of a core is in use. -/
theorem Inv.used_of_current
    {u : Slot}
    (h : Inv n k s) (hc : c < n) (hcur : s.currentThread c = some u) :
    (s.threads u).state ≠ .unused := by
  rw [h.current_state c u hc hcur]
  split_ifs <;> decide

/-- The heap and the exit codes play no part in ownership. -/
theorem Inv.congr_memory
    (h : Inv n k s) (heap : Heap.State) (exitCodes : Nat → Int) :
    Inv n k { s with heap := heap, exitCodes := exitCodes } :=
  ⟨h.flag, h.current, h.current_state, h.pending, h.target, h.boot, h.zombie,
    h.idle, h.idle_injective, h.idle_owner, h.stack, h.count⟩

/-- A phase change in the middle of a switch. -/
theorem Inv.setPhase
    {p : Phase}
    (h : Inv n k s)
    (hpending : p.pending = (s.phase c).pending)
    (htarget : ∀ t, p.target = some t → (s.phase c).target = some t)
    (hboot : p ≠ .boot) (hboot' : s.phase c ≠ .boot)
    (hexiting : p ≠ .exiting) (hexiting' : s.phase c ≠ .exiting) :
    Inv n k (s.setPhase c p) := by
  refine ⟨?_, h.current, ?_, ?_, ?_, ?_, h.zombie, h.idle,
    h.idle_injective, h.idle_owner, h.stack, h.count⟩
  · intro t d hflag
    have hold := h.flag t d hflag
    by_cases hd : d = c
    · subst hd
      simpa [System.setPhase, hpending] using hold
    · simpa [System.setPhase, hd] using hold
  · intro d t hd hcur
    have hold := h.current_state d t hd hcur
    by_cases hdc : d = c
    · subst hdc
      simpa [System.setPhase, hexiting, hexiting'] using hold
    · simpa [System.setPhase, hdc] using hold
  · intro d t hd hpend
    by_cases hdc : d = c
    · subst hdc
      exact h.pending d t hd (by simpa [System.setPhase, hpending] using hpend)
    · exact h.pending d t hd (by simpa [System.setPhase, hdc] using hpend)
  · intro d t hd htgt
    by_cases hdc : d = c
    · subst hdc
      exact h.target d t hd (htarget t (by simpa [System.setPhase] using htgt))
    · exact h.target d t hd (by simpa [System.setPhase, hdc] using htgt)
  · intro d hd
    by_cases hdc : d = c
    · subst hdc
      have hold := h.boot d hd
      simpa [System.setPhase, hboot, hboot'] using hold
    · simpa [System.setPhase, hdc] using h.boot d hd

/-- Storing a stack pointer changes nothing that ownership reads. -/
theorem Inv.setRsp
    (h : Inv n k s) (t : Slot) (rsp : Nat) :
    Inv n k (s.setThread t { s.threads t with rsp := rsp }) := by
  obtain ⟨threads, hthreads⟩ : ∃ threads,
      threads = update s.threads t { s.threads t with rsp := rsp } :=
    ⟨_, rfl⟩
  have hsame : ∀ u, ∃ v, threads u = { s.threads u with rsp := v } := by
    intro u
    by_cases hu : u = t
    · subst hu
      exact ⟨rsp, by rw [hthreads, update_self]⟩
    · exact ⟨(s.threads u).rsp, by rw [hthreads, update_of_ne hu]⟩
  have hstate : ∀ u, (threads u).state = (s.threads u).state := by
    intro u
    obtain ⟨v, hv⟩ := hsame u
    rw [hv]
  have hrunning : ∀ u,
      (threads u).runningOnCore = (s.threads u).runningOnCore := by
    intro u
    obtain ⟨v, hv⟩ := hsame u
    rw [hv]
  have hidle : ∀ u, (threads u).isIdle = (s.threads u).isIdle := by
    intro u
    obtain ⟨v, hv⟩ := hsame u
    rw [hv]
  have hrest : ∀ u,
      (threads u).kernelStackTop = (s.threads u).kernelStackTop ∧
        (threads u).cr3 = (s.threads u).cr3 ∧
        (threads u).stackBase = (s.threads u).stackBase := by
    intro u
    obtain ⟨v, hv⟩ := hsame u
    rw [hv]
    exact ⟨rfl, rfl, rfl⟩
  have hcount : usedCount threads = usedCount s.threads :=
    usedCount_congr (fun u => by rw [hstate u])
  unfold System.setThread
  rw [← hthreads]
  constructor
  · simpa [hrunning] using h.flag
  · simpa [hrunning, hrest] using h.current
  · simpa [hstate] using h.current_state
  · simpa [hrunning, hstate] using h.pending
  · exact h.target
  · exact h.boot
  · simpa [hstate] using h.zombie
  · simpa [hidle, hstate, hrunning] using h.idle
  · exact h.idle_injective
  · simpa [hidle, hstate] using h.idle_owner
  · simpa [hstate, hrest] using h.stack
  · exact h.count.trans hcount.symm

/-- `switch_context_release` clears the flag of the thread it left. -/
theorem Inv.clearFlag
    {prev next : Slot} {rsp : Nat}
    (h : Inv n k s) (hc : c < n) (hphase : s.phase c = .clear prev next rsp) :
    Inv n k
      ((s.setThread prev (s.threads prev).released).setPhase c .running) := by
  have hpend : (s.phase c).pending = some prev := by
    rw [hphase]
    rfl
  obtain ⟨hrun, hactive, hcur⟩ := h.pending c prev hc hpend
  have hcount : usedCount (update s.threads prev
      (s.threads prev).released) = usedCount s.threads := by
    refine usedCount_congr ?_
    intro t
    by_cases ht : t = prev
    · subst ht
      simp [Thread.released]
    · simp [ht]
  unfold System.setThread System.setPhase
  constructor
  · intro u d
    have hflag := h.flag u d
    grind [update_apply, Thread.released, Phase.pending]
  · intro d u hd
    have hcurrent := h.current d u hd
    grind [update_apply, Thread.released]
  · intro d u hd
    have hcurrent := h.current d u hd
    have hstate := h.current_state d u hd
    grind [update_apply, Thread.released]
  · intro d u hd
    have hheld := h.pending d u hd
    grind [update_apply, Thread.released, Phase.pending]
  · intro d u hd
    have hgoal := h.target d u hd
    grind [update_apply, Thread.released, Phase.target]
  · intro d hd
    have hboot := h.boot d hd
    grind [update_apply, Thread.released]
  · intro u
    have hcore := h.zombie u
    grind [update_apply, Thread.released]
  · intro d hd
    obtain ⟨i, hi⟩ := h.idle d hd
    refine ⟨i, ?_⟩
    grind [update_apply, Thread.released]
  · exact h.idle_injective
  · intro u
    have howner := h.idle_owner u
    grind [update_apply, Thread.released]
  · intro u
    have hbase := h.stack u
    grind [update_apply, Thread.released]
  · exact h.count.trans hcount.symm

/-- A thread that is not idle marks itself `ZOMBIE`. -/
theorem Inv.exit
    (h : Inv n k s) (hc : c < n) (hphase : s.phase c = .running)
    (hcur : s.currentThread c = some t) (hidle : (s.threads t).isIdle = false) :
    Inv n k
      ((s.setThread t (s.threads t).exited).setPhase c .exiting) := by
  have hrun := (h.current c t hc hcur).1
  have hactive : (s.threads t).state = .active := by
    have hstate := h.current_state c t hc hcur
    rwa [hphase, if_neg (by decide)] at hstate
  have hcount : usedCount (update s.threads t
      (s.threads t).exited) = usedCount s.threads := by
    refine usedCount_congr ?_
    intro u
    by_cases hu : u = t
    · subst hu
      simp [Thread.exited, hactive]
    · simp [hu]
  unfold System.setThread System.setPhase
  constructor
  · intro u d
    have hflag := h.flag u d
    grind [update_apply, Thread.exited, Phase.pending]
  · intro d u hd
    have hcurrent := h.current d u hd
    grind [update_apply, Thread.exited]
  · intro d u hd
    have hcurrent := h.current d u hd
    have hstate := h.current_state d u hd
    grind [update_apply, Thread.exited]
  · intro d u hd
    have hheld := h.pending d u hd
    grind [update_apply, Thread.exited, Phase.pending]
  · intro d u hd
    have hgoal := h.target d u hd
    grind [update_apply, Thread.exited, Phase.target]
  · intro d hd
    have hboot := h.boot d hd
    grind [update_apply, Thread.exited]
  · intro u
    have hcore := h.zombie u
    grind [update_apply, Thread.exited]
  · intro d hd
    obtain ⟨i, hi⟩ := h.idle d hd
    refine ⟨i, ?_⟩
    grind [update_apply, Thread.exited]
  · exact h.idle_injective
  · intro u
    have howner := h.idle_owner u
    grind [update_apply, Thread.exited]
  · intro u
    have hbase := h.stack u
    grind [update_apply, Thread.exited]
  · exact h.count.trans hcount.symm

/--
Retiring the zombie a core runs.  Seen from ownership the core is then where it
was before it picked up its first thread.
-/
theorem Inv.retire
    (h : Inv n k s) (hc : c < n) (hphase : s.phase c = .exiting)
    (hcur : s.currentThread c = some t) :
    Inv n k
      ({ Scheduler.retire s t with
        currentThread := update s.currentThread c none }.setPhase c
          .boot) := by
  have hrun := (h.current c t hc hcur).1
  have hzombie : (s.threads t).state = .zombie := by
    have hstate := h.current_state c t hc hcur
    rwa [hphase, if_pos rfl] at hstate
  have hcount : usedCount s.threads = usedCount (update s.threads t
      (s.threads t).retired) + 1 :=
    usedCount_retire (by rw [hzombie]; decide) rfl
  have hbound := usedCount_le s.threads
  unfold Scheduler.retire System.setPhase
  constructor
  · intro u d
    have hflag := h.flag u d
    grind [update_apply, Thread.retired, Phase.pending]
  · intro d u hd
    have hcurrent := h.current d u hd
    grind [update_apply, Thread.retired]
  · intro d u hd
    have hcurrent := h.current d u hd
    have hstate := h.current_state d u hd
    grind [update_apply, Thread.retired]
  · intro d u hd
    have hheld := h.pending d u hd
    grind [update_apply, Thread.retired, Phase.pending]
  · intro d u hd
    have hgoal := h.target d u hd
    grind [update_apply, Thread.retired, Phase.target]
  · intro d hd
    have hboot := h.boot d hd
    grind [update_apply, Thread.retired]
  · intro u hz
    have hne : u ≠ t := by
      rintro rfl
      simp [Thread.retired] at hz
    change (update s.threads t _ u).state = _ at hz
    rw [update_of_ne hne] at hz
    obtain ⟨d, hd, hcore⟩ := h.zombie u hz
    have hdc : d ≠ c := by
      rintro rfl
      rw [hcur, Option.some.injEq] at hcore
      exact hne hcore.symm
    exact ⟨d, hd, (update_of_ne hdc _ _).trans hcore⟩
  · intro d hd
    obtain ⟨i, hi⟩ := h.idle d hd
    refine ⟨i, ?_⟩
    grind [update_apply, Thread.retired]
  · exact h.idle_injective
  · intro u
    have howner := h.idle_owner u
    grind [update_apply, Thread.retired]
  · intro u
    have hbase := h.stack u
    grind [update_apply, Thread.retired]
  · have hmax : schedulerMaxThreads = 32 := rfl
    have hold := h.count
    have hnew : (s.activeCount + (2 ^ 32 - 1)) % 2 ^ 32 =
        usedCount (update s.threads t (s.threads t).retired) := by
      omega
    exact hnew

/--
The core takes over a thread that nobody holds.  It still holds the thread it
leaves, if there is one.
-/
theorem Inv.switchTo
    {next : Slot} {p : Phase}
    (h : Inv n n s) (hc : c < n)
    (hactive : (s.threads next).state = .active)
    (hfree : (s.threads next).runningOnCore = none)
    (hidle : (s.threads next).isIdle = true → s.idleTid c = some next)
    (hcan : (s.phase c).canCall)
    (hpending : p.pending = s.currentThread c)
    (htarget : p.target = some next) :
    Inv n n ((loadContext (claim s c next) c next).setPhase c p) := by
  have hold : (s.phase c).pending = none ∧ s.phase c ≠ .exiting := by
    rcases hcan with hp | hp <;> rw [hp] <;> exact ⟨rfl, by decide⟩
  have hpboot : p ≠ .boot ∧ p ≠ .exiting := by
    constructor <;> rintro rfl <;> simp [Phase.target] at htarget
  have hcount : usedCount (claim s c next).threads = usedCount s.threads := by
    refine usedCount_congr ?_
    intro u
    by_cases hu : u = next
    · subst hu
      simp [claim, Thread.heldBy]
    · simp [claim, hu]
  unfold loadContext System.setPhase claim
  unfold claim at hcount
  constructor
  · intro u d
    have hflag := h.flag u d
    grind [update_apply, Thread.heldBy]
  · intro d u hd
    have hcurrent := h.current d u hd
    grind [update_apply, Thread.heldBy]
  · intro d u hd
    have hcurrent := h.current d u hd
    have hstate := h.current_state d u hd
    grind [update_apply, Thread.heldBy]
  · intro d u hd
    have hheld := h.pending d u hd
    have hcurrent := h.current d u hd
    have hstate := h.current_state d u hd
    grind [update_apply, Thread.heldBy]
  · intro d u hd
    have hgoal := h.target d u hd
    grind [update_apply, Thread.heldBy]
  · intro d hd
    have hboot := h.boot d hd
    grind [update_apply, Thread.heldBy]
  · intro u hz
    have hne : u ≠ next := by
      rintro rfl
      simp [Thread.heldBy, hactive] at hz
    change (update s.threads next _ u).state = _ at hz
    rw [update_of_ne hne] at hz
    obtain ⟨d, hd, hcore⟩ := h.zombie u hz
    have hdc : d ≠ c := by
      rintro rfl
      have hstate := h.current_state d u hd hcore
      rw [if_neg hold.2, hz] at hstate
      cases hstate
    exact ⟨d, hd, (update_of_ne hdc _ _).trans hcore⟩
  · intro d hd
    obtain ⟨i, hi⟩ := h.idle d hd
    refine ⟨i, ?_⟩
    have hsame := h.idle_injective c d i hc hd
    grind [update_apply, Thread.heldBy]
  · exact h.idle_injective
  · intro u
    have howner := h.idle_owner u
    grind [update_apply, Thread.heldBy]
  · intro u
    have hbase := h.stack u
    grind [update_apply, Thread.heldBy]
  · exact h.count.trans hcount.symm

/-- Filling a free slot with a ready thread. -/
theorem Inv.create
    {id : Slot} {heap : Heap.State} (h : Inv n k s)
    (hunused : (s.threads id).state = .unused) (hactive : th.state = .active)
    (hfree : th.runningOnCore = none) (hidle : th.isIdle = false)
    (hstack : th.stackBase ≠ 0) :
    Inv n k
      { s.setThread id th with
        heap := heap
        activeCount := (s.activeCount + 1) % 2 ^ 32 } := by
  have hcount : usedCount (update s.threads id th) =
      usedCount s.threads + 1 :=
    usedCount_update hunused (by rw [hactive]; decide)
  have hbound := usedCount_le (update s.threads id th)
  unfold System.setThread
  constructor
  · intro u d
    have hflag := h.flag u d
    grind [update_apply]
  · intro d u hd
    have hcurrent := h.current d u hd
    have hstate := h.current_state d u hd
    grind [update_apply]
  · intro d u hd
    have hcurrent := h.current d u hd
    have hstate := h.current_state d u hd
    grind [update_apply]
  · intro d u hd
    have hheld := h.pending d u hd
    grind [update_apply]
  · exact h.target
  · exact h.boot
  · intro u hz
    have hcore := h.zombie u
    grind [update_apply]
  · intro d hd
    obtain ⟨i, hi⟩ := h.idle d hd
    refine ⟨i, ?_⟩
    grind [update_apply]
  · exact h.idle_injective
  · intro u
    have howner := h.idle_owner u
    grind [update_apply]
  · intro u
    have hbase := h.stack u
    grind [update_apply]
  · have hmax : schedulerMaxThreads = 32 := rfl
    have hold := h.count
    have hnew : (s.activeCount + 1) % 2 ^ 32 =
        usedCount (update s.threads id th) := by
      omega
    exact hnew

end Operations

end Scheduler
end RebornOS
