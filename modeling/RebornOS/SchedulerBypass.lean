import RebornOS.SchedulerRuns

/-!
# A ready thread is bypassed a bounded number of times

`next_ready_after` scans the table cyclically from the slot of the thread the
core runs.  While a thread `t` is ready, the scan stops at `t` at the latest, so
every pick of another thread brings the core closer to `t` in the cyclic order.

`ahead start t` is the number of slots the scan from `start` visits before `t`.
Together with the switch that may be under way it is a potential for each core:
creations, exits and the other cores' switches change the table but neither the
core's current slot nor its distance to `t`, and each completed switch uses up
one unit.
-/

namespace RebornOS
namespace Scheduler

open LabeledRun Function

variable {next t : Slot} {d : Nat}

section Scan

variable {threads : Slot → Thread} {start : Option Slot}

/-- How many slots the scan from `start` visits before `t`. -/
def ahead (start : Option Slot) (t : Slot) : Nat :=
  (((t.val : Int) - slotIndex start - 1) % (schedulerMaxThreads : Int)).toNat

theorem ahead_lt
    (start : Option Slot) (t : Slot) : ahead start t < schedulerMaxThreads := by
  unfold ahead schedulerMaxThreads
  omega

/-- The scan reaches `t`. -/
theorem slotAfter_ahead
    (start : Option Slot) (t : Slot) :
    slotAfter (slotIndex start) (ahead start t + 1) = t := by
  have ht := t.isLt
  refine Fin.ext ?_
  unfold slotAfter ahead
  unfold schedulerMaxThreads at ht ⊢
  simp only
  omega

/-- The slot `i` places down the scan is `i + 1` places closer to `t`. -/
theorem ahead_slotAfter
    {i : Nat} (hi : i < ahead start t) :
    ahead (some (slotAfter (slotIndex start) (i + 1))) t + (i + 1) =
      ahead start t := by
  have ht := t.isLt
  unfold ahead at hi ⊢
  unfold slotIndex at *
  unfold slotAfter
  unfold schedulerMaxThreads at hi ht ⊢
  simp only
  split at hi <;> omega

/-- A core that runs another thread is not a whole round away from `t`. -/
theorem ahead_of_ne
    {u : Slot} (hne : u ≠ t) : ahead (some u) t + 1 < schedulerMaxThreads := by
  have hu := u.isLt
  have ht := t.isLt
  have hval : u.val ≠ t.val := fun h => hne (Fin.ext h)
  unfold ahead
  unfold schedulerMaxThreads at hu ht ⊢
  simp only [slotIndex]
  omega

/-- The scan returns the first ready slot. -/
theorem nextReadyAfter_eq_some
    (h : nextReadyAfter threads start = some next) :
    ∃ i, slotAfter (slotIndex start) (i + 1) = next ∧
      ∀ j, j < i → ¬ (threads (slotAfter (slotIndex start) (j + 1))).Ready := by
  unfold nextReadyAfter at h
  rw [List.find?_map] at h
  obtain ⟨i, hi, hnext⟩ := Option.map_eq_some_iff.mp h
  refine ⟨i, hnext, ?_⟩
  intro j hj
  have hfirst := (List.find?_range_eq_some.mp hi).2.2 j hj
  simpa using hfirst

/-- While `t` is ready the scan finds something. -/
theorem nextReadyAfter_ne_none
    (hready : (threads t).Ready) : nextReadyAfter threads start ≠ none := by
  intro hnone
  have hall := List.find?_eq_none.mp hnone
  refine hall t ?_ (by simpa using hready)
  exact List.mem_map.mpr
    ⟨ahead start t, List.mem_range.mpr (ahead_lt start t), slotAfter_ahead start t⟩

/-- **A pick of another thread brings the core closer to the ready one.** -/
theorem ahead_nextReadyAfter
    (hready : (threads t).Ready) (hnext : nextReadyAfter threads start = some next)
    (hne : next ≠ t) : ahead (some next) t + 1 ≤ ahead start t := by
  obtain ⟨i, hi, hfirst⟩ := nextReadyAfter_eq_some hnext
  have hlt : i < ahead start t := by
    rcases Nat.lt_trichotomy i (ahead start t) with h | h | h
    · exact h
    · -- the scan would have stopped at `t` itself
      rw [h, slotAfter_ahead] at hi
      exact absurd hi.symm hne
    · exact absurd hready (slotAfter_ahead start t ▸ hfirst _ h)
  have hcloser := ahead_slotAfter hlt
  rw [hi] at hcloser
  omega

end Scan

section Picks

variable {s : System} {c : Nat}

/-- While a thread is ready, `schedule` picks what the scan finds. -/
theorem nextReadyAfter_of_scheduleDecision
    (hready : (s.threads t).Ready)
    (hdecide : scheduleDecision s c = .switchTo (some next)) :
    nextReadyAfter s.threads (s.currentThread c) = some next := by
  cases hscan : nextReadyAfter s.threads (s.currentThread c) with
  | none =>
      exact absurd hscan (nextReadyAfter_ne_none hready)
  | some u =>
      rw [scheduleDecision, hscan] at hdecide
      split_ifs at hdecide <;> cases hdecide <;> rfl

/-- So does `scheduler_start`. -/
theorem nextReadyAfter_of_startChoice
    (hready : (s.threads t).Ready) (hchoice : startChoice s c = some next) :
    nextReadyAfter s.threads none = some next := by
  unfold startChoice at hchoice
  cases hscan : nextReadyAfter s.threads none with
  | none =>
      exact absurd hscan (nextReadyAfter_ne_none hready)
  | some u =>
      rw [hscan] at hchoice
      exact hchoice

end Picks

/-- The label ends a context switch of core `c`. -/
def completesSwitch (c : Nat) (l : Label) : Bool :=
  l = .switchTo c ∨ l = .clearFlag c

/-- The context switches core `c` can still complete while `t` stays ready. -/
def bypassesLeft (t : Slot) (c : Nat) (s : System) : Nat :=
  ahead (s.currentThread c) t + if (s.phase c).target.isSome then 1 else 0

section Potential

variable {pf : Platform} {n c : Nat} {s s' : System}

/-- A ready thread is current on no core. -/
theorem Inv.current_ne_of_ready
    (h : Inv n n s) (hc : c < n) (hready : (s.threads t).Ready) :
    s.currentThread c ≠ some t := by
  intro hcur
  have hrun := (h.current c t hc hcur).1
  rw [hready.2.1] at hrun
  cases hrun

theorem Inv.bypassesLeft_lt
    (h : Inv n n s) (hc : c < n) (hready : (s.threads t).Ready) :
    bypassesLeft t c s < schedulerMaxThreads := by
  unfold bypassesLeft
  cases htarget : (s.phase c).target with
  | none =>
      exact ahead_lt _ _
  | some u =>
      have hcur := h.target c u hc htarget
      have hne : u ≠ t := by
        rintro rfl
        exact h.current_ne_of_ready hc hready hcur
      rw [hcur]
      exact ahead_of_ne hne

/-- The potential of a core depends on its current slot and its phase only. -/
theorem bypassesLeft_congr
    (hcur : s'.currentThread c = s.currentThread c)
    (htarget : (s'.phase c).target.isSome = (s.phase c).target.isSome) :
    bypassesLeft t c s' = bypassesLeft t c s := by
  unfold bypassesLeft
  rw [hcur, htarget]

/-- A pick does not increase the potential. -/
theorem Switched.bypassesLeft_le
    (h : Switched s d next s') (hready : (s.threads t).Ready)
    (hready' : (s'.threads t).Ready)
    (hscan : nextReadyAfter s.threads (s.currentThread d) = some next) :
    bypassesLeft t c s' ≤ bypassesLeft t c s := by
  obtain ⟨p, hphase, hp⟩ := h.phase
  by_cases hcd : c = d
  · subst hcd
    have hne : next ≠ t := by
      rintro rfl
      have hrun := hready'.2.1
      rw [h.held] at hrun
      cases hrun
    have hcloser := ahead_nextReadyAfter hready hscan hne
    have htarget : (s'.phase c).target = some next := by
      rw [hphase, update_self]
      rcases hp with rfl | ⟨_, rfl⟩ | ⟨_, rfl⟩ <;> rfl
    unfold bypassesLeft
    rw [h.current, update_self, htarget]
    exact Nat.le_add_right_of_le hcloser
  · refine le_of_eq (bypassesLeft_congr ?_ ?_)
    · rw [h.current, update_of_ne hcd]
    · rw [hphase, update_of_ne hcd]

/-- A core that only changes its phase keeps the potentials of the others. -/
theorem bypassesLeft_of_phase
    {p : Phase} (hcur : s'.currentThread = s.currentThread)
    (hphase : s'.phase = update s.phase d p)
    (htarget : c = d → p.target.isSome = (s.phase d).target.isSome) :
    bypassesLeft t c s' = bypassesLeft t c s := by
  refine bypassesLeft_congr (congrFun hcur c) ?_
  rw [hphase]
  by_cases hcd : c = d
  · subst hcd
    rw [update_self, htarget rfl]
  · rw [update_of_ne hcd]

/-- The end of a switch uses up one unit of its own core. -/
theorem bypassesLeft_of_completed
    {l : Label} (hl : completesSwitch c l = decide (c = d))
    (hcur : s'.currentThread = s.currentThread)
    (hphase : s'.phase = update s.phase d .running)
    (htarget : (s.phase d).target.isSome) :
    bypassesLeft t c s' + (if completesSwitch c l then 1 else 0) =
      bypassesLeft t c s := by
  by_cases hcd : c = d
  · subst hcd
    unfold bypassesLeft
    rw [hl, decide_eq_true rfl, hcur, hphase, update_self, htarget]
    rfl
  · rw [hl, decide_eq_false hcd]
    exact bypassesLeft_of_phase hcur hphase (fun h => absurd h hcd)

/-- Every step keeps the potential, and each completed switch uses it up. -/
theorem step_bypassesLeft
    {l : Label}
    (h : Inv n n s) (hready : (s.threads t).Ready) (hready' : (s'.threads t).Ready)
    (hstep : step pf n s l = some s') :
    bypassesLeft t c s' + (if completesSwitch c l then 1 else 0) ≤
      bypassesLeft t c s := by
  cases move_of_step hstep with
  | create _ _ hcreate =>
      obtain ⟨stack, heap, _, _, _, rfl⟩ := threadCreateEx_eq_ok hcreate
      exact le_refl _
  | stay _ _ =>
      exact le_refl _
  | switch hc _ hdecide =>
      exact (h.switched hc hdecide).2.bypassesLeft_le hready hready'
        (nextReadyAfter_of_scheduleDecision hready hdecide)
  | start hc hphase hchoice =>
      refine (h.switched_start hc hphase hchoice).2.bypassesLeft_le hready hready' ?_
      rw [(h.boot _ hc).mp hphase]
      exact nextReadyAfter_of_startChoice hready hchoice
  | exit hc hexit _ _ =>
      refine Nat.le_of_eq ?_
      refine bypassesLeft_of_phase rfl rfl ?_
      intro _
      rw [hexit.1]
      rfl
  | reapStack _ hphase =>
      refine Nat.le_of_eq ?_
      refine bypassesLeft_of_phase rfl rfl ?_
      intro _
      rw [hphase]
      rfl
  | readDiscard _ hphase =>
      refine Nat.le_of_eq ?_
      refine bypassesLeft_of_phase rfl rfl ?_
      intro _
      rw [hphase]
      rfl
  | readRelease _ hphase =>
      refine Nat.le_of_eq ?_
      refine bypassesLeft_of_phase rfl rfl ?_
      intro _
      rw [hphase]
      rfl
  | saveRsp _ hphase =>
      refine Nat.le_of_eq ?_
      refine bypassesLeft_of_phase rfl rfl ?_
      intro _
      rw [hphase]
      rfl
  | clearFlag _ hphase =>
      refine Nat.le_of_eq ?_
      refine bypassesLeft_of_completed ?_ rfl rfl (by rw [hphase]; rfl)
      simp [completesSwitch, eq_comm]
  | switchTo _ hphase =>
      refine Nat.le_of_eq ?_
      refine bypassesLeft_of_completed ?_ rfl rfl (by rw [hphase]; rfl)
      simp [completesSwitch, eq_comm]
  | kmalloc _ _ _ =>
      exact le_refl _
  | kfree _ _ =>
      exact le_refl _

end Potential

/--
**Bounded bypass.**  Start in any reachable state `s` and run on while thread
`t` is ready in every state.  Each core completes fewer than
`SCHEDULER_MAX_THREADS` context switches on the way.
-/
theorem switches_while_ready_le
    (pf : Platform) (n : Nat) (s₀ s₁ s s' : System)
    (before labels : List Label) (t : Slot) (c : Nat)
    (hc : c < n)
    (hboot : boot pf n s₀ = .ok s₁)
    (hreach : runAll (step pf n) s₁ before = some s)
    (hrun : runAll (step pf n) s labels = some s')
    (hready : ∀ sofar rest u, labels = sofar ++ rest →
      runAll (step pf n) s sofar = some u → (u.threads t).Ready) :
    labels.countP (completesSwitch c) ≤ schedulerMaxThreads - 1 := by
  have hinv : Inv n n s :=
    runAll_invariant (fun _ _ _ h hstep => step_preserves h hstep)
      (inv_boot hboot) hreach
  have hstart : bypassesLeft t c s < schedulerMaxThreads :=
    hinv.bypassesLeft_lt hc (hready [] labels s rfl rfl)
  have hbound : bypassesLeft t c s' + labels.countP (completesSwitch c) ≤
      bypassesLeft t c s := by
    refine runAll_countP_le (P := fun u => Inv n n u ∧ (u.threads t).Ready)
      (fun u l u' hu hu' hstep => step_bypassesLeft hu.1 hu.2 hu'.2 hstep) ?_ hrun
    intro sofar rest u hlabels hu
    exact ⟨runAll_invariant (fun _ _ _ h hstep => step_preserves h hstep) hinv hu,
      hready sofar rest u hlabels hu⟩
  omega

/-- Core 0 starts one thread and is preempted to another. -/
def bypassLabels : List Label :=
  [.start 0, .readRsp 0, .switchTo 0, .schedule 0, .readRsp 0,
    .saveRsp 0 0x1008000, .clearFlag 0]

/-- The third thread; the idle thread has the first slot. -/
def bypassedSlot : Slot := 3

/-- Two switches complete while the third thread stays ready. -/
theorem switches_while_ready_le_two :
    ∃ s₁ s s',
      boot somePlatform 1 zeroed = .ok s₁ ∧
        runAll (step somePlatform 1) s₁
          [.create 0 0x100300 0 0x1000 0, .create 0 0x100400 0 0x1000 0,
            .create 0 0x100500 0 0x1000 0] = some s ∧
        runAll (step somePlatform 1) s bypassLabels = some s' ∧
        (s.threads bypassedSlot).Ready ∧ (s'.threads bypassedSlot).Ready ∧
        bypassLabels.countP (completesSwitch 0) = 2 ∧
        bypassLabels.countP (completesSwitch 0) ≤ schedulerMaxThreads - 1 := by
  have hall :
      ((boot somePlatform 1 zeroed).toOption.bind (fun s₁ =>
        runAll (step somePlatform 1) s₁
          [.create 0 0x100300 0 0x1000 0, .create 0 0x100400 0 0x1000 0,
            .create 0 0x100500 0 0x1000 0])).any (fun s =>
        (List.range (bypassLabels.length + 1)).all (fun k =>
          (runAll (step somePlatform 1) s
            (bypassLabels.take k)).any (fun u =>
              (u.threads bypassedSlot).Ready))) := by
    decide
  obtain ⟨s, hs, hready⟩ := (Option.any_eq_true _ _).mp hall
  obtain ⟨s₁, hopt, hreach⟩ := Option.bind_eq_some_iff.mp hs
  have hboot := Fallible.toOption_eq_some.mp hopt
  have hstates : ∀ k, k ≤ bypassLabels.length → ∃ u,
      runAll (step somePlatform 1) s (bypassLabels.take k) = some u ∧
        (u.threads bypassedSlot).Ready := by
    intro k hk
    have hone := List.all_eq_true.mp hready k (List.mem_range.mpr (by omega))
    obtain ⟨u, hu, hready⟩ := (Option.any_eq_true _ _).mp hone
    exact ⟨u, hu, of_decide_eq_true hready⟩
  have hready : ∀ sofar rest u, bypassLabels = sofar ++ rest →
      runAll (step somePlatform 1) s sofar = some u →
        (u.threads bypassedSlot).Ready := by
    intro sofar rest u hlabels hu
    obtain ⟨u', hu', hready⟩ := hstates sofar.length (by simp [hlabels])
    rw [hlabels, List.take_left, hu, Option.some.injEq] at hu'
    rwa [hu']
  obtain ⟨s', hrun, hlast⟩ := hstates bypassLabels.length le_rfl
  rw [List.take_length] at hrun
  exact ⟨s₁, s, s', hboot, hreach, hrun, hready [] bypassLabels s rfl rfl, hlast,
    by decide,
    switches_while_ready_le _ 1 zeroed s₁ s s' _ _ _ 0 (by decide) hboot hreach
      hrun hready⟩

end Scheduler
end RebornOS
