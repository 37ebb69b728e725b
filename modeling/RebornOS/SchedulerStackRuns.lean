import RebornOS.SchedulerStacks

/-!
# Stacks over whole runs

Every step keeps the stack invariant, and the only step that takes a core into
the window between the release of its stack and the switch away from it is
`kfree(zombie_stack)` itself.  So all cores execute on allocated stacks in
every state of a run exactly when the run contains no such step.
-/

namespace RebornOS
namespace Scheduler

open ByteStore LabeledRun Function Fallible

variable {pf : Platform} {n : Nat} {t : Traced} {s : System}

section Steps

variable {c : Nat} {t' : Traced}

/-- A phase change that does not enter the window. -/
theorem inWindow_of_setPhase
    {p : Phase} {owners : List (Nat × Owner)} {d : Nat}
    (hphase : s.phase = update t.sys.phase c p)
    (henter : p.stage = .discarding →
      (t.sys.phase c).stage = .discarding ∨ t.stack c = none)
    (h : InWindow { t with sys := s, owners := owners } d) : InWindow t d := by
  obtain ⟨hstage, hstack⟩ := h
  change (s.phase d).stage = _ at hstage
  change t.stack d ≠ none at hstack
  rw [hphase] at hstage
  by_cases hd : d = c
  · subst hd
    rw [update_self] at hstage
    exact ⟨(henter hstage).resolve_right hstack, hstack⟩
  · rw [update_of_ne hd] at hstage
    exact ⟨hstage, hstack⟩

/-- The critical section of `schedule` moves one core. -/
theorem switchUnderLock_phase
    (s : System) (c : Nat) (next : Slot) :
    ∃ p, (switchUnderLock s c next).phase = update s.phase c p := by
  unfold switchUnderLock
  cases s.currentThread c with
  | none =>
      exact ⟨_, rfl⟩
  | some prev =>
      by_cases hz : (s.threads prev).state = .zombie
      · simp only [hz, if_true]
        exact ⟨_, rfl⟩
      · simp only [hz, if_false]
        exact ⟨_, rfl⟩

/-- A slot whose state and stack stay while other words are stored. -/
theorem update_saved_words
    {threads : Slot → Thread} {t u : Slot} {th : Thread}
    (hstate : th.state = (threads t).state)
    (hbase : th.stackBase = (threads t).stackBase) :
    (update threads t th u).state = (threads u).state ∧
      (update threads t th u).stackBase = (threads u).stackBase := by
  by_cases hu : u = t
  · subst hu
    rw [update_self]
    exact ⟨hstate, hbase⟩
  · rw [update_of_ne hu]
    exact ⟨rfl, rfl⟩

/-- Loading the stack pointer leaves the window. -/
theorem inWindow_of_land
    {d : Nat} {stack : Option (Nat × Nat)}
    (hphase : s.phase = update t.sys.phase c .running) (h : InWindow
      { t with sys := s, stack := update t.stack c stack } d) : InWindow t d := by
  obtain ⟨hstage, hstack⟩ := h
  change (s.phase d).stage = _ at hstage
  change update t.stack c stack d ≠ none at hstack
  rw [hphase] at hstage
  by_cases hd : d = c
  · rw [hd, update_self] at hstage
    cases hstage
  · rw [update_of_ne hd] at hstage hstack
    exact ⟨hstage, hstack⟩

/-- `thread_create_ex` together with the owner of the new stack. -/
theorem StackInv.threadCreateEx
    {id : Slot} {entry arg cr3 exitCodeOut : Nat} (h : StackInv n n t)
    (hcreate : threadCreateEx pf t.sys entry arg cr3 exitCodeOut = .ok (id, s)) :
    StackInv n n (recordCreate t s) ∧
      ∀ d, InWindow (recordCreate t s) d → InWindow t d := by
  have hinv := h.inv.threadCreateEx hcreate
  obtain ⟨stack, heap, hslot, hk, hstack, rfl⟩ := threadCreateEx_eq_ok hcreate
  unfold recordCreate
  simp only [hslot]
  refine ⟨?_, fun d hd => hd⟩
  simp only [System.setThread, update_self]
  exact h.create (newThread stack cr3 exitCodeOut)
    (firstUnused_unused hslot) hk hstack (fun a ha => initialFrame_outside_stack ha)
    hinv

/-- The kernel's other allocations. -/
theorem StackInv.kmalloc
    {size : Nat} (h : StackInv n n t) (hk : (Heap.kmalloc t.sys.heap size).map (fun r =>
      { t.sys with heap := r.2 }) = some s)
    (hrecord : record t s (.kmalloc c size) = some t') :
    StackInv n n t' ∧ ∀ d, InWindow t' d → InWindow t d := by
  obtain ⟨p, heap, hkm, hblocks⟩ := h.blocks.kmalloc size
  simp only [record, hkm, Option.map_some, Option.some.injEq] at hk hrecord
  subst hk hrecord
  refine ⟨h.ofHeap hblocks ?_, fun d hd => hd⟩
  intro q id
  split_ifs
  · exact Iff.rfl
  · simp

/-- The kernel's other releases. -/
theorem StackInv.kfree
    {p : Nat}
    (h : StackInv n n t)
    (hrecord :
      record t { t.sys with heap := Heap.kfree t.sys.heap p } (.kfree c p) =
        some t') : StackInv n n t' ∧ ∀ d, InWindow t' d → InWindow t d := by
  simp only [record] at hrecord
  split_ifs at hrecord with hnull howner
  · cases hrecord
    rw [Heap.kfree, if_pos hnull]
    exact ⟨h, fun d hd => hd⟩
  · cases hrecord
    have hperm : (t.owners.map Prod.fst).Perm
        (p :: (t.owners.erase (p, .other)).map Prod.fst) :=
      (List.perm_cons_erase howner).map Prod.fst
    refine ⟨h.ofHeap (h.blocks.kfree hperm ?_) ?_, fun d hd => hd⟩
    · intro o ho
      exact List.mem_of_mem_erase ho
    · intro q id
      exact List.mem_erase_of_ne (by simp)

/-- Every step keeps the invariant, and only a reap enters the window. -/
theorem call_preserves
    {l : Label}
    (h : StackInv n n t) (hcall : call pf n t l = some t') :
    StackInv n n t' ∧
      ∀ d, InWindow t' d → InWindow t d ∨ l = .reapStack d := by
  obtain ⟨s, hstep, hrecord⟩ := Option.bind_eq_some_iff.mp hcall
  have hinv := step_preserves h.inv hstep
  cases move_of_step hstep with
  | create _ _ hcreate =>
      cases hrecord
      obtain ⟨hnew, hwin⟩ := h.threadCreateEx hcreate
      exact ⟨hnew, fun d hd => Or.inl (hwin d hd)⟩
  | stay _ _ =>
      cases hrecord
      exact ⟨h, fun d hd => Or.inl hd⟩
  | @switch core next hc hphase hdecide =>
      cases hrecord
      obtain ⟨u, hnext, havail⟩ := h.inv.scheduleDecision_available hc hdecide
      cases hnext
      obtain ⟨hnew, hwin⟩ := h.switchUnderLock hc hphase havail
      refine ⟨hnew, fun d hd => Or.inl ?_⟩
      obtain ⟨p, hp⟩ := switchUnderLock_phase t.sys core next
      rw [hp, update_self] at hwin
      exact inWindow_of_setPhase hp (fun hs => Or.inr (hwin hs)) hd
  | start hc hphase _ =>
      cases hrecord
      obtain ⟨hnew, hnone⟩ := h.first hc hphase hinv
      exact ⟨hnew, fun d hd =>
        Or.inl (inWindow_of_setPhase rfl (fun _ => Or.inr hnone) hd)⟩
  | exit hc hexit hcur _ =>
      cases hrecord
      refine ⟨h.exit hc hexit.1 hcur hinv, fun d hd => Or.inl ?_⟩
      exact inWindow_of_setPhase rfl (by simp [Phase.stage]) hd
  | @reapStack core _ _ hc hphase =>
      simp only [record, hphase] at hrecord
      cases hrecord
      refine ⟨h.reapStack hc hphase hinv, fun d hd => ?_⟩
      by_cases hdc : d = core
      · exact Or.inr (by rw [hdc])
      · obtain ⟨hstage, hstack⟩ := hd
        simp only [System.setPhase, update_of_ne hdc] at hstage
        exact Or.inl ⟨hstage, hstack⟩
  | readDiscard hc hphase =>
      cases hrecord
      refine ⟨h.ofPhase hc ?_ ?_ (fun u => ⟨rfl, rfl⟩) hinv,
        fun d hd => Or.inl (inWindow_of_setPhase rfl ?_ hd)⟩ <;>
        simp [hphase, Phase.stage]
  | readRelease hc hphase =>
      cases hrecord
      refine ⟨h.ofPhase hc ?_ ?_ (fun u => ⟨rfl, rfl⟩) hinv,
        fun d hd => Or.inl (inWindow_of_setPhase rfl ?_ hd)⟩ <;>
        simp [hphase, Phase.stage]
  | saveRsp hc hphase =>
      cases hrecord
      refine ⟨h.ofPhase hc ?_ ?_ (fun u => ?_) hinv,
        fun d hd => Or.inl (inWindow_of_setPhase rfl ?_ hd)⟩
      · simp [hphase, Phase.stage]
      · simp [Phase.stage]
      · exact update_saved_words rfl rfl
      · simp [Phase.stage]
  | clearFlag hc hphase =>
      cases hrecord
      have hcur := h.inv.target _ _ hc (by rw [hphase]; rfl)
      exact ⟨h.land hcur (fun u => update_saved_words rfl rfl) hinv,
        fun d hd => Or.inl (inWindow_of_land rfl hd)⟩
  | switchTo hc hphase =>
      cases hrecord
      have hcur := h.inv.target _ _ hc (by rw [hphase]; rfl)
      exact ⟨h.land hcur (fun u => ⟨rfl, rfl⟩) hinv,
        fun d hd => Or.inl (inWindow_of_land rfl hd)⟩
  | kmalloc _ _ hk =>
      obtain ⟨hnew, hwin⟩ := h.kmalloc (by rw [hk]; rfl) hrecord
      exact ⟨hnew, fun d hd => Or.inl (hwin d hd)⟩
  | kfree _ _ =>
      obtain ⟨hnew, hwin⟩ := h.kfree hrecord
      exact ⟨hnew, fun d hd => Or.inl (hwin d hd)⟩

end Steps

section Booting

variable {k : Nat}

/-- Before the idle threads exist, every live block belongs to other code. -/
theorem stackInv_schedulerInit
    {live : List Nat}
    (hheap : Heap.TraceInv ⟨s.heap, live⟩) :
    StackInv n 0
      ⟨schedulerInit s, live.map (fun p => (p, .other)), 0, fun _ => 0,
        fun _ => none⟩ := by
  obtain ⟨xs, hr, hlive⟩ := hheap
  have hother : ∀ p id,
      (p, Owner.thread id) ∉ live.map (fun p => (p, Owner.other)) := by
    intro p id hin
    obtain ⟨q, _, heq⟩ := List.mem_map.mp hin
    cases heq
  have hunused : ∀ u, ((schedulerInit s).threads u).state = .unused :=
    fun _ => rfl
  refine ⟨inv_schedulerInit n s, ⟨xs, hr, ?_, ?_⟩, ?_, ?_, ?_, ?_, ?_⟩
  · have hfst : (Prod.fst ∘ fun p : Nat => (p, Owner.other)) = id := rfl
    rw [List.map_map, hfst, List.map_id]
    exact hlive
  · intro p id hin
    exact absurd hin (hother p id)
  · intro u hu
    exact absurd (hunused u) hu
  · intro u v hu
    exact absurd (hunused u) hu
  · intro p id hin
    exact absurd hin (hother p id)
  · intro c _
    exact rfl
  · intro c d base _ _ hreap
    cases hreap

/-- The idle thread of core `k` with the owner of its stack. -/
theorem StackInv.createIdleThread
    (h : StackInv n k t) (hcreate : createIdleThread pf t.sys k = .ok s) :
    StackInv n (k + 1) (recordCreate t s) ∧
      ∀ d, InWindow (recordCreate t s) d → InWindow t d := by
  have hinv := h.inv.createIdleThread hcreate
  obtain ⟨id, s₁, hthread, rfl⟩ := createIdleThread_eq_ok hcreate
  obtain ⟨stack, heap, hslot, hk, hstack, rfl⟩ := threadCreateEx_eq_ok hthread
  unfold recordCreate
  simp only [hslot]
  refine ⟨?_, fun d hd => hd⟩
  simp only [System.setThread, update_self, update_idem] at hinv ⊢
  exact h.create
    { newThread stack pf.kernelCr3 0 with isIdle := true }
    (firstUnused_unused hslot) hk hstack
    (fun a ha => initialFrame_outside_stack ha) hinv

/-- The invariant holds once every core has its idle thread. -/
theorem stackInv_boot
    {live : List Nat}
    (hheap : Heap.TraceInv ⟨s.heap, live⟩)
    (hboot : bootTraced pf n s live = .ok t) :
    StackInv n n t ∧ ∀ d, ¬ InWindow t d := by
  have hloop : ∀ k t,
      createIdleTraced pf
        ⟨schedulerInit s, live.map (fun p => (p, .other)), 0, fun _ => 0,
          fun _ => none⟩ k = .ok t →
      StackInv n k t ∧ ∀ d, ¬ InWindow t d := by
    intro k
    induction k with
    | zero =>
        intro t h
        cases h
        exact ⟨stackInv_schedulerInit hheap, fun d hd => hd.2 rfl⟩
    | succ k ih =>
        intro t h
        obtain ⟨t₁, h₁, h₂⟩ := bind_eq_ok.mp h
        obtain ⟨hinv, hwin⟩ := ih t₁ h₁
        cases hcreate : Scheduler.createIdleThread pf t₁.sys k with
        | error e =>
            rw [hcreate] at h₂
            cases h₂
        | ok s₁ =>
            rw [hcreate] at h₂
            cases h₂
            obtain ⟨hnew, hkeep⟩ := hinv.createIdleThread hcreate
            exact ⟨hnew, fun d hd => hwin d (hkeep d hd)⟩
  exact hloop n t hboot

end Booting

section Runs

variable {t₁ : Traced} {labels : List Label}

/-- The invariant holds along every run. -/
theorem stackInv_of_run
    (h : StackInv n n t₁) (hrun : runAll (call pf n) t₁ labels = some t) :
    StackInv n n t :=
  runAll_invariant (fun _ _ _ h hcall => (call_preserves h hcall).1) h hrun

/-- A run without `kfree(zombie_stack)` never enters the window. -/
theorem not_inWindow_of_run
    (h : StackInv n n t₁) (hwin : ∀ d, ¬ InWindow t₁ d)
    (hlabels : ∀ l, l ∈ labels → ∀ c, l ≠ .reapStack c)
    (hrun : runAll (call pf n) t₁ labels = some t) : ∀ d, ¬ InWindow t d := by
  have hboth : StackInv n n t ∧ ∀ d, ¬ InWindow t d := by
    refine runAll_invariant_of_forall
      (P := fun t => StackInv n n t ∧ ∀ d, ¬ InWindow t d)
      (C := fun l => ∀ c, l ≠ .reapStack c) ?_ ⟨h, hwin⟩ hlabels hrun
    rintro u l u' ⟨hu, hout⟩ hl hcall
    obtain ⟨hnew, henter⟩ := call_preserves hu hcall
    refine ⟨hnew, fun d hd => ?_⟩
    rcases henter d hd with hin | hreap
    · exact hout d hin
    · exact hl d hreap
  exact hboth.2

/-- `kfree(zombie_stack)` takes the core into the window. -/
theorem inWindow_of_reapStack
    {c : Nat}
    (h : StackInv n n t₁) (hcall : call pf n t₁ (.reapStack c) = some t) :
    c < n ∧ InWindow t c := by
  obtain ⟨s, hstep, hrecord⟩ := Option.bind_eq_some_iff.mp hcall
  unfold step at hstep
  split_ifs at hstep with hc
  simp only [act] at hstep
  simp only [record] at hrecord
  split at hstep
  · rename_i base next hphase
    simp only [hphase] at hrecord
    cases hstep
    cases hrecord
    have hon := h.onStack c hc
    rw [hphase] at hon
    obtain ⟨id, hstack, _⟩ := hon
    refine ⟨hc, ?_, ?_⟩
    · simp [System.setPhase, Phase.stage]
    · simp [hstack]
  · cases hstep

end Runs

/--
**Stacks stay allocated exactly until a stack is reaped.**  The scheduler boots
on a heap that any sequence of heap calls has produced.  In a run, every core
executes on a block allocated to its thread in every state, if and only if no
step of the run is a `kfree(zombie_stack)`.
-/
theorem stacks_allocated_iff_no_reap
    (pf : Platform) (n : Nat) (m : Store) (calls : List Heap.Call)
    (h : Heap.Traced) (s : System) (t₁ t : Traced) (labels : List Label)
    (hheap : runAll Heap.call (Heap.start m) calls = some h)
    (hs : s.heap = h.heap)
    (hboot : bootTraced pf n s h.live = .ok t₁)
    (hrun : runAll (call pf n) t₁ labels = some t) :
    (∀ pre post u, labels = pre ++ post →
      runAll (call pf n) t₁ pre = some u →
        ∀ c, c < n → StackAllocated u c) ↔
      ∀ l, l ∈ labels → ∀ c, l ≠ .reapStack c := by
  have hinit : Heap.TraceInv ⟨s.heap, h.live⟩ := by
    rw [hs]
    exact runAll_invariant (fun _ _ _ hinv hc => Heap.call_preserves hinv hc)
      (Heap.traceInv_start m) hheap
  obtain ⟨hinv, hwin⟩ := stackInv_boot hinit hboot
  constructor
  · rintro hall l hl c rfl
    obtain ⟨pre, post, rfl⟩ := List.append_of_mem hl
    rw [runAll_append] at hrun
    obtain ⟨u, hpre, hrest⟩ := Option.bind_eq_some_iff.mp hrun
    obtain ⟨u', hreap, _⟩ := runAll_cons_success hrest
    have hu := stackInv_of_run hinv hpre
    obtain ⟨hc, hin⟩ := inWindow_of_reapStack hu hreap
    have hrun' : runAll (call pf n) t₁ (pre ++ [.reapStack c]) = some u' := by
      rw [runAll_append, hpre, Option.bind_some, runAll, hreap]
      rfl
    have halloc := hall (pre ++ [.reapStack c]) post u' (by simp) hrun' c hc
    exact ((call_preserves hu hreap).1.allocated_iff hc).mp halloc hin
  · rintro hnone pre post u rfl hpre c hc
    have hu := stackInv_of_run hinv hpre
    refine (hu.allocated_iff hc).mpr ?_
    refine not_inWindow_of_run hinv hwin ?_ hpre c
    intro l hl
    exact hnone l (List.mem_append_left _ hl)

/-- Two threads on two cores; the first exits and its slot is retired. -/
def exitLabels : List Label :=
  [.create 0 0x100300 0 0x1000 0, .create 0 0x100400 0 0x1000 0,
    .start 0, .start 1, .readRsp 0, .switchTo 0, .readRsp 1, .switchTo 1,
    .exit 0 5, .schedule 0]

/-- As long as the exited thread's stack is not reaped, all is well. -/
theorem stacks_allocated_before_reap :
    ∃ t₁ t,
      bootTraced somePlatform 2 zeroed [] = .ok t₁ ∧
        runAll (call somePlatform 2) t₁ exitLabels = some t ∧
        ((∀ pre post u, exitLabels = pre ++ post →
          runAll (call somePlatform 2) t₁ pre = some u →
            ∀ c, c < 2 → StackAllocated u c) ↔
          ∀ l, l ∈ exitLabels → ∀ c, l ≠ .reapStack c) := by
  have hsome :
      ((bootTraced somePlatform 2 zeroed []).toOption.bind
        (fun t₁ =>
          runAll (call somePlatform 2) t₁
            exitLabels)).isSome := by
    decide +kernel
  obtain ⟨t, ht⟩ := Option.isSome_iff_exists.mp hsome
  obtain ⟨t₁, hopt, hrun⟩ := Option.bind_eq_some_iff.mp ht
  have hboot := toOption_eq_some.mp hopt
  exact ⟨t₁, t, hboot, hrun,
    stacks_allocated_iff_no_reap _ 2 (fun _ => 0) [] (Heap.start (fun _ => 0))
      zeroed t₁ t exitLabels rfl rfl hboot hrun⟩

/--
One more `kfree(zombie_stack)`, and a thread created on the other core gets the
block that the exiting core still executes on.
-/
theorem reaped_stack_reallocated :
    ∃ t₁ t id id' base,
      bootTraced somePlatform 2 zeroed [] = .ok t₁ ∧
        runAll (call somePlatform 2) t₁
          (exitLabels ++ [.reapStack 0, .create 1 0x100500 0 0x1000 0]) =
            some t ∧
        t.stack 0 = some (id, base) ∧
        id' ≠ id ∧
        (base, Owner.thread id') ∈ t.owners ∧
        ¬ StackAllocated t 0 := by
  have hfinal :
      ((bootTraced somePlatform 2 zeroed []).toOption.bind
        (fun t₁ =>
          runAll (call somePlatform 2) t₁
            (exitLabels ++ [.reapStack 0, .create 1 0x100500 0 0x1000 0]))).any
        (fun t =>
          t.stack 0 = some (2, Heap.heapBase + 32840) ∧
            (Heap.heapBase + 32840, Owner.thread 4) ∈ t.owners ∧
            (Heap.heapBase + 32840, Owner.thread 2) ∉ t.owners) := by
    decide +kernel
  obtain ⟨t, ht, hspec⟩ := (Option.any_eq_true _ _).mp hfinal
  obtain ⟨t₁, hopt, hrun⟩ := Option.bind_eq_some_iff.mp ht
  obtain ⟨hstack, howner, hnot⟩ := of_decide_eq_true hspec
  refine ⟨t₁, t, 2, 4, _, toOption_eq_some.mp hopt, hrun, hstack,
    by decide, howner, ?_⟩
  intro halloc
  obtain ⟨_, _, _, _, _, _, _, hin⟩ := halloc _ _ hstack
  exact hnot hin

end Scheduler
end RebornOS
