import RebornOS.SchedulerRuns

/-!
# Resuming threads from their saved contexts

A thread's context is the stack pointer that its next switch-in has to load: the
one `thread_create_ex` stored, or the one stored when the thread was preempted
last.  While the thread runs it has none.  The context is a history variable;
`threads[t].rsp` is what the switching cores really read.

The store of the context, the store that makes the thread stealable and the read
by the next core are separate steps.  A core can only choose a thread after the
second one, so what it reads is the context.
-/

namespace RebornOS
namespace Scheduler

open LabeledRun Function

variable {pf : Platform} {d n : Nat} {next t : Slot}

/-- The saved context of each slot's thread; `none` while it runs. -/
abbrev Contexts := Slot → Option Nat

/-- How a step from `s` to `s'` changes the contexts. -/
def recordContext (s : System) (l : Label) (s' : System) (ctx : Contexts) :
    Contexts :=
  match l with
  | .create _ _ _ _ _ =>
      match firstUnused s.threads with
      | none => ctx
      | some id => update ctx id (some (s'.threads id).rsp)
  | .saveRsp core rsp =>
      match s.phase core with
      | .save prev _ _ => update ctx prev (some rsp)
      | _ => ctx
  | .clearFlag core =>
      match s.phase core with
      | .clear _ next _ => update ctx next none
      | _ => ctx
  | .switchTo core =>
      match s.phase core with
      | .jump next _ => update ctx next none
      | _ => ctx
  | _ => ctx

/-- The contexts of the idle threads, which have just been created. -/
def initialContexts (s : System) : Contexts :=
  fun t =>
    if (s.threads t).state = .active then some (s.threads t).rsp else none

/-- The thread a core switches to and the stack pointer it has read for it. -/
def Phase.loaded : Phase → Option (Slot × Nat)
  | jump next rsp => some (next, rsp)
  | save _ next rsp => some (next, rsp)
  | clear _ next rsp => some (next, rsp)
  | _ => none

/-- The preempted thread whose stack pointer a core has already stored. -/
def Phase.stored : Phase → Option Slot
  | clear prev _ _ => some prev
  | _ => none

/-- The invariant behind the contexts. -/
structure ContextInv (n : Nat) (s : System) (ctx : Contexts) : Prop where
  inv : Inv n n s
  /-- A thread that a core may choose has its context in the table. -/
  free :
    ∀ t, (s.threads t).state = .active → (s.threads t).runningOnCore = none →
      ctx t = some (s.threads t).rsp
  target :
    ∀ c t, c < n → (s.phase c).target = some t →
      ctx t = some (s.threads t).rsp
  loaded :
    ∀ c t r, c < n → (s.phase c).loaded = some (t, r) →
      (s.phase c).target = some t ∧ (s.threads t).rsp = r
  stored :
    ∀ c t, c < n → (s.phase c).stored = some t →
      (s.phase c).pending = some t ∧ ctx t = some (s.threads t).rsp

section Steps

variable {c : Nat} {s s' : System} {ctx : Contexts}

/-- The thread a core is on its way to is not pending on any core. -/
theorem Inv.not_pending_of_target
    (h : Inv n n s) (hc : c < n) (htarget : (s.phase c).target = some t) (hd : d < n) :
    (s.phase d).pending ≠ some t := by
  intro hpending
  obtain ⟨hheld, _, hcur⟩ := h.pending d t hd hpending
  have htcur := h.target c t hc htarget
  have hrun := (h.current c t hc htcur).1
  rw [hheld, Option.some.injEq] at hrun
  subst hrun
  exact hcur htcur

/-- Two cores are never on their way to the same thread. -/
theorem Inv.target_injective
    (h : Inv n n s) (hc : c < n) (hd : d < n) (htarget : (s.phase c).target = some t)
    (htarget' : (s.phase d).target = some t) : c = d :=
  h.ownership.current_injective c d t hc hd (h.target c t hc htarget)
    (h.target d t hd htarget')

variable (h : ContextInv n s ctx)
include h

/-- A step that moves core `c` only and stores no stack pointer. -/
theorem ContextInv.ofPhase
    {p : Phase} (hinv : Inv n n s') (hphase : s'.phase = update s.phase c p)
    (hrsp : ∀ t, (s.threads t).rsp = (s'.threads t).rsp)
    (hfree : ∀ t, (s'.threads t).state = .active →
      (s'.threads t).runningOnCore = none → ctx t = some (s.threads t).rsp)
    (htarget : ∀ t, p.target = some t → ctx t = some (s.threads t).rsp)
    (hloaded : ∀ t r, p.loaded = some (t, r) →
      p.target = some t ∧ (s.threads t).rsp = r) (hstored : p.stored = none) :
    ContextInv n s' ctx := by
  refine ⟨hinv, ?_, ?_, ?_, ?_⟩
  · intro t hactive hrun
    rw [← hrsp]
    exact hfree t hactive hrun
  · intro d t hd ht
    rw [hphase] at ht
    rw [← hrsp]
    by_cases hdc : d = c
    · subst hdc
      rw [update_self] at ht
      exact htarget t ht
    · rw [update_of_ne hdc] at ht
      exact h.target d t hd ht
  · intro d t r hd ht
    rw [hphase] at ht ⊢
    rw [← hrsp]
    by_cases hdc : d = c
    · subst hdc
      rw [update_self] at ht ⊢
      exact hloaded t r ht
    · rw [update_of_ne hdc] at ht ⊢
      exact h.loaded d t r hd ht
  · intro d t hd ht
    rw [hphase] at ht ⊢
    rw [← hrsp]
    by_cases hdc : d = c
    · subst hdc
      rw [update_self, hstored] at ht
      cases ht
    · rw [update_of_ne hdc] at ht ⊢
      exact h.stored d t hd ht

/-- Choosing the next thread under the lock. -/
theorem ContextInv.switched
    (hinv : Inv n n s') (havail : Available s c next) (hswitch : Switched s c next s') :
    ContextInv n s' ctx := by
  obtain ⟨p, hphase, hp⟩ := hswitch.phase
  have hkind : p.target = some next ∧ p.loaded = none ∧ p.stored = none := by
    rcases hp with rfl | ⟨stack, rfl⟩ | ⟨prev, rfl⟩ <;> exact ⟨rfl, rfl, rfl⟩
  refine h.ofPhase hinv hphase (fun t => (hswitch.rsp t).symm) ?_ ?_ ?_ hkind.2.2
  · intro t hactive hrun
    have hsame := hswitch.free hactive hrun
    rw [hsame] at hactive hrun
    exact h.free t hactive hrun
  · intro t ht
    rw [hkind.1] at ht
    cases ht
    exact h.free next havail.active havail.free
  · intro t r ht
    rw [hkind.2.1] at ht
    cases ht

/-- A new thread starts with the context that was built for it. -/
theorem ContextInv.create
    {id : Slot} {entry arg cr3 exitCodeOut : Nat}
    (hcreate : threadCreateEx pf s entry arg cr3 exitCodeOut = .ok (id, s')) :
    ContextInv n s'
      (recordContext s (.create c entry arg cr3 exitCodeOut) s' ctx) := by
  have hinv := h.inv.threadCreateEx hcreate
  obtain ⟨stack, heap, hslot, _, _, rfl⟩ := threadCreateEx_eq_ok hcreate
  have hunused := firstUnused_unused hslot
  have hother : ∀ t, (s.threads t).state ≠ .unused → t ≠ id := by
    rintro t hused rfl
    exact hused hunused
  have hthreads : ∀ t, t ≠ id →
      update s.threads id (newThread stack cr3 exitCodeOut) t =
        s.threads t :=
    fun t ht => update_of_ne ht _ _
  simp only [recordContext, hslot]
  refine ⟨hinv, ?_, ?_, ?_, ?_⟩
  · intro t hactive hrun
    by_cases ht : t = id
    · rw [ht, update_self]
    · rw [update_of_ne ht]
      simp only [System.setThread, hthreads t ht] at hactive hrun ⊢
      exact h.free t hactive hrun
  · intro d t hd htarget
    have ht := hother t (h.inv.used_of_current hd (h.inv.target d t hd htarget))
    simp only [System.setThread, update_of_ne ht]
    exact h.target d t hd htarget
  · intro d t r hd hloaded
    obtain ⟨htarget, hrsp⟩ := h.loaded d t r hd hloaded
    have ht := hother t (h.inv.used_of_current hd (h.inv.target d t hd htarget))
    simp only [System.setThread, hthreads t ht]
    exact ⟨htarget, hrsp⟩
  · intro d t hd hstored
    obtain ⟨hpending, hctx⟩ := h.stored d t hd hstored
    have hactive := (h.inv.pending d t hd hpending).2.1
    have ht := hother t (by rw [hactive]; decide)
    simp only [System.setThread, update_of_ne ht]
    exact ⟨hpending, hctx⟩

/-- The store of the preempted thread's stack pointer. -/
theorem ContextInv.saveRsp
    {prev : Slot} {new rsp : Nat} (hc : c < n)
    (hphase : s.phase c = .save prev next new) (hinv : Inv n n
      ((s.setThread prev { s.threads prev with rsp := rsp }).setPhase c
        (.clear prev next new))) :
    ContextInv n
      ((s.setThread prev { s.threads prev with rsp := rsp }).setPhase c
        (.clear prev next new))
      (update ctx prev (some rsp)) := by
  have hpending : (s.phase c).pending = some prev := by
    rw [hphase]
    rfl
  have htargetNe : ∀ d t, d < n → (s.phase d).target = some t → t ≠ prev := by
    rintro d t hd htarget rfl
    exact h.inv.not_pending_of_target hd htarget hc hpending
  have hnext : (s.phase c).target = some next := by
    rw [hphase]
    rfl
  have hkeep : ∀ t, t ≠ prev →
      update s.threads prev { s.threads prev with rsp := rsp } t =
        s.threads t :=
    fun t ht => update_of_ne ht _ _
  refine ⟨hinv, ?_, ?_, ?_, ?_⟩
  · intro t hactive hrun
    by_cases ht : t = prev
    · subst ht
      -- the thread is still held by this core
      have hheld := (h.inv.pending c t hc hpending).1
      change (update s.threads t _ t).runningOnCore = none at hrun
      rw [update_self] at hrun
      change (s.threads t).runningOnCore = none at hrun
      rw [hheld] at hrun
      cases hrun
    · simp only [System.setPhase, System.setThread, update_of_ne ht]
        at hactive hrun ⊢
      exact h.free t hactive hrun
  · intro d t hd htarget
    have hold : (s.phase d).target = some t := by
      by_cases hdc : d = c
      · subst hdc
        simp only [System.setPhase, update_self, Phase.target] at htarget
        rw [hnext, htarget]
      · simpa only [System.setPhase, System.setThread, update_of_ne hdc]
          using htarget
    have ht := htargetNe d t hd hold
    simp only [System.setPhase, System.setThread, update_of_ne ht]
    exact h.target d t hd hold
  · intro d t r hd hloaded
    by_cases hdc : d = c
    · subst hdc
      simp only [System.setPhase, System.setThread, update_self,
        Phase.loaded, Option.some.injEq, Prod.mk.injEq, Phase.target]
        at hloaded ⊢
      obtain ⟨rfl, rfl⟩ := hloaded
      have ht := htargetNe d next hd hnext
      rw [hkeep next ht]
      exact ⟨rfl, (h.loaded d next new hd (by rw [hphase]; rfl)).2⟩
    · simp only [System.setPhase, System.setThread, update_of_ne hdc]
        at hloaded ⊢
      obtain ⟨htarget, hrsp⟩ := h.loaded d t r hd hloaded
      rw [hkeep t (htargetNe d t hd htarget)]
      exact ⟨htarget, hrsp⟩
  · intro d t hd hstored
    by_cases hdc : d = c
    · subst hdc
      simp only [System.setPhase, System.setThread, update_self,
        Phase.stored, Option.some.injEq] at hstored ⊢
      subst hstored
      rw [update_self, update_self]
      exact ⟨rfl, rfl⟩
    · simp only [System.setPhase, System.setThread, update_of_ne hdc]
        at hstored ⊢
      obtain ⟨hpend, hctx⟩ := h.stored d t hd hstored
      -- two cores never give up the same thread
      have ht : t ≠ prev := by
        rintro rfl
        have hheld := (h.inv.pending d t hd hpend).1
        rw [(h.inv.pending c t hc hpending).1, Option.some.injEq] at hheld
        exact hdc hheld.symm
      rw [update_of_ne ht, hkeep t ht]
      exact ⟨hpend, hctx⟩

/-- The end of a switch: the thread runs, and its context is used up. -/
theorem ContextInv.land
    {threads : Slot → Thread} (hc : c < n) (htarget : (s.phase c).target = some next)
    (hthreads : ∀ t, threads t = s.threads t ∨
      (threads t = (s.threads t).released ∧ (s.phase c).stored = some t))
    (hinv : Inv n n ({ s with threads := threads }.setPhase c .running)) :
    ContextInv n ({ s with threads := threads }.setPhase c .running)
      (update ctx next none) := by
  have hrsp : ∀ t, (threads t).rsp = (s.threads t).rsp := by
    intro t
    rcases hthreads t with heq | ⟨heq, _⟩
    · rw [heq]
    · rw [heq]
      rfl
  have hcur := h.inv.target c next hc htarget
  have hheld := (h.inv.current c next hc hcur).1
  have hphase : ∀ d, d ≠ c →
      ({ s with threads := threads }.setPhase c .running).phase d = s.phase d :=
    fun d hd => update_of_ne hd _ _
  have hself : ({ s with threads := threads }.setPhase c .running).phase c =
      .running := update_self _ _ _
  have htargetNe : ∀ d t, d < n → d ≠ c → (s.phase d).target = some t →
      t ≠ next := by
    rintro d t hd hdc ht rfl
    exact hdc (h.inv.target_injective hd hc ht htarget)
  refine ⟨hinv, ?_, ?_, ?_, ?_⟩
  · intro t hactive hrun
    change (threads t).state = .active at hactive
    change (threads t).runningOnCore = none at hrun
    show _ = some (threads t).rsp
    rw [hrsp]
    rcases hthreads t with heq | ⟨heq, hstored⟩
    · have ht : t ≠ next := by
        rintro rfl
        rw [heq, hheld] at hrun
        cases hrun
      rw [heq] at hactive hrun
      rw [update_of_ne ht]
      exact h.free t hactive hrun
    · obtain ⟨hpending, hctx⟩ := h.stored c t hc hstored
      have ht : t ≠ next := by
        rintro rfl
        exact h.inv.not_pending_of_target hc htarget hc hpending
      rw [update_of_ne ht]
      exact hctx
  · intro d t hd ht
    by_cases hdc : d = c
    · subst hdc
      rw [hself] at ht
      cases ht
    · rw [hphase d hdc] at ht
      show _ = some (threads t).rsp
      rw [update_of_ne (htargetNe d t hd hdc ht), hrsp]
      exact h.target d t hd ht
  · intro d t r hd hloaded
    by_cases hdc : d = c
    · subst hdc
      rw [hself] at hloaded
      cases hloaded
    · rw [hphase d hdc] at hloaded ⊢
      show _ ∧ (threads t).rsp = r
      rw [hrsp]
      exact h.loaded d t r hd hloaded
  · intro d t hd hstored
    by_cases hdc : d = c
    · subst hdc
      rw [hself] at hstored
      cases hstored
    · rw [hphase d hdc] at hstored ⊢
      obtain ⟨hpending, hctx⟩ := h.stored d t hd hstored
      have ht : t ≠ next := by
        rintro rfl
        exact h.inv.not_pending_of_target hc htarget hd hpending
      show _ ∧ _ = some (threads t).rsp
      rw [update_of_ne ht, hrsp]
      exact ⟨hpending, hctx⟩

/-- Every step keeps the invariant. -/
theorem context_step_preserves
    {l : Label} (hstep : step pf n s l = some s') :
    ContextInv n s' (recordContext s l s' ctx) := by
  have hinv := step_preserves h.inv hstep
  cases move_of_step hstep with
  | create _ _ hcreate =>
      exact h.create hcreate
  | stay _ _ =>
      exact h
  | switch hc _ hdecide =>
      obtain ⟨havail, hswitch⟩ := h.inv.switched hc hdecide
      exact h.switched hinv havail hswitch
  | start hc hphase hchoice =>
      obtain ⟨havail, hswitch⟩ := h.inv.switched_start hc hphase hchoice
      exact h.switched hinv havail hswitch
  | @exit core code t _ _ _ hcur _ =>
      refine h.ofPhase hinv rfl ?_ ?_ ?_ ?_ rfl
      · intro u
        by_cases hu : u = t
        · subst hu
          simp [System.setPhase, System.setThread, Thread.exited]
        · simp [System.setPhase, System.setThread, hu]
      · intro u hactive hrun
        by_cases hu : u = t
        · subst hu
          simp [System.setPhase, System.setThread, Thread.exited] at hactive
        · simp only [System.setPhase, System.setThread, update_of_ne hu]
            at hactive hrun
          exact h.free u hactive hrun
      · intro u hu
        cases hu
      · intro u r hu
        cases hu
  | reapStack hc hphase =>
      refine h.ofPhase hinv rfl (fun _ => rfl) h.free ?_ ?_ rfl
      · intro u hu
        exact h.target _ u hc (by rw [hphase]; exact hu)
      · intro u r hu
        cases hu
  | readDiscard hc hphase =>
      refine h.ofPhase hinv rfl (fun _ => rfl) h.free ?_ ?_ rfl
      · intro u hu
        exact h.target _ u hc (by rw [hphase]; exact hu)
      · intro u r hu
        cases hu
        exact ⟨rfl, rfl⟩
  | readRelease hc hphase =>
      refine h.ofPhase hinv rfl (fun _ => rfl) h.free ?_ ?_ rfl
      · intro u hu
        exact h.target _ u hc (by rw [hphase]; exact hu)
      · intro u r hu
        cases hu
        exact ⟨rfl, rfl⟩
  | saveRsp hc hphase =>
      simp only [recordContext, hphase]
      exact h.saveRsp hc hphase hinv
  | @clearFlag core new prev next hc hphase =>
      simp only [recordContext, hphase]
      refine h.land hc (by rw [hphase]; rfl) ?_ hinv
      intro t
      by_cases ht : t = prev
      · subst ht
        exact Or.inr ⟨update_self _ _ _, by rw [hphase]; rfl⟩
      · exact Or.inl (update_of_ne ht _ _)
  | switchTo hc hphase =>
      simp only [recordContext, hphase]
      exact h.land hc (by rw [hphase]; rfl) (fun _ => Or.inl rfl) hinv
  | kmalloc _ _ _ =>
      exact ⟨hinv, h.free, h.target, h.loaded, h.stored⟩
  | kfree _ _ =>
      exact ⟨hinv, h.free, h.target, h.loaded, h.stored⟩

end Steps

section Runs

/-- After booting no core is on its way anywhere. -/
theorem contextInv_boot
    {s₀ s₁ : System} (hboot : boot pf n s₀ = .ok s₁) :
    ContextInv n s₁ (initialContexts s₁) := by
  have hphase := phase_of_boot hboot
  refine ⟨inv_boot hboot, ?_, ?_, ?_, ?_⟩
  · intro t hactive _
    exact if_pos hactive
  · intro c t _ ht
    rw [hphase] at ht
    cases ht
  · intro c t r _ ht
    rw [hphase] at ht
    cases ht
  · intro c t _ ht
    rw [hphase] at ht
    cases ht

/-- The thread a step switches into, and the stack pointer that it loads. -/
def switchesInto (s : System) : Label → Option (Slot × Nat)
  | .switchTo core =>
      match s.phase core with
      | .jump next rsp => some (next, rsp)
      | _ => none
  | .clearFlag core =>
      match s.phase core with
      | .clear _ next rsp => some (next, rsp)
      | _ => none
  | _ => none

/--
**Contexts.**  In every run, a step that switches a core into a thread loads the
context that was saved for the thread last, by its last preemption or by its
creation if it has not run since; and no core still has to store the thread's
stack pointer or to clear its flag.
-/
theorem resumes_from_saved_context
    (pf : Platform) (n : Nat) (s₀ s₁ s s' : System) (labels : List Label)
    (ctx : Contexts) (l : Label) (t : Slot) (r : Nat)
    (hboot : boot pf n s₀ = .ok s₁)
    (hrun : runAll (withHistory (step pf n) recordContext)
      (s₁, initialContexts s₁) labels = some (s, ctx))
    (hstep : step pf n s l = some s')
    (hswitch : switchesInto s l = some (t, r)) :
    ctx t = some r ∧ (s.threads t).rsp = r ∧
      ∀ d, d < n → (s.phase d).pending ≠ some t := by
  have hinv : ContextInv n s ctx := by
    refine runAll_invariant (P := fun x => ContextInv n x.1 x.2) ?_
      (contextInv_boot hboot) hrun
    intro x l y hx hcall
    obtain ⟨hs, hy⟩ := withHistory_eq_some.mp hcall
    rw [hy]
    exact context_step_preserves hx hs
  have hloaded : ∃ c, c < n ∧ (s.phase c).loaded = some (t, r) := by
    cases move_of_step hstep with
    | @clearFlag core _ _ _ hc hphase =>
        simp only [switchesInto, hphase] at hswitch
        exact ⟨core, hc, by rw [hphase]; exact hswitch⟩
    | @switchTo core _ _ hc hphase =>
        simp only [switchesInto, hphase] at hswitch
        exact ⟨core, hc, by rw [hphase]; exact hswitch⟩
    | _ =>
        cases hswitch
  obtain ⟨c, hc, hloaded⟩ := hloaded
  obtain ⟨htarget, hrsp⟩ := hinv.loaded c t r hc hloaded
  refine ⟨?_, hrsp, fun d hd => hinv.inv.not_pending_of_target hc htarget hd⟩
  rw [hinv.target c t hc htarget, hrsp]

end Runs

/-- A thread that core 0 preempts and core 1 resumes. -/
def migrationLabels : List Label :=
  [.create 0 0x100300 0 0x1000 0, .create 0 0x100400 0 0x1000 0,
    .start 0, .readRsp 0, .switchTo 0, .schedule 0, .readRsp 0,
    .saveRsp 0 0x1008000, .clearFlag 0, .start 1, .readRsp 1]

/-- Its slot; the idle threads have the first two. -/
def migratedSlot : Slot := 2

/-- Core 1 loads what core 0 has saved. -/
theorem resumes_from_saved_context_migrated :
    ∃ s₁ s ctx,
      boot somePlatform 2 zeroed = .ok s₁ ∧
        runAll (withHistory (step somePlatform 2) recordContext)
          (s₁, initialContexts s₁) migrationLabels = some (s, ctx) ∧
        switchesInto s (.switchTo 1) = some (migratedSlot, 0x1008000) ∧
        ctx migratedSlot = some 0x1008000 ∧ (s.threads migratedSlot).rsp = 0x1008000 ∧
        ∀ d, d < 2 → (s.phase d).pending ≠ some migratedSlot := by
  have hfinal :
      ((boot somePlatform 2 zeroed).toOption.bind (fun s₁ =>
        runAll (withHistory (step somePlatform 2) recordContext)
          (s₁, initialContexts s₁) migrationLabels)).any (fun x =>
        switchesInto x.1 (.switchTo 1) = some (migratedSlot, 0x1008000) ∧
          (step somePlatform 2 x.1 (.switchTo 1)).isSome) := by
    decide
  obtain ⟨⟨s, ctx⟩, hx, hspec⟩ := (Option.any_eq_true _ _).mp hfinal
  obtain ⟨s₁, hopt, hrun⟩ := Option.bind_eq_some_iff.mp hx
  obtain ⟨hswitch, hstep⟩ := of_decide_eq_true hspec
  obtain ⟨s', hstep⟩ := Option.isSome_iff_exists.mp hstep
  have hboot := Fallible.toOption_eq_some.mp hopt
  exact ⟨s₁, s, ctx, hboot, hrun, hswitch,
    resumes_from_saved_context _ 2 zeroed s₁ s s' _ ctx _ _ _ hboot hrun hstep
      hswitch⟩

end Scheduler
end RebornOS
