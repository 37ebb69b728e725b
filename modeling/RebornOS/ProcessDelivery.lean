import RebornOS.ProcessCensus
import RebornOS.ProcessFrames

/-!
# The exit code reaches the waiter

`process_spawn_args_and_wait` reads the child's exit code from a local variable
that the child writes through a pointer.  Nothing tells the waiter that the
write has happened except that the child's slot is no longer `ACTIVE`, and by
then the slot may have had other occupants.

The frames of waiters, the pointers of their children and the recorded writes are
related as follows.  A waiter's frame has not been written to and its child is
alive and still has the pointer, or the frame holds what the child has passed to
`thread_exit_code` and the child will not write again.  The child is marked only
after its write, so the second case holds once the poll fails.
-/

namespace RebornOS
namespace Process

open Scheduler LabeledRun Function

variable {pf : Platform} {cell n : Nat} {m m' : Machine} {h : History} {next : Task}
  {t tid w : Slot} {e : Event} {masked : Bool} {s₀ s₁ : System}

/-- The thread has made its write, or has found that there is none to make. -/
def Task.sent : Task → Bool
  | exitSent _ _ => true
  | _ => false

/-- The argument of `thread_exit_code` while it is still to be delivered. -/
def Task.code : Task → Option Int
  | exitCore _ code _ => some code
  | exitTid _ code _ => some code
  | _ => none

/-- The writes to `cell` since the thread in `w` has entered its call. -/
def History.since (h : History) (w : Slot) (cell : Nat) : List Write :=
  (h.writes.drop (h.opened w)).filter (fun x => x.cell = cell)

/-- The child is alive in its slot and has yet to write. -/
structure Unwritten (m : Machine) (h : History) (w : Slot) (cell : Nat) (tid : Slot) :
    Prop where
  occupant : h.number tid = h.child w
  active : (m.sys.threads tid).state = .active
  out : (m.sys.threads tid).exitCodeOut = cell
  unsent : (m.task tid).sent = false
  since : h.since w cell = []

/-- The child has written once, and it will not write again. -/
structure Written (m : Machine) (h : History) (w : Slot) (cell : Nat) (tid : Slot)
    (code : Int) : Prop where
  passed : h.passed (h.child w) = some code
  stored : m.sys.exitCodes cell = code
  since : h.since w cell = [⟨cell, h.child w, code⟩]
  done :
    h.ended (h.child w) = true ∨
      (h.number tid = h.child w ∧ (m.sys.threads tid).state = .active ∧
        (m.task tid).sent = true)

/-- The frames of waiters and the pointers of their children. -/
structure Delivery (m : Machine) (h : History) : Prop where
  opened :
    ∀ w cell, (m.task w).cell = some cell → h.opened w ≤ h.writes.length
  /-- Nobody has written before the child exists. -/
  quiet :
    ∀ w cell, (m.task w).cell = some cell → (m.task w).awaits = none →
      h.since w cell = []
  frame :
    ∀ w cell tid, (m.task w).cell = some cell → (m.task w).awaits = some tid →
      Unwritten m h w cell tid ∨ ∃ code, Written m h w cell tid code
  /-- A pointer that may still be used belongs to a frame that waits for it. -/
  pointer :
    ∀ u, (m.sys.threads u).state = .active → (m.sys.threads u).exitCodeOut ≠ 0 →
      (m.task u).sent = true ∨
        ∃ w, (m.task w).cell = some (m.sys.threads u).exitCodeOut ∧
          (m.task w).awaits = some u ∧ h.child w = h.number u
  passed :
    ∀ t code, (m.task t).code = some code → h.passed (h.number t) = some code

section Delivery

variable {h' : History}

theorem sent_update
    {task : Slot → Task} (hnext : next.sent = (task w).sent) :
    ∀ t, (update task w next t).sent = (task t).sent :=
  (forall_update_iff task
    (fun t (task' : Task) => task'.sent = (task t).sent)).mpr
      ⟨hnext, fun _ _ => rfl⟩

/-- The frame of a waiter is the same after a step that leaves it and its child alone. -/
theorem frame_keep
    (hframe : Unwritten m h w cell tid ∨ ∃ code, Written m h w cell tid code)
    (hchild : h'.child w = h.child w) (hsince : h'.since w cell = h.since w cell)
    (hcodes : m'.sys.exitCodes cell = m.sys.exitCodes cell)
    (hpassed : ∀ code, Written m h w cell tid code →
      h'.passed (h.child w) = some code)
    (hended : h.ended (h.child w) = true → h'.ended (h.child w) = true)
    (halive : Unwritten m h w cell tid ∨ (m.task tid).sent = true →
      (m.sys.threads tid).state = .active →
      h'.number tid = h.number tid ∧ (m'.sys.threads tid).state = .active ∧
        (m'.sys.threads tid).exitCodeOut = (m.sys.threads tid).exitCodeOut ∧
        (m'.task tid).sent = (m.task tid).sent) :
    Unwritten m' h' w cell tid ∨ ∃ code, Written m' h' w cell tid code := by
  rcases hframe with hun | ⟨code, hwr⟩
  · obtain ⟨hnumber, hactive, hout, hsent⟩ := halive (Or.inl hun) hun.active
    refine Or.inl ⟨?_, hactive, hout.trans hun.out, hsent.trans hun.unsent,
      hsince.trans hun.since⟩
    rw [hnumber, hchild, hun.occupant]
  · refine Or.inr ⟨code, ?_, hcodes.trans hwr.stored, ?_, ?_⟩
    · rw [hchild]
      exact hpassed code hwr
    · rw [hsince, hchild, hwr.since]
    · rw [hchild]
      rcases hwr.done with hdone | ⟨hoccupant, hactive, hs⟩
      · exact Or.inl (hended hdone)
      · obtain ⟨hnumber, hactive', _, hsent⟩ := halive (Or.inr hs) hactive
        exact Or.inr ⟨hnumber.trans hoccupant, hactive', hsent.trans hs⟩

/-- Steps that touch neither a frame nor a pointer. -/
theorem Delivery.congr
    (hd : Delivery m h)
    (hsame : h'.opened = h.opened ∧ h'.writes = h.writes ∧ h'.child = h.child ∧
      h'.number = h.number ∧ h'.ended = h.ended)
    (hview : ∀ t, (m'.task t).cell = (m.task t).cell ∧
      (m'.task t).awaits = (m.task t).awaits ∧
      (m'.task t).sent = (m.task t).sent)
    (hkeep : KeepsSlots m.sys m'.sys)
    (hwritten : ∀ w cell tid code, Written m h w cell tid code →
      h'.passed (h.child w) = some code)
    (hpassed : ∀ t code, (m'.task t).code = some code →
      h'.passed (h.number t) = some code) : Delivery m' h' := by
  obtain ⟨hopened, hwrites, hchild, hnumber, hended⟩ := hsame
  have hsince : ∀ w cell, h'.since w cell = h.since w cell := by
    intro w cell
    rw [History.since, History.since, hopened, hwrites]
  constructor
  · intro w cell hcell
    rw [(hview w).1] at hcell
    rw [hopened, hwrites]
    exact hd.opened w cell hcell
  · intro w cell hcell hawaits
    rw [(hview w).1] at hcell
    rw [(hview w).2.1] at hawaits
    rw [hsince]
    exact hd.quiet w cell hcell hawaits
  · intro w cell tid hcell hawaits
    rw [(hview w).1] at hcell
    rw [(hview w).2.1] at hawaits
    refine frame_keep (hd.frame w cell tid hcell hawaits) (congrFun hchild w)
      (hsince w cell) (congrFun hkeep.codes cell) (hwritten w cell tid) ?_ ?_
    · rw [hended]
      exact id
    · intro _ hactive
      exact ⟨congrFun hnumber tid, (hkeep.active tid).mpr hactive, hkeep.out tid,
        (hview tid).2.2⟩
  · intro u hactive hout
    rw [hkeep.out] at hout ⊢
    rw [(hview u).2.2]
    rcases hd.pointer u ((hkeep.active u).mp hactive) hout with hsent | ⟨w, hw⟩
    · exact Or.inl hsent
    · refine Or.inr ⟨w, ?_⟩
      rw [(hview w).1, (hview w).2.1, hchild, hnumber]
      exact hw
  · rw [hnumber]
    exact hpassed

/-- The same for a step that only gives one thread a new task. -/
theorem Delivery.retask
    (hd : Delivery m h) (htask : m'.task = update m.task w next)
    (hkeep : KeepsSlots m.sys m'.sys) (hcell : next.cell = (m.task w).cell)
    (hawaits : next.awaits = (m.task w).awaits) (hsent : next.sent = (m.task w).sent)
    (hcode : ∀ code, next.code = some code → (m.task w).code = some code) :
    Delivery m' h := by
  refine hd.congr ⟨rfl, rfl, rfl, rfl, rfl⟩ ?_ hkeep (fun _ _ _ _ hwr => hwr.passed) ?_
  · rw [htask]
    exact (forall_update_iff m.task (fun t (task' : Task) =>
      task'.cell = (m.task t).cell ∧ task'.awaits = (m.task t).awaits ∧
        task'.sent = (m.task t).sent)).mpr
      ⟨⟨hcell, hawaits, hsent⟩, fun _ _ => ⟨rfl, rfl, rfl⟩⟩
  · rw [htask]
    exact (forall_update_iff m.task (fun t (task' : Task) =>
      ∀ code, task'.code = some code → h.passed (h.number t) = some code)).mpr
      ⟨fun code hc => hd.passed w code (hcode code hc), fun t _ => hd.passed t⟩

/-- A frame goes away; the child of a waiter has to be gone by then. -/
theorem Delivery.close
    (hd : Delivery m h) (htask : m'.task = update m.task w .other)
    (hsys : m'.sys = m.sys) (hsent : (m.task w).sent = false)
    (hdead : ∀ tid, (m.task w).awaits = some tid →
      (m.sys.threads tid).state ≠ .active) : Delivery m' h := by
  have hsent' : ∀ t, (m'.task t).sent = (m.task t).sent := by
    rw [htask]
    exact sent_update hsent.symm
  have hold : ∀ u cell, (m'.task u).cell = some cell → m'.task u = m.task u := by
    intro u cell hu
    rw [htask] at hu ⊢
    by_cases huw : u = w
    · rw [huw, update_self] at hu
      cases hu
    · exact update_of_ne huw _ _
  constructor
  · intro u cell hu
    rw [hold u cell hu] at hu
    exact hd.opened u cell hu
  · intro u cell hu hawaits
    have hsame := hold u cell hu
    rw [hsame] at hu hawaits
    exact hd.quiet u cell hu hawaits
  · intro u cell tid hu hawaits
    have hsame := hold u cell hu
    rw [hsame] at hu hawaits
    refine frame_keep (hd.frame u cell tid hu hawaits) rfl rfl (by rw [hsys])
      (fun _ hwr => hwr.passed) id ?_
    intro _ hactive
    exact ⟨rfl, by rw [hsys, hactive], by rw [hsys], hsent' tid⟩
  · intro u hactive hout
    rw [hsys] at hactive hout ⊢
    rw [hsent']
    rcases hd.pointer u hactive hout with hs | ⟨w', hcell, hawaits, hchild⟩
    · exact Or.inl hs
    · have hne : w' ≠ w := by
        rintro rfl
        exact hdead u hawaits hactive
      refine Or.inr ⟨w', ?_⟩
      rw [htask, update_of_ne hne]
      exact ⟨hcell, hawaits, hchild⟩
  · rw [htask]
    exact (forall_update_iff m.task (fun t (task' : Task) =>
      ∀ code, task'.code = some code → h.passed (h.number t) = some code)).mpr
      ⟨nofun, fun t _ => hd.passed t⟩

/-- A new frame at an address that no live frame has. -/
theorem Delivery.enter
    (hd : Delivery m h) (htask : m.task w = .other) (hfresh : m.FreshCell cell) :
    Delivery ((m.store cell 0).setTask w (.spawning cell))
      { h with opened := update h.opened w h.writes.length } := by
  have hsent : ∀ t, (update m.task w (.spawning cell) t).sent =
      (m.task t).sent := sent_update (by rw [htask]; rfl)
  have hopened : ∀ u, u ≠ w →
      update h.opened w h.writes.length u = h.opened u :=
    fun u hu => update_of_ne hu _ _
  have hsince : ∀ u c, u ≠ w →
      History.since { h with
        opened := update h.opened w h.writes.length } u c = h.since u c := by
    intro u c hu
    simp only [History.since, hopened u hu]
  constructor
  · intro u c hu
    show update h.opened w h.writes.length u ≤ h.writes.length
    by_cases huw : u = w
    · rw [huw, update_self]
    · rw [hopened u huw]
      exact hd.opened u c ((congrArg Task.cell (update_of_ne huw _ _)).symm.trans hu)
  · intro u c hu hawaits
    by_cases huw : u = w
    · simp [History.since, huw]
    · rw [hsince u c huw]
      have hold : (Machine.setTask (m.store cell 0) w (.spawning cell)).task u = m.task u :=
        update_of_ne huw _ _
      rw [hold] at hu hawaits
      exact hd.quiet u c hu hawaits
  · intro u c tid hu hawaits
    have huw : u ≠ w := by
      rintro rfl
      rw [Machine.setTask_task_self] at hawaits
      cases hawaits
    have hold : (Machine.setTask (m.store cell 0) w (.spawning cell)).task u = m.task u :=
      update_of_ne huw _ _
    rw [hold] at hu hawaits
    have hne : c ≠ cell := by
      rintro rfl
      exact hfresh.2 u hu
    exact frame_keep (hd.frame u c tid hu hawaits) rfl (hsince u c huw)
      (update_of_ne hne _ _) (fun _ hwr => hwr.passed) id
      (fun _ hactive => ⟨rfl, hactive, rfl, hsent tid⟩)
  · intro u hactive hout
    rcases hd.pointer u hactive hout with hs | ⟨w', hcell, hawaits, hchild⟩
    · exact Or.inl ((hsent u).trans hs)
    · have hne : w' ≠ w := by
        rintro rfl
        rw [htask] at hawaits
        cases hawaits
      have hold : (Machine.setTask (m.store cell 0) w (.spawning cell)).task w' =
          m.task w' := update_of_ne hne _ _
      refine Or.inr ⟨w', ?_⟩
      rw [hold]
      exact ⟨hcell, hawaits, hchild⟩
  · exact (forall_update_iff m.task (fun t (task' : Task) =>
      ∀ code, task'.code = some code → h.passed (h.number t) = some code)).mpr
      ⟨nofun, fun t _ => hd.passed t⟩

/--
A new thread.  Its pointer is null, or it is the child of a thread that was about
to spawn it and now waits for it.
-/
theorem Delivery.addThread
    {id : Slot} {out : Nat}
    (hd : Delivery m h) (hframes : Frames m)
    (hcreated : Created m.sys id out m'.sys)
    (hsame : h'.opened = h.opened ∧ h'.writes = h.writes ∧ h'.passed = h.passed ∧
      h'.ended = h.ended ∧ h'.number = update h.number id h.created)
    (hid : m'.task id = .other)
    (hslot : ∀ u, u ≠ id →
      (m'.task u = m.task u ∧ h'.child u = h.child u) ∨
        (m.task u = .spawning out ∧ m'.task u = .polling out id ∧
          h'.child u = h.created))
    (hpointer : out = 0 ∨ ∃ w, m'.task w = .polling out id ∧ h'.child w = h.created) :
    Delivery m' h' := by
  obtain ⟨hopened, hwrites, hpassed, hended, hnumber⟩ := hsame
  have hsince : ∀ w cell, h'.since w cell = h.since w cell := by
    intro w cell
    rw [History.since, History.since, hopened, hwrites]
  have hne : ∀ u cell, (m'.task u).cell = some cell → u ≠ id := by
    rintro u cell hu rfl
    rw [hid] at hu
    cases hu
  have hkept : ∀ u, u ≠ id → h'.number u = h.number u := by
    intro u hu
    rw [hnumber, update_of_ne hu]
  have hsent : ∀ u, u ≠ id → (m'.task u).sent = (m.task u).sent := by
    intro u hu
    rcases hslot u hu with ⟨htask, _⟩ | ⟨hold, hnew, _⟩
    · rw [htask]
    · rw [hold, hnew]
      rfl
  constructor
  · intro u cell hu
    rw [hopened, hwrites]
    rcases hslot u (hne u cell hu) with ⟨htask, _⟩ | ⟨hold, hnew, _⟩
    · exact hd.opened u cell (htask ▸ hu)
    · exact hd.opened u out (by rw [hold]; rfl)
  · intro u cell hu hawaits
    rw [hsince]
    rcases hslot u (hne u cell hu) with ⟨htask, _⟩ | ⟨_, hnew, _⟩
    · rw [htask] at hu hawaits
      exact hd.quiet u cell hu hawaits
    · rw [hnew] at hawaits
      cases hawaits
  · intro u cell tid hu hawaits
    rcases hslot u (hne u cell hu) with ⟨htask, hchild⟩ | ⟨hold, hnew, hchild⟩
    · rw [htask] at hu hawaits
      refine frame_keep (hd.frame u cell tid hu hawaits) hchild (hsince u cell)
        (by rw [hcreated.codes]) (fun _ hwr => by rw [hpassed]; exact hwr.passed)
        (fun he => by rw [hended]; exact he) ?_
      intro _ hactive
      have htid := hcreated.ne_of_active hactive
      rw [hcreated.others tid htid]
      exact ⟨hkept tid htid, hactive, rfl, hsent tid htid⟩
    · -- the child has just been created
      rw [hnew] at hu hawaits
      cases hu
      cases hawaits
      refine Or.inl ⟨?_, hcreated.active, hcreated.out, by rw [hid]; rfl, ?_⟩
      · rw [hnumber, hchild, update_self]
      · rw [hsince]
        exact hd.quiet u out (by rw [hold]; rfl) (by rw [hold]; rfl)
  · intro u hactive hout
    by_cases hu : u = id
    · subst hu
      rw [hcreated.out] at hout ⊢
      obtain ⟨w, hw, hchild⟩ := hpointer.resolve_left hout
      refine Or.inr ⟨w, by rw [hw]; rfl, by rw [hw]; rfl, ?_⟩
      rw [hchild, hnumber, update_self]
    · rw [hcreated.others u hu] at hactive hout ⊢
      rcases hd.pointer u hactive hout with hs | ⟨w, hcell, hawaits, hchild⟩
      · exact Or.inl ((hsent u hu).trans hs)
      · have hbusy : (m.task w).busy = true := by
          cases htask : m.task w <;> rw [htask] at hawaits <;> first | rfl | cases hawaits
        have hw := hcreated.ne_of_active (hframes.active w hbusy)
        rcases hslot w hw with ⟨htask, hchild'⟩ | ⟨hold, _, _⟩
        · refine Or.inr ⟨w, ?_⟩
          rw [htask, hchild', hkept u hu]
          exact ⟨hcell, hawaits, hchild⟩
        · rw [hold] at hawaits
          cases hawaits
  · intro t code ht
    have htid : t ≠ id := by
      rintro rfl
      rw [hid] at ht
      cases ht
    rw [hpassed, hkept t htid]
    rcases hslot t htid with ⟨htask, _⟩ | ⟨_, hnew, _⟩
    · exact hd.passed t code (htask ▸ ht)
    · rw [hnew] at ht
      cases ht

/-- The pointer of a thread that has yet to write. -/
theorem Delivery.frame_of_pointer
    (hd : Delivery m h) (hcensus : Census m h)
    (hactive : (m.sys.threads t).state = .active) (hunsent : (m.task t).sent = false)
    (hout : (m.sys.threads t).exitCodeOut ≠ 0) :
    ∃ w, (m.task w).cell = some (m.sys.threads t).exitCodeOut ∧
      (m.task w).awaits = some t ∧
      Unwritten m h w (m.sys.threads t).exitCodeOut t := by
  rcases hd.pointer t hactive hout with hs | ⟨w, hcell, hawaits, hchild⟩
  · rw [hunsent] at hs
    cases hs
  · refine ⟨w, hcell, hawaits, ?_⟩
    rcases hd.frame w _ t hcell hawaits with hun | ⟨code, hwr⟩
    · exact hun
    · -- a child that has written is past its write or has ended
      rcases hwr.done with hended | ⟨_, _, hs⟩
      · rw [hchild, hcensus.active t hactive] at hended
        cases hended
      · rw [hunsent] at hs
        cases hs

/-- What happens to the writes since a frame was opened. -/
theorem since_append
    {x : Write} (hopened : h.opened w ≤ h.writes.length) :
    History.since { h with writes := h.writes ++ [x] } w cell =
      h.since w cell ++ if x.cell = cell then [x] else [] := by
  simp only [History.since, List.drop_append_of_le_length hopened, List.filter_append,
    List.filter_cons, List.filter_nil, decide_eq_true_eq]

/-- A thread leaves the stage in which it may write. -/
theorem Delivery.sent
    {code : Int} (hd : Delivery m h) (hold : m.task t = .exitTid masked code t)
    (htask : m'.task = update m.task t (.exitSent masked t))
    (hthreads : m'.sys.threads = m.sys.threads)
    (hsame : h'.opened = h.opened ∧ h'.child = h.child ∧ h'.number = h.number ∧
      h'.passed = h.passed) (hlength : h.writes.length ≤ h'.writes.length)
    (hquiet : ∀ w cell, (m.task w).cell = some cell → (m.task w).awaits = none →
      h'.since w cell = h.since w cell)
    (hframe : ∀ w cell tid, (m.task w).cell = some cell →
      (m.task w).awaits = some tid →
        Unwritten m' h' w cell tid ∨ ∃ code, Written m' h' w cell tid code) :
    Delivery m' h' := by
  obtain ⟨hopened, hchild, hnumber, hpassed⟩ := hsame
  have hkept : ∀ u, u ≠ t → m'.task u = m.task u := by
    intro u hu
    rw [htask, update_of_ne hu]
  have hself : m'.task t = .exitSent masked t := by
    rw [htask, update_self]
  have hcells : ∀ u, (m'.task u).cell = (m.task u).cell ∧
      (m'.task u).awaits = (m.task u).awaits := by
    intro u
    by_cases hu : u = t
    · subst hu
      rw [hself, hold]
      exact ⟨rfl, rfl⟩
    · rw [hkept u hu]
      exact ⟨rfl, rfl⟩
  constructor
  · intro u cell hu
    rw [(hcells u).1] at hu
    rw [hopened]
    exact (hd.opened u cell hu).trans hlength
  · intro u cell hu hawaits
    rw [(hcells u).1] at hu
    rw [(hcells u).2] at hawaits
    rw [hquiet u cell hu hawaits]
    exact hd.quiet u cell hu hawaits
  · intro u cell tid hu hawaits
    rw [(hcells u).1] at hu
    rw [(hcells u).2] at hawaits
    exact hframe u cell tid hu hawaits
  · intro u hactive hout
    rw [hthreads] at hactive hout ⊢
    by_cases hu : u = t
    · subst hu
      rw [hself]
      exact Or.inl rfl
    · rw [hkept u hu]
      rcases hd.pointer u hactive hout with hs | ⟨w, hw⟩
      · exact Or.inl hs
      · refine Or.inr ⟨w, ?_⟩
        rw [(hcells w).1, (hcells w).2, hchild, hnumber]
        exact hw
  · intro u code' hu
    have hut : u ≠ t := by
      rintro rfl
      rw [hself] at hu
      cases hu
    rw [hkept u hut] at hu
    rw [hpassed, hnumber]
    exact hd.passed u code' hu

/-- A frame that another pointer leads to does not see the step of `t`. -/
theorem frame_other
    {code : Int} (hold : m.task t = .exitTid masked code t)
    (htask : m'.task = update m.task t (.exitSent masked t))
    (hthreads : m'.sys.threads = m.sys.threads)
    (hcodes : m'.sys.exitCodes cell = m.sys.exitCodes cell)
    (hsame : h'.child = h.child ∧ h'.number = h.number ∧ h'.passed = h.passed ∧
      h'.ended = h.ended) (hsince : h'.since w cell = h.since w cell)
    (hne : (m.sys.threads t).exitCodeOut ≠ cell)
    (hframe : Unwritten m h w cell tid ∨ ∃ code, Written m h w cell tid code) :
    Unwritten m' h' w cell tid ∨ ∃ code, Written m' h' w cell tid code := by
  obtain ⟨hchild, hnumber, hpassed, hended⟩ := hsame
  refine frame_keep hframe (congrFun hchild w) hsince hcodes
    (fun _ hwr => by rw [hpassed]; exact hwr.passed)
    (fun he => by rw [hended]; exact he) ?_
  intro hstage hactive
  have htid : tid ≠ t := by
    rintro rfl
    rcases hstage with hun | hs
    · exact hne hun.out
    · rw [hold] at hs
      cases hs
  rw [hnumber, hthreads, htask, update_of_ne htid]
  exact ⟨rfl, hactive, rfl, rfl⟩

/-- A caller with a null pointer has nothing to deliver. -/
theorem Delivery.sendNull
    {code : Int} (hd : Delivery m h) (hframes : Frames m)
    (htask : m.task t = .exitTid masked code t)
    (hout : (m.sys.threads t).exitCodeOut = 0) :
    Delivery (m.setTask t (.exitSent masked t)) h := by
  refine hd.sent htask rfl rfl ⟨rfl, rfl, rfl, rfl⟩ (Nat.le_refl _)
    (fun _ _ _ _ => rfl) ?_
  intro w cell tid hcell hawaits
  refine frame_other htask rfl rfl rfl ⟨rfl, rfl, rfl, rfl⟩ rfl ?_
    (hd.frame w cell tid hcell hawaits)
  rw [hout]
  exact (hframes.cell_ne_zero w cell hcell).symm

/-- The caller delivers its exit code to the frame that waits for it. -/
theorem Delivery.send
    {code : Int} (hd : Delivery m h) (hframes : Frames m) (hcensus : Census m h)
    (htask : m.task t = .exitTid masked code t)
    (hactive : (m.sys.threads t).state = .active)
    (hout : (m.sys.threads t).exitCodeOut ≠ 0) :
    Delivery
      ((m.store (m.sys.threads t).exitCodeOut code).setTask t (.exitSent masked t))
      { h with
        writes :=
          h.writes ++ [⟨(m.sys.threads t).exitCodeOut, h.number t, code⟩] } := by
  obtain ⟨w₀, hcell₀, hawaits₀, hun₀⟩ :=
    hd.frame_of_pointer hcensus hactive (by rw [htask]; rfl) hout
  -- the pointer leads to no other live frame
  have hunique : ∀ w, (m.task w).cell = some (m.sys.threads t).exitCodeOut → w = w₀ :=
    fun w hw => hframes.cell_injective w w₀ _ hw hcell₀
  have hsince : ∀ w cell, (m.task w).cell = some cell →
      (m.sys.threads t).exitCodeOut ≠ cell →
      History.since { h with
        writes :=
          h.writes ++ [⟨(m.sys.threads t).exitCodeOut, h.number t, code⟩] } w cell =
        h.since w cell := by
    intro w cell hw hne
    rw [since_append (hd.opened w cell hw), if_neg hne, List.append_nil]
  refine hd.sent htask rfl rfl ⟨rfl, rfl, rfl, rfl⟩ (by simp) ?_ ?_
  · intro w cell hw hawaits
    refine hsince w cell hw ?_
    rintro rfl
    rw [hunique w hw, hawaits₀] at hawaits
    cases hawaits
  · intro w cell tid hw hawaits
    by_cases hne : (m.sys.threads t).exitCodeOut = cell
    · subst hne
      have hw₀ := hunique w hw
      subst hw₀
      rw [hawaits₀] at hawaits
      cases hawaits
      refine Or.inr ⟨code, ?_, update_self _ _ _, ?_, Or.inr ⟨?_, hactive, ?_⟩⟩
      · show h.passed (h.child w) = some code
        rw [← hun₀.occupant]
        exact hd.passed t code (by rw [htask]; rfl)
      · rw [since_append (hd.opened w _ hw), hun₀.since, if_pos rfl]
        show [Write.mk _ (h.number t) code] = [Write.mk _ (h.child w) code]
        rw [hun₀.occupant]
      · exact hun₀.occupant
      · rw [Machine.setTask_task_self]
        rfl
    · exact frame_other (h := h) htask rfl rfl
        (update_of_ne (Ne.symm hne) _ _) ⟨rfl, rfl, rfl, rfl⟩
        (hsince w cell hw hne) hne (hd.frame w cell tid hw hawaits)

/-- The caller marks its slot. -/
theorem Delivery.mark
    (hd : Delivery m h) (hold : m.task t = .exitSent masked t)
    (htask : m'.task = update m.task t .exitLoop) (hthreads : m'.sys.threads =
      update m.sys.threads t (m.sys.threads t).exited)
    (hcodes : m'.sys.exitCodes = m.sys.exitCodes) :
    Delivery m' { h with ended := update h.ended (h.number t) true } := by
  have hthread : ∀ u, u ≠ t → m'.sys.threads u = m.sys.threads u := by
    intro u hu
    rw [hthreads, update_of_ne hu]
  have hkept : ∀ u, u ≠ t → m'.task u = m.task u := by
    intro u hu
    rw [htask, update_of_ne hu]
  have hself : m'.task t = .exitLoop := by
    rw [htask, update_self]
  have hne : ∀ u cell, (m'.task u).cell = some cell → u ≠ t := by
    rintro u cell hu rfl
    rw [hself] at hu
    cases hu
  have hended : ∀ k, h.ended k = true →
      update h.ended (h.number t) true k = true := by
    intro k hk
    by_cases hkt : k = h.number t
    · rw [hkt, update_self]
    · rw [update_of_ne hkt, hk]
  constructor
  · intro u cell hu
    rw [hkept u (hne u cell hu)] at hu
    exact hd.opened u cell hu
  · intro u cell hu hawaits
    have hsame := hkept u (hne u cell hu)
    rw [hsame] at hu hawaits
    exact hd.quiet u cell hu hawaits
  · intro u cell tid hu hawaits
    have hsame := hkept u (hne u cell hu)
    rw [hsame] at hu hawaits
    have hframe := hd.frame u cell tid hu hawaits
    by_cases htid : tid = t
    · -- the child that ends here has written before
      subst htid
      rcases hframe with hun | ⟨code, hwr⟩
      · have hs := hun.unsent
        rw [hold] at hs
        cases hs
      · refine Or.inr ⟨code, hwr.passed, hcodes ▸ hwr.stored, hwr.since, Or.inl ?_⟩
        rcases hwr.done with hdone | ⟨hoccupant, _, _⟩
        · exact hended _ hdone
        · show update h.ended (h.number tid) true (h.child u) = true
          rw [← hoccupant, update_self]
    · refine frame_keep hframe rfl rfl (congrFun hcodes cell)
        (fun _ hwr => hwr.passed) (hended _) ?_
      intro _ hactive
      rw [hthread tid htid, hkept tid htid]
      exact ⟨rfl, hactive, rfl, rfl⟩
  · intro u hactive hout
    have hut : u ≠ t := by
      rintro rfl
      rw [hthreads, update_self] at hactive
      cases hactive
    rw [hthread u hut] at hactive hout ⊢
    rw [hkept u hut]
    rcases hd.pointer u hactive hout with hs | ⟨w, hcell, hawaits, hchild⟩
    · exact Or.inl hs
    · have hwt : w ≠ t := by
        rintro rfl
        rw [hold] at hawaits
        cases hawaits
      refine Or.inr ⟨w, ?_⟩
      rw [hkept w hwt]
      exact ⟨hcell, hawaits, hchild⟩
  · intro u code hu
    have hut : u ≠ t := by
      rintro rfl
      rw [hself] at hu
      cases hu
    rw [hkept u hut] at hu
    exact hd.passed u code hu

/-- A thread enters `thread_exit_code`. -/
theorem Delivery.enterExit
    {code : Int} {core : Nat} (hd : Delivery m h) (hcensus : Census m h)
    (hold : m.task t = .other) (hactive : (m.sys.threads t).state = .active) :
    Delivery (m.setTask t (.exitCore masked code core))
      { h with passed := update h.passed (h.number t) (some code) } := by
  refine hd.congr ⟨rfl, rfl, rfl, rfl, rfl⟩ ?_ ⟨fun _ => Iff.rfl, fun _ => rfl, rfl⟩
    ?_ ?_
  · refine (forall_update_iff m.task (fun t (task' : Task) =>
      task'.cell = (m.task t).cell ∧ task'.awaits = (m.task t).awaits ∧
        task'.sent = (m.task t).sent)).mpr ⟨?_, fun _ _ => ⟨rfl, rfl, rfl⟩⟩
    rw [hold]
    exact ⟨rfl, rfl, rfl⟩
  · intro w cell tid code' hwr
    -- a child that has delivered its code does not call it again
    have hne : h.child w ≠ h.number t := by
      intro hchild
      rcases hwr.done with hended | ⟨hoccupant, _, hs⟩
      · rw [hchild, hcensus.active t hactive] at hended
        cases hended
      · have htid := hcensus.number_injective tid t (hoccupant.trans hchild)
        rw [htid, hold] at hs
        cases hs
    exact (update_of_ne hne _ _).trans hwr.passed
  · refine (forall_update_iff m.task (fun u (task' : Task) =>
      ∀ code', task'.code = some code' →
        update h.passed (h.number t) (some code) (h.number u) =
          some code')).mpr ⟨?_, ?_⟩
    · intro code' hcode
      cases hcode
      exact update_self _ _ _
    · intro u hu code' hcode
      have hne : h.number u ≠ h.number t :=
        fun heq => hu (hcensus.number_injective u t heq)
      exact (update_of_ne hne _ _).trans (hd.passed u code' hcode)

/-- Every step with a masked exit keeps the frames and the pointers related. -/
theorem Delivery.step
    (hd : Delivery m h) (hframes : Frames m) (hcensus : Census m h)
    (hown : OwnExits n m) (hstep : Process.step pf n m e = some m') :
    Delivery m' (record m e m' h) := by
  have hrefl : KeepsSlots m.sys m.sys := ⟨fun _ => Iff.rfl, fun _ => rfl, rfl⟩
  cases transition_of_step hstep with
  | kernel hallowed hkernel =>
      exact hd.congr ⟨rfl, rfl, rfl, rfl, rfl⟩ (fun _ => ⟨rfl, rfl, rfl⟩)
        (keepsSlots_of_step (reschedules_of_allowed hallowed) hkernel)
        (fun _ _ _ _ hwr => hwr.passed) hd.passed
  | @create core entry arg cr3 id s _ _ hcreate =>
      have hcreated := created_of_ok hcreate
      simp only [record, hcreated.slot]
      refine hd.addThread hframes hcreated ⟨rfl, rfl, rfl, rfl, rfl⟩
        (update_self _ _ _) ?_ (Or.inl rfl)
      intro u hu
      exact Or.inl ⟨update_of_ne hu _ _, rfl⟩
  | enterWait _ _ hcur htask hfresh =>
      simp only [record, Event.core, hcur, recordCall]
      exact hd.enter htask hfresh
  | @spawn core entry arg cr3 cell w id s hc hphase hcur htask hcreate =>
      have hcreated := created_of_ok hcreate
      have hne : w ≠ id :=
        hcreated.ne_of_active (hown.active_of_current hc hphase hcur)
      simp only [record, Event.core, hcur, recordCall, hcreated.slot]
      refine hd.addThread hframes hcreated ⟨rfl, rfl, rfl, rfl, rfl⟩ ?_ ?_
        (Or.inr ⟨w, Machine.setTask_task_self _ _ _, update_self _ _ _⟩)
      · show update (update m.task id .other) w _ id = .other
        rw [update_of_ne hne.symm, update_self]
      · intro u hu
        by_cases huw : u = w
        · subst huw
          exact Or.inr ⟨htask, Machine.setTask_task_self _ _ _,
            update_self _ _ _⟩
        · refine Or.inl ⟨?_, update_of_ne huw _ _⟩
          show update (update m.task id .other) w _ u = m.task u
          rw [update_of_ne huw, update_of_ne hu]
  | spawnFails _ _ hcur htask =>
      simp only [record, Event.core, hcur, recordCall]
      refine hd.close rfl rfl (by rw [htask]; rfl) ?_
      intro tid hawaits
      rw [htask] at hawaits
      cases hawaits
  | alive _ _ hcur htask _ =>
      simp only [record, Event.core, hcur, recordCall]
      refine hd.retask rfl hrefl ?_ ?_ ?_ ?_ <;> rw [htask]
      · rfl
      · rfl
      · rfl
      · intro _ hcode
        cases hcode
  | leave _ _ hcur htask hdead =>
      simp only [record, Event.core, hcur, recordCall]
      refine hd.close rfl rfl (by rw [htask]; rfl) ?_
      intro tid hawaits
      rw [htask] at hawaits
      cases hawaits
      exact hdead
  | yield _ hcur htask hkernel =>
      simp only [record, Event.core, hcur, recordCall]
      refine hd.retask rfl (keepsSlots_of_step rfl hkernel) ?_ ?_ ?_ ?_ <;>
        rw [htask]
      · rfl
      · rfl
      · rfl
      · intro _ hcode
        cases hcode
  | exitIndex hc hexit hcur htask =>
      simp only [record, Event.core, hcur, recordCall]
      exact hd.enterExit hcensus htask (hown.active_of_current hc hexit.1 hcur)
  | exitRead _ _ hcur htask _ =>
      simp only [record, Event.core, hcur, recordCall]
      refine hd.retask rfl hrefl ?_ ?_ ?_ ?_ <;> rw [htask]
      · rfl
      · rfl
      · rfl
      · exact fun _ hcode => hcode
  | @exitWrite core masked code t tid hc hexit hcur htask =>
      have htid : tid = t := (hown.sound t).ending_eq (by rw [htask]; rfl)
      subst htid
      simp only [record, Event.core, hcur, htask, recordCall]
      by_cases hout : (m.sys.threads tid).exitCodeOut = 0
      · rw [if_pos hout, if_pos hout]
        exact hd.sendNull hframes htask hout
      · rw [if_neg hout, if_neg hout]
        exact hd.send hframes hcensus htask
          (hown.active_of_current hc hexit.1 hcur) hout
  | @exitMark core masked t tid _ _ hcur htask =>
      have htid : tid = t := (hown.sound t).ending_eq (by rw [htask]; rfl)
      subst htid
      simp only [record, Event.core, hcur, htask, recordCall]
      exact hd.mark htask rfl rfl rfl

/-- The idle threads report to nobody. -/
theorem exitCodeOut_of_boot
    (hboot : boot pf n s₀ = .ok s₁) :
    ∀ t, (s₁.threads t).state = .active → (s₁.threads t).exitCodeOut = 0 := by
  refine boot_induction (P := fun _ s =>
    ∀ t, (s.threads t).state = .active → (s.threads t).exitCodeOut = 0) nofun ?_ hboot
  intro k s s' hnull hidle t ht
  obtain ⟨id, s₂, hcreate, rfl⟩ := createIdleThread_eq_ok hidle
  have hcreated := created_of_ok hcreate
  simp only [System.setThread, update_apply] at ht ⊢
  split_ifs at ht ⊢ with htid
  · exact hcreated.out
  · rw [hcreated.others t htid] at ht ⊢
    exact hnull t ht

theorem delivery_booted
    (hboot : boot pf n s₀ = .ok s₁) : Delivery (booted s₁) initialHistory where
  opened := nofun
  quiet := nofun
  frame := nofun
  pointer := fun u hactive hne => absurd (exitCodeOut_of_boot hboot u hactive) hne
  passed := nofun

end Delivery

/-- Everything that holds along a run with masked exits. -/
structure DeliveryInv (n : Nat) (m : Machine) (h : History) : Prop where
  exits : OwnExits n m
  masked : MaskedExits m
  census : Census m h
  frames : Frames m
  delivery : Delivery m h

section Runs

theorem DeliveryInv.step
    (hinv : DeliveryInv n m h) (he : e.masksExit = true)
    (hstep : Process.step pf n m e = some m') : DeliveryInv n m' (record m e m' h) := by
  have hreads := hinv.masked.readsOwnCore hinv.exits hstep
  have hends := (hinv.exits.endsCaller_iff hstep).mpr hreads
  exact
    { exits := hinv.exits.step hstep hends
      masked := hinv.masked.step hinv.exits he hstep
      census := census_step hinv.census hstep
      frames := hinv.frames.step hinv.exits hstep
      delivery := hinv.delivery.step hinv.frames hinv.census hinv.exits hstep }

theorem deliveryInv_booted
    (hboot : boot pf n s₀ = .ok s₁) : DeliveryInv n (booted s₁) initialHistory where
  exits := ownExits_booted hboot
  masked := nofun
  census := census_booted s₁
  frames := ⟨nofun, nofun, nofun⟩
  delivery := delivery_booted hboot

theorem deliveryInv_of_run
    {events : List Event} (hboot : boot pf n s₀ = .ok s₁)
    (hmasked : ∀ e, e ∈ events → e.masksExit = true)
    (hrun : runAll (withHistory (Process.step pf n) record)
      (booted s₁, initialHistory) events = some (m, h)) : DeliveryInv n m h := by
  refine runAll_invariant_of_forall
    (P := fun x : Machine × History => DeliveryInv n x.1 x.2) ?_
    (deliveryInv_booted hboot) hmasked hrun
  intro x e y hx he hstep
  obtain ⟨hmachine, hhistory⟩ := withHistory_eq_some.mp hstep
  rw [hhistory]
  exact hx.step he hmachine

end Runs

/-- What a waiter can rely on. -/
structure CodesDelivered (m : Machine) (h : History) : Prop where
  /--
  When the wait loop ends, `exit_code` holds what the child has passed to
  `thread_exit_code`, and the only write to it since the call began was the child's.
  -/
  leave :
    ∀ w cell tid, m.task w = .polling cell tid →
      threadIsAlive m.sys tid.val = false →
        ∃ code, h.passed (h.child w) = some code ∧ m.sys.exitCodes cell = code ∧
          h.since w cell = [⟨cell, h.child w, code⟩]
  /--
  A thread that is about to write through its pointer finds the frame of the call
  that has spawned it, still waiting.
  -/
  write :
    ∀ t masked code tid, m.task t = .exitTid masked code tid →
      (m.sys.threads tid).exitCodeOut ≠ 0 →
        ∃ w, (m.task w).cell = some (m.sys.threads tid).exitCodeOut ∧
          (m.task w).awaits = some t ∧ h.child w = h.number t

/--
**Exit codes are delivered.**  In every run in which `thread_exit_code` is entered
with interrupts disabled, a waiter that leaves its loop has the exit code of its
own child, no other thread has written to it, and no thread writes to a frame that
is gone.
-/
theorem exit_code_delivered
    (pf : Platform) (n : Nat) (s₀ s₁ : System) (events : List Event)
    (m : Machine) (h : History)
    (hboot : boot pf n s₀ = .ok s₁)
    (hmasked : ∀ e, e ∈ events → e.masksExit = true)
    (hrun : runAll (withHistory (step pf n) record) (booted s₁, initialHistory)
      events = some (m, h)) :
    CodesDelivered m h := by
  have hinv := deliveryInv_of_run hboot hmasked hrun
  constructor
  · intro w cell tid htask hdead
    have hcell : (m.task w).cell = some cell := by rw [htask]; rfl
    have hawaits : (m.task w).awaits = some tid := by rw [htask]; rfl
    rw [threadIsAlive_slot] at hdead
    have hnot := of_decide_eq_false hdead
    rcases hinv.delivery.frame w cell tid hcell hawaits with hun | ⟨code, hwr⟩
    · exact absurd hun.active hnot
    · exact ⟨code, hwr.passed, hwr.stored, hwr.since⟩
  · intro t masked code tid htask hout
    have htid : tid = t := (hinv.exits.sound t).ending_eq (by rw [htask]; rfl)
    subst htid
    have hactive := hinv.frames.active tid (by rw [htask]; rfl)
    obtain ⟨w, hcell, hawaits, hun⟩ :=
      hinv.delivery.frame_of_pointer hinv.census hactive (by rw [htask]; rfl) hout
    exact ⟨w, hcell, hawaits, hun.occupant.symm⟩

/-- The waiter of the run in which the child's slot is not reused. -/
theorem exit_code_delivered_first :
    ∃ s₁ m h,
      boot somePlatform 2 zeroed = .ok s₁ ∧
        runAll (withHistory (step somePlatform 2) record)
          (booted s₁, initialHistory) (reuseEvents.take 23) = some (m, h) ∧
        m.task waiterSlot = .polling 0x1008000 childSlot ∧
        threadIsAlive m.sys childSlot.val = false ∧
        m.sys.exitCodes 0x1008000 = 5 ∧
        CodesDelivered m h := by
  have hfinal :
      ((boot somePlatform 2 zeroed).toOption.bind (fun s₁ =>
        runAll (withHistory (step somePlatform 2) record)
          (booted s₁, initialHistory) (reuseEvents.take 23))).any (fun x =>
        x.1.task waiterSlot = .polling 0x1008000 childSlot ∧
          threadIsAlive x.1.sys childSlot.val = false ∧
          x.1.sys.exitCodes 0x1008000 = 5) := by
    decide
  obtain ⟨⟨m, h⟩, hx, hspec⟩ := (Option.any_eq_true _ _).mp hfinal
  obtain ⟨s₁, hopt, hrun⟩ := Option.bind_eq_some_iff.mp hx
  obtain ⟨htask, hdead, hcode⟩ := of_decide_eq_true hspec
  have hboot := Fallible.toOption_eq_some.mp hopt
  exact ⟨s₁, m, h, hboot, hrun, htask, hdead, hcode,
    exit_code_delivered _ 2 zeroed s₁ _ m h hboot (by decide) hrun⟩

end Process
end RebornOS
