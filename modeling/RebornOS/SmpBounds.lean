import RebornOS.SmpMailbox
import RebornOS.Traced

/-!
# The per-core tables during `smp_init`

`acpi_find_local_apic_ids` keeps at most `SMP_MAX_CPUS` APIC ids, and `cpu_count`
starts at 1 for the boot core.  The loop skips the boot core when it meets its
id, but with the boot core's entry behind the first `SMP_MAX_CPUS` it never does,
and there are as many processors to start as the tables have entries in all.

Here the loop runs with the outcome of every start attempt given (`up`), and the
trace records every access to a table of `SMP_MAX_CPUS` entries: the started
processor sets up `tss` and `gdt_table.tss_desc` at `ap_core_index`, which is
`cpu_count`, and the boot core stores its id in `core_apic_ids` at the same index.
What the boot core of `bootStep` stores in any run is what this loop stores
(`smpInitTables_of_run`).
-/

namespace RebornOS
namespace Smp

open LabeledRun Function Fallible

variable {b bsp i id : Nat} {ids madt : List Nat} {events : List Event}
  {up : Nat → Bool} {heap : Heap.State} {s : State}

section Model

/-- The tables with one entry per core that are indexed during `smp_init`. -/
inductive CoreTable
  | coreApicIds
  | tss
  | tssDesc
deriving DecidableEq

/-- An access to the entry `index` of a table. -/
structure TableAccess where
  table : CoreTable
  index : Nat
deriving DecidableEq

/-- `panic("smp_init: kmalloc failed for an AP stack")`, or `kmalloc` is endless. -/
inductive StartStop
  | stackAllocFailed
  | heapLoop
deriving DecidableEq

/-- What the loop changes; entries behind the end of `core_apic_ids` included. -/
structure Cores where
  heap : Heap.State
  cpuCount : Nat
  coreApicIds : Nat → Nat

/--
One start attempt; `up` says whether the processor answers its SIPI.  It sets up its
task state segment before it is counted.  Behind the last descriptor, `ltr` faults on
the selector, and the boot core waits for the processor in vain.
-/
def startCore (id : Nat) (up : Bool) (c : Cores) :
    Traced StartStop TableAccess Cores :=
  match Heap.kmalloc c.heap apStackSize with
  | none => .fail .heapLoop
  | some (stack, heap) =>
      if stack = 0 then
        .fail .stackAllocFailed
      else if up then
        if c.cpuCount < smpMaxCpus then
          .emit
            [⟨.tss, c.cpuCount⟩, ⟨.tssDesc, c.cpuCount⟩, ⟨.coreApicIds, c.cpuCount⟩]
            { heap := heap
              cpuCount := c.cpuCount + 1
              coreApicIds := update c.coreApicIds c.cpuCount id }
        else
          .emit [⟨.tss, c.cpuCount⟩, ⟨.tssDesc, c.cpuCount⟩] { c with heap := heap }
      else
        pure { c with heap := heap }

/-- The loop over the ids from position `i` on. -/
def startCores (bsp : Nat) (up : Nat → Bool) :
    List Nat → Nat → Cores → Traced StartStop TableAccess Cores
  | [], _, c => pure c
  | id :: ids, i, c =>
      if id = bsp then
        startCores bsp up ids (i + 1) c
      else do
        let c ← startCore id (up i) c
        startCores bsp up ids (i + 1) c

/-- The boot core alone, with its own entry stored. -/
def bootCore (heap : Heap.State) (bsp : Nat) : Cores where
  heap := heap
  cpuCount := 1
  coreApicIds := update (fun _ => 0) 0 bsp

/--
`smp_init`: the MADT lists the enabled local APICs `madt`, the boot core is
`bsp`, and `up i` says whether the processor at position `i` answers.
-/
def smpInitTables (heap : Heap.State) (bsp : Nat) (madt : List Nat)
    (up : Nat → Bool) : Traced StartStop TableAccess Cores :=
  match madt.take smpMaxCpus with
  | [] => pure { heap := heap, cpuCount := 1, coreApicIds := fun _ => 0 }
  | id :: ids => do
      let c ← .emit [⟨.coreApicIds, 0⟩] (bootCore heap bsp)
      startCores bsp up (id :: ids) 0 c

/-- `smp_current_cpu_index` on the core with APIC id `id`. -/
def Cores.currentIndex (c : Cores) (id : Nat) : Nat :=
  ((List.range c.cpuCount).find? (fun i => c.coreApicIds i = id)).getD 0

/--
No table is accessed outside its bounds: during the call, and after it with an
index below `cpu_count` (`idle_tid`) or the index of a core (`current_thread`).
-/
structure TablesInBounds (t : Traced StartStop TableAccess Cores) : Prop where
  accesses : t.All (fun a => a.index < smpMaxCpus)
  count : ∀ c, t.result = .ok c → c.cpuCount ≤ smpMaxCpus
  idle : ∀ c core, t.result = .ok c → core < c.cpuCount → core < smpMaxCpus
  current : ∀ c id, t.result = .ok c → c.currentIndex id < smpMaxCpus

/-- The heap can serve `n` more stacks. -/
def HeapServes : Nat → Heap.State → Prop
  | 0, _ => True
  | n + 1, h =>
      ∃ stack h', Heap.kmalloc h apStackSize = some (stack, h') ∧ stack ≠ 0 ∧
        HeapServes n h'

end Model

variable {c : Cores} {t : Traced StartStop TableAccess Cores}

section Loop

/-- Every attempt starts a processor. -/
structure AllStart (bsp : Nat) (up : Nat → Bool) (ids : List Nat) (i : Nat)
    (heap : Heap.State) : Prop where
  others : bsp ∉ ids
  comeUp : ∀ k, k < ids.length → up (i + k) = true
  serves : HeapServes ids.length heap

/-- All indices are below `b`, and `cpu_count` does not exceed it. -/
def Within (b : Nat) (t : Traced StartStop TableAccess Cores) : Prop :=
  t.All (fun a => a.index < b) ∧ ∀ c, t.result = .ok c → c.cpuCount ≤ b

theorem Within.mono
    {b' : Nat} (h : Within b t) (hb : b ≤ b') : Within b' t :=
  ⟨fun a ha => lt_of_lt_of_le (h.1 a ha) hb, fun c hc => (h.2 c hc).trans hb⟩

theorem within_fail
    (e : StartStop) : Within b (.fail e) :=
  ⟨Traced.all_fail e, fun _ h => nomatch h⟩

/-- What an attempt can do: panic, find the processor started, or wait in vain. -/
theorem startCore_cases
    (id : Nat) (upNow : Bool) (c : Cores) :
    (∃ e, startCore id upNow c = .fail e ∧ ¬ HeapServes 1 c.heap) ∨
    ∃ stack heap, Heap.kmalloc c.heap apStackSize = some (stack, heap) ∧
      stack ≠ 0 ∧
      startCore id upNow c =
        if upNow then
          if c.cpuCount < smpMaxCpus then
            .emit
              [⟨.tss, c.cpuCount⟩, ⟨.tssDesc, c.cpuCount⟩,
                ⟨.coreApicIds, c.cpuCount⟩]
              ⟨heap, c.cpuCount + 1, update c.coreApicIds c.cpuCount id⟩
          else
            .emit [⟨.tss, c.cpuCount⟩, ⟨.tssDesc, c.cpuCount⟩] { c with heap := heap }
        else
          pure { c with heap := heap } := by
  unfold startCore
  cases hk : Heap.kmalloc c.heap apStackSize with
  | none =>
      refine Or.inl ⟨_, rfl, ?_⟩
      rintro ⟨_, _, hk', _⟩
      rw [hk] at hk'
      cases hk'
  | some r =>
      obtain ⟨stack, heap⟩ := r
      by_cases hnull : stack = 0
      · refine Or.inl ⟨.stackAllocFailed, if_pos hnull, ?_⟩
        rintro ⟨_, _, hk', hne, _⟩
        rw [hk] at hk'
        cases hk'
        exact hne hnull
      · exact Or.inr ⟨stack, heap, rfl, hnull, if_neg hnull⟩

/-- Going on after an attempt. -/
theorem within_emit
    {accesses : List TableAccess} {f : Cores → Traced StartStop TableAccess Cores}
    (haccesses : ∀ a ∈ accesses, a.index < b) (hrest : Within b (f c)) :
    Within b (Traced.emit accesses c >>= f) :=
  ⟨Traced.all_emit_bind.mpr ⟨haccesses, hrest.1⟩, hrest.2⟩

theorem allStart_nil
    (i : Nat) (heap : Heap.State) : AllStart bsp up [] i heap :=
  ⟨List.not_mem_nil, fun _ hk => absurd hk (Nat.not_lt_zero _), trivial⟩

theorem allStart_cons :
    AllStart bsp up (id :: ids) i heap ↔
      id ≠ bsp ∧ up i = true ∧
        ∃ stack heap', Heap.kmalloc heap apStackSize = some (stack, heap') ∧
          stack ≠ 0 ∧ AllStart bsp up ids (i + 1) heap' := by
  constructor
  · rintro ⟨hothers, hcome, stack, heap', hk, hne, hserves⟩
    rw [List.mem_cons, not_or] at hothers
    refine
      ⟨Ne.symm hothers.1, hcome 0 (by simp), stack, heap', hk, hne, hothers.2,
        fun k hlt => ?_, hserves⟩
    rw [show i + 1 + k = i + (k + 1) by omega]
    exact hcome (k + 1) (by simpa using hlt)
  · rintro ⟨hid, hup, stack, heap', hk, hne, hothers, hcome, hserves⟩
    refine ⟨?_, fun k hlt => ?_, stack, heap', hk, hne, hserves⟩
    · rw [List.mem_cons, not_or]
      exact ⟨Ne.symm hid, hothers⟩
    · cases k with
      | zero => exact hup
      | succ k =>
          rw [show i + (k + 1) = i + 1 + k by omega]
          exact hcome k (by simpa using hlt)

/-- Every id adds at most one core. -/
theorem startCores_within
    (ids : List Nat) :
    ∀ i c, Within (c.cpuCount + ids.length) (startCores bsp up ids i c) := by
  induction ids with
  | nil =>
      intro i c
      exact ⟨Traced.all_pure c, fun c' h => by cases h; exact le_refl _⟩
  | cons id ids ih =>
      intro i c
      rw [startCores, List.length_cons]
      split_ifs
      · exact (ih (i + 1) c).mono (by omega)
      · rcases startCore_cases id (up i) c with
          ⟨e, hstart, _⟩ | ⟨stack, heap, _, _, hstart⟩
        · rw [hstart]
          exact within_fail e
        · rw [hstart]
          split_ifs
          · exact within_emit (by simp) ((ih (i + 1) _).mono (by dsimp only; omega))
          · exact within_emit (by simp) ((ih (i + 1) _).mono (by dsimp only; omega))
          · exact (ih (i + 1) { c with heap := heap }).mono (by dsimp only; omega)

/-- Unless every attempt starts a processor, one core less. -/
theorem startCores_within_of_not_allStart
    (ids : List Nat) :
    ∀ i c, ¬ AllStart bsp up ids i c.heap →
      Within (c.cpuCount + ids.length - 1) (startCores bsp up ids i c) := by
  induction ids with
  | nil =>
      intro i c hnot
      exact absurd (allStart_nil i c.heap) hnot
  | cons id ids ih =>
      intro i c hnot
      rw [startCores, List.length_cons]
      split_ifs with hid
      · exact (startCores_within ids (i + 1) c).mono (by omega)
      · rcases startCore_cases id (up i) c with
          ⟨e, hstart, _⟩ | ⟨stack, heap, hk, hne, hstart⟩
        · rw [hstart]
          exact within_fail e
        · rw [hstart]
          by_cases hup : up i = true
          · -- the failure is among the ids that are left
            have hrest : ¬ AllStart bsp up ids (i + 1) heap := fun hall =>
              hnot (allStart_cons.mpr ⟨hid, hup, stack, heap, hk, hne, hall⟩)
            have hnil : ids.length ≠ 0 := by
              intro h0
              obtain rfl := List.length_eq_zero_iff.mp h0
              exact hrest (allStart_nil (i + 1) heap)
            have haccess : c.cpuCount < c.cpuCount + (ids.length + 1) - 1 := by omega
            rw [if_pos hup]
            split_ifs
            · exact within_emit (by simpa using haccess)
                ((ih (i + 1) _ hrest).mono (by dsimp only; omega))
            · exact within_emit (by simpa using haccess)
                ((ih (i + 1) _ hrest).mono (by dsimp only; omega))
          · rw [if_neg hup]
            exact (startCores_within ids (i + 1) { c with heap := heap }).mono
              (by dsimp only; omega)

/-- If every attempt starts a processor, one too many uses the entry behind the last. -/
theorem startCores_overfull
    (ids : List Nat) :
    ∀ i c, AllStart bsp up ids i c.heap → ids ≠ [] →
      c.cpuCount + ids.length = smpMaxCpus + 1 →
      ⟨.tss, smpMaxCpus⟩ ∈ (startCores bsp up ids i c).events ∧
        ⟨.tssDesc, smpMaxCpus⟩ ∈ (startCores bsp up ids i c).events := by
  induction ids with
  | nil =>
      intro i c _ hnil
      exact absurd rfl hnil
  | cons id ids ih =>
      intro i c hall _ hcount
      rw [List.length_cons] at hcount
      obtain ⟨hid, hup, stack, heap, hk, hne, hrest⟩ := allStart_cons.mp hall
      rw [startCores, if_neg hid, startCore, hk, hup]
      simp only [if_neg hne, if_true]
      by_cases hlt : c.cpuCount < smpMaxCpus
      · have hnil : ids ≠ [] := by
          rintro rfl
          rw [List.length_nil] at hcount
          omega
        obtain ⟨htss, hdesc⟩ := ih (i + 1)
          ⟨heap, c.cpuCount + 1, update c.coreApicIds c.cpuCount id⟩ hrest hnil
          (by dsimp only; omega)
        rw [if_pos hlt]
        exact ⟨List.mem_append_right _ htss, List.mem_append_right _ hdesc⟩
      · obtain hlast : c.cpuCount = smpMaxCpus := by omega
        rw [if_neg hlt, hlast]
        exact ⟨List.mem_append_left _ List.mem_cons_self,
          List.mem_append_left _ (List.mem_cons_of_mem _ List.mem_cons_self)⟩

end Loop

section Bounds

theorem Cores.currentIndex_lt
    (c : Cores) (id : Nat) : c.currentIndex id < max c.cpuCount 1 := by
  unfold Cores.currentIndex
  cases hfind : (List.range c.cpuCount).find? (fun i => c.coreApicIds i = id) with
  | none =>
      exact lt_of_lt_of_le Nat.one_pos (le_max_right _ _)
  | some i =>
      have hi := List.mem_range.mp (List.mem_of_find?_eq_some hfind)
      exact lt_of_lt_of_le hi (le_max_left _ _)

theorem Within.tablesInBounds
    (h : Within smpMaxCpus t) : TablesInBounds t where
  accesses := h.1
  count := h.2
  idle c core hc hcore := lt_of_lt_of_le hcore (h.2 c hc)
  current c id hc :=
    lt_of_lt_of_le (c.currentIndex_lt id) (max_le (h.2 c hc) (by decide))

/-- The loop starts from one core, with the boot core's own entry written. -/
theorem smpInitTables_within
    (hb : 1 ≤ b) (h : ∀ c, c.cpuCount = 1 → c.heap = heap →
      Within b (startCores bsp up (madt.take smpMaxCpus) 0 c)) :
    Within b (smpInitTables heap bsp madt up) := by
  unfold smpInitTables
  cases hids : madt.take smpMaxCpus with
  | nil =>
      exact ⟨Traced.all_pure _, fun c hc => by cases hc; exact hb⟩
  | cons id ids =>
      have hloop := h (bootCore heap bsp) rfl rfl
      rw [hids] at hloop
      refine ⟨Traced.all_emit_bind.mpr ⟨?_, hloop.1⟩, hloop.2⟩
      rw [List.forall_mem_singleton]
      exact hb

/-- With a full table of other processors that all start, entry 16 is used. -/
theorem smpInitTables_overfull
    (hlen : smpMaxCpus ≤ madt.length)
    (h : AllStart bsp up (madt.take smpMaxCpus) 0 heap) :
    ⟨.tss, smpMaxCpus⟩ ∈ (smpInitTables heap bsp madt up).events ∧
      ⟨.tssDesc, smpMaxCpus⟩ ∈ (smpInitTables heap bsp madt up).events := by
  have hids : (madt.take smpMaxCpus).length = smpMaxCpus := by
    rw [List.length_take, min_eq_left hlen]
  unfold smpInitTables
  cases htake : madt.take smpMaxCpus with
  | nil =>
      rw [htake] at hids
      cases hids
  | cons id ids =>
      rw [htake] at h hids
      obtain ⟨htss, hdesc⟩ := startCores_overfull (id :: ids) 0 (bootCore heap bsp) h
        (List.cons_ne_nil id ids) (by rw [hids]; rfl)
      exact ⟨List.mem_append_right _ htss, List.mem_append_right _ hdesc⟩

/--
**When the per-core tables are large enough.**  For every MADT, boot core and
outcome of the start attempts, `smp_init` stays within tables of `SMP_MAX_CPUS`
entries exactly if it is given fewer ids than that, or the boot core's id is
among those it keeps, or one of these processors does not answer, or there is
no memory for all their stacks.
-/
theorem tables_in_bounds_iff
    (heap : Heap.State) (bsp : Nat) (madt : List Nat) (up : Nat → Bool) :
    TablesInBounds (smpInitTables heap bsp madt up) ↔
      madt.length < smpMaxCpus ∨ bsp ∈ madt.take smpMaxCpus ∨
        (∃ i, i < smpMaxCpus ∧ up i = false) ∨ ¬ HeapServes smpMaxCpus heap := by
  by_cases hlen : madt.length < smpMaxCpus
  · refine iff_of_true (Within.tablesInBounds ?_) (Or.inl hlen)
    refine smpInitTables_within (by decide) (fun c hcount _ => ?_)
    refine (startCores_within _ 0 c).mono ?_
    rw [hcount, List.length_take]
    omega
  · rw [not_lt] at hlen
    have hids : (madt.take smpMaxCpus).length = smpMaxCpus := by
      rw [List.length_take, min_eq_left hlen]
    have hall : AllStart bsp up (madt.take smpMaxCpus) 0 heap ↔
        ¬ (madt.length < smpMaxCpus ∨ bsp ∈ madt.take smpMaxCpus ∨
          (∃ i, i < smpMaxCpus ∧ up i = false) ∨ ¬ HeapServes smpMaxCpus heap) := by
      constructor
      · rintro ⟨hothers, hcome, hserves⟩ (hlt | hbsp | ⟨i, hi, hdown⟩ | hno)
        · omega
        · exact hothers hbsp
        · have hup := hcome i (by omega)
          rw [Nat.zero_add, hdown] at hup
          cases hup
        · exact hno (hids ▸ hserves)
      · intro hnot
        simp only [not_or, not_exists, not_and, not_not, Bool.not_eq_false] at hnot
        obtain ⟨_, hothers, hcome, hserves⟩ := hnot
        refine ⟨hothers, fun k hk => ?_, hids.symm ▸ hserves⟩
        rw [Nat.zero_add]
        exact hcome k (by omega)
    by_cases hfull : AllStart bsp up (madt.take smpMaxCpus) 0 heap
    · refine iff_of_false (fun hbounds => ?_) (hall.mp hfull)
      exact absurd (hbounds.accesses _ (smpInitTables_overfull hlen hfull).1) (lt_irrefl _)
    · refine iff_of_true (Within.tablesInBounds ?_) (not_not.mp (hall.not.mp hfull))
      refine smpInitTables_within (by decide) (fun c hcount hheap => ?_)
      refine (startCores_within_of_not_allStart _ 0 c (hheap ▸ hfull)).mono ?_
      rw [hcount, hids]
      omega

end Bounds

section Connection

variable {up' : Nat → Bool}

/-- The loop looks at the outcomes of its own positions only. -/
theorem startCores_congr
    (ids : List Nat) :
    ∀ i c, (∀ k, i ≤ k → k < i + ids.length → up k = up' k) →
      startCores bsp up ids i c = startCores bsp up' ids i c := by
  induction ids with
  | nil =>
      intro i c _
      rfl
  | cons id ids ih =>
      intro i c hsame
      rw [List.length_cons] at hsame
      have htail : startCores bsp up ids (i + 1) = startCores bsp up' ids (i + 1) :=
        funext (fun c => ih (i + 1) c (fun k hk hlt => hsame k (by omega) (by omega)))
      rw [startCores, startCores, hsame i (le_refl i) (by omega), htail]

/-- The loop over one more id. -/
theorem startCores_concat_result
    (ids : List Nat) (id : Nat) :
    ∀ i c, (startCores bsp up (ids ++ [id]) i c).result =
      (startCores bsp up ids i c).result >>= fun c =>
        if id = bsp then .ok c else (startCore id (up (i + ids.length)) c).result := by
  induction ids with
  | nil =>
      intro i c
      rw [List.nil_append, List.length_nil, Nat.add_zero]
      by_cases hid : id = bsp
      · simp [startCores, hid, ok_bind]
      · simp only [startCores, hid, if_false, Traced.result_bind, Traced.result_pure,
          ok_bind]
        cases (startCore id (up i) c).result <;> rfl
  | cons a ids ih =>
      intro i c
      have hpos : i + (a :: ids).length = i + 1 + ids.length := by
        rw [List.length_cons]
        omega
      rw [List.cons_append, startCores, startCores, hpos]
      by_cases ha : a = bsp
      · rw [if_pos ha, if_pos ha]
        exact ih (i + 1) c
      · rw [if_neg ha, if_neg ha, Traced.result_bind, Traced.result_bind]
        cases (startCore a (up i) c).result with
        | error e => rfl
        | ok c' => exact ih (i + 1) c'

/-- The loop has come as far as the boot core; in a turn, the stack is taken already. -/
structure Follows (bsp : Nat) (heap : Heap.State) (ids : List Nat) (s : State)
    (up : Nat → Bool) (done : List Nat) (c : Cores) : Prop where
  ids : done ++ s.boot.pending = ids
  result : (startCores bsp up done 0 (bootCore heap bsp)).result = .ok c
  count : c.cpuCount = s.cpuCount
  table : c.coreApicIds = s.coreApicIds
  between : s.boot.stackFor = none → c.heap = s.heap
  turn :
    ∀ id, s.boot.stackFor = some id →
      id ≠ bsp ∧ ∃ p, p ≠ 0 ∧ Heap.kmalloc c.heap apStackSize = some (p, s.heap)

section Steps

variable {s' : State} {h h' : History} {e : Event} {done : List Nat}

/-- The boot core moves within a turn, or another core does. -/
theorem Follows.pass
    (hf : Follows bsp heap ids s up done c) (hpending : s'.boot.pending = s.boot.pending)
    (hstack : s'.boot.stackFor = s.boot.stackFor) (hheap : s'.heap = s.heap)
    (hcount : s'.cpuCount = s.cpuCount) (htable : s'.coreApicIds = s.coreApicIds) :
    Follows bsp heap ids s' up done c where
  ids := by rw [hpending, hf.ids]
  result := hf.result
  count := by rw [hcount, hf.count]
  table := by rw [htable, hf.table]
  between hnone := by rw [hheap, hf.between (hstack.symm.trans hnone)]
  turn id hid := by
    rw [hheap]
    exact hf.turn id (hstack.symm.trans hid)

/-- The end of a turn. -/
theorem Follows.next
    {rest : List Nat} {c' : Cores} (upNow : Bool)
    (hf : Follows bsp heap ids s up done c) (hpending : s.boot.pending = id :: rest)
    (hone : (if id = bsp then .ok c else (startCore id upNow c).result) = .ok c')
    (hboot : s'.boot = .loop rest) (hheap : c'.heap = s'.heap)
    (hcount : c'.cpuCount = s'.cpuCount) (htable : c'.coreApicIds = s'.coreApicIds) :
    Follows bsp heap ids s' (update up done.length upNow) (done ++ [id]) c' where
  ids := by
    rw [hboot, ← hf.ids, hpending, List.append_assoc]
    rfl
  result := by
    have hsame : startCores bsp (update up done.length upNow) done 0
        (bootCore heap bsp) = startCores bsp up done 0 (bootCore heap bsp) :=
      startCores_congr done 0 _ (fun k _ hlt =>
        update_of_ne (Nat.ne_of_lt (by omega)) _ _)
    rw [startCores_concat_result, hsame, hf.result, ok_bind, Nat.zero_add, update_self]
    exact hone
  count := hcount
  table := htable
  between _ := hheap
  turn id hid := by
    rw [hboot] at hid
    cases hid

theorem Follows.move
    (hf : Follows bsp heap ids s up done c) (hmove : Move bsp s h e s' h') :
    ∃ up' done' c', Follows bsp heap ids s' up' done' c' := by
  have hcount := hf.count
  have htable := hf.table
  have hturn := hf.turn
  cases hmove with
  | signal hboot | join hboot | storeIndex hboot | sample hboot | sendStartup hboot
  | see hboot | timeout hboot =>
      exact ⟨up, done, c, hf.pass (by rw [hboot]; rfl) (by rw [hboot]; rfl) rfl rfl rfl⟩
  | skip hboot =>
      exact ⟨_, _, c, hf.next false (by rw [hboot]; rfl) (if_pos rfl) rfl
        (hf.between (by rw [hboot]; rfl)) hcount htable⟩
  | @storeStack id p rest heap' hboot hid hk hp =>
      have hheap := hf.between (by rw [hboot]; rfl)
      refine ⟨up, done, c, by rw [← hf.ids, hboot]; rfl, hf.result, hcount, htable, nofun, ?_⟩
      rintro _ ⟨⟩
      exact ⟨hid, p, hp, by rw [hheap]; exact hk⟩
  | @drop id before rest hboot hunseen =>
      obtain ⟨hid, p, hp, hk⟩ := hturn id (by rw [hboot]; rfl)
      refine ⟨_, _, { c with heap := s.heap }, hf.next false (by rw [hboot]; rfl) ?_ rfl rfl
        hcount htable⟩
      rw [if_neg hid, startCore, hk]
      simp [hp]
  | @credit id before rest hboot hseen hmax =>
      obtain ⟨hid, p, hp, hk⟩ := hturn id (by rw [hboot]; rfl)
      rw [← hcount] at hmax
      refine ⟨_, _,
        ⟨s.heap, c.cpuCount + 1, update c.coreApicIds c.cpuCount id⟩,
        hf.next true (by rw [hboot]; rfl) ?_ rfl rfl (by rw [hcount]; rfl)
          (by rw [hcount, htable]; rfl)⟩
      rw [if_neg hid, startCore, hk]
      simp [hp, hmax]
  | readStack hap | readIndex hap | count hap | enter hap =>
      exact ⟨up, done, c, hf.pass rfl rfl rfl rfl rfl⟩

end Steps

theorem follows_of_run
    (hrun : runAll (step bsp) (smpInit heap bsp madt) events = some s) :
    ∃ up done c, Follows bsp heap (madt.take smpMaxCpus) s up done c := by
  refine runAll_invariant
    (P := fun s => ∃ up done c, Follows bsp heap (madt.take smpMaxCpus) s up done c) ?_
    ⟨fun _ => false, [], bootCore heap bsp, ?_⟩ hrun
  · rintro s e s' ⟨up, done, c, hf⟩ hstep
    have hmove := move_of_step (x := (s, initialHistory))
      (y := (s', record s e s' initialHistory)) (withHistory_eq_some.mpr ⟨hstep, rfl⟩)
    exact hf.move hmove
  · exact ⟨rfl, rfl, rfl, rfl, fun _ => rfl, fun _ hid => by cases hid⟩

/--
**The two views of the loop.**  Whatever the processors do, after `smp_init` the boot
core's table and count are those that this loop computes, for the outcomes that the
boot core has seen.
-/
theorem smpInitTables_of_run
    (hmadt : madt ≠ [])
    (hrun : runAll (step bsp) (smpInit heap bsp madt) events = some s)
    (hdone : s.boot = .signalled ∨ s.boot = .joined) :
    ∃ up c, (smpInitTables heap bsp madt up).result = .ok c ∧ c.cpuCount = s.cpuCount ∧
      ∀ id, c.currentIndex id = smpCurrentCpuIndex s id := by
  obtain ⟨up, done, c, hf⟩ := follows_of_run hrun
  have hids : done = madt.take smpMaxCpus := by
    rw [← hf.ids]
    rcases hdone with hboot | hboot <;> simp [hboot, BootStage.pending]
  refine ⟨up, c, ?_, hf.count, fun id => ?_⟩
  · have hresult := hf.result
    rw [hids] at hresult
    unfold smpInitTables
    cases htake : madt.take smpMaxCpus with
    | nil =>
        rcases List.take_eq_nil_iff.mp htake with hzero | hnil
        · cases hzero
        · exact absurd hnil hmadt
    | cons id rest =>
        rw [htake] at hresult
        exact hresult
  · rw [Cores.currentIndex, hf.count, hf.table]
    rfl

end Connection

section Overfull

open Heap

/-- A free block with room for `n` stacks, each with its header. -/
def RoomFor (n : Nat) (xs : List Block) : Prop :=
  ∃ x, x ∈ xs ∧ x.free = true ∧ n * (apStackSize + headerSize) + heapAlign ≤ x.size

/-- An allocation leaves the room for one stack less. -/
theorem RoomFor.allocList
    {n p : Nat} {xs ys : List Block} (h : RoomFor (n + 1) xs)
    (halloc : allocList apStackSize xs = some (p, ys)) : RoomFor n ys := by
  obtain ⟨x, hx, hfree, hroom⟩ := h
  obtain ⟨pre, y, post, rfl, _, _, rfl, rfl⟩ := allocList_eq_some halloc
  rw [Nat.succ_mul] at hroom
  by_cases hxy : x = y
  · -- the block itself is split, and the remainder has the room
    subst hxy
    unfold splitList
    rw [if_neg (by omega)]
    refine
      ⟨⟨x.addr + headerSize + apStackSize, x.size - apStackSize - headerSize, true⟩,
        ?_, rfl, ?_⟩
    · exact List.mem_append_right _ (List.mem_append_left _ (by simp))
    · show n * (apStackSize + headerSize) + heapAlign ≤ x.size - apStackSize - headerSize
      omega
  · refine ⟨x, ?_, hfree, by omega⟩
    simp only [List.mem_append, List.mem_cons] at hx ⊢
    rcases hx with hx | hx | hx
    · exact Or.inl hx
    · exact absurd hx hxy
    · exact Or.inr (Or.inr hx)

/-- A heap with room serves the stacks. -/
theorem heapServes_of_roomFor
    (n : Nat) : ∀ h xs, Represents h xs → RoomFor n xs → HeapServes n h := by
  induction n with
  | zero =>
      intro _ _ _ _
      trivial
  | succ n ih =>
      intro h xs hr hroom
      have hround : roundUp apStackSize = apStackSize := by decide
      obtain ⟨p, h', ys, hk, hr', hcase⟩ := hr.kmalloc apStackSize
      rw [hround] at hcase
      rcases hcase with ⟨rfl, rfl⟩ | ⟨hp, halloc⟩
      · -- a request that does not fit fits after all
        exfalso
        obtain ⟨x, hx, hfree, hsize⟩ := hroom
        have hnone : allocList apStackSize ys ≠ none := by
          rw [Ne, allocList_eq_none_iff]
          intro hno
          refine hno x hx ⟨hfree, ?_⟩
          rw [Nat.succ_mul] at hsize
          omega
        obtain ⟨⟨q, zs⟩, halloc⟩ := Option.ne_none_iff_exists'.mp hnone
        rw [← hround] at halloc
        obtain ⟨h'', hk', _⟩ := hr.kmalloc_of_some (by decide) halloc
        rw [hk, Option.some.injEq, Prod.mk.injEq] at hk'
        obtain ⟨y, _, hy, _⟩ := exists_mem_allocList halloc
        rw [← hk'.1] at hy
        unfold Block.ptr headerSize at hy
        omega
      · exact ⟨p, h', hk, hp, ih h' ys hr' (hroom.allocList halloc)⟩

theorem heapServes_heapInit
    (m : ByteStore.Store) : HeapServes smpMaxCpus (heapInit m) :=
  heapServes_of_roomFor smpMaxCpus _ _ (represents_heapInit m)
    ⟨_, List.mem_singleton_self _, rfl, by decide⟩

/-- A machine whose firmware lists the boot core as the last of 17. -/
theorem seventeen_cores_overfull :
    ⟨.tss, 16⟩ ∈
        (smpInitTables (heapInit (fun _ => 0)) 0
          [1, 2, 3, 4, 5, 6, 7, 8, 9, 10, 11, 12, 13, 14, 15, 16, 0]
          (fun _ => true)).events ∧
      ⟨.tssDesc, 16⟩ ∈
        (smpInitTables (heapInit (fun _ => 0)) 0
          [1, 2, 3, 4, 5, 6, 7, 8, 9, 10, 11, 12, 13, 14, 15, 16, 0]
          (fun _ => true)).events ∧
      ¬ TablesInBounds
        (smpInitTables (heapInit (fun _ => 0)) 0
          [1, 2, 3, 4, 5, 6, 7, 8, 9, 10, 11, 12, 13, 14, 15, 16, 0]
          (fun _ => true)) := by
  obtain ⟨htss, hdesc⟩ :=
    @smpInitTables_overfull 0
      [1, 2, 3, 4, 5, 6, 7, 8, 9, 10, 11, 12, 13, 14, 15, 16, 0] (fun _ => true)
      (heapInit (fun _ => 0)) (by decide)
      ⟨by decide, fun _ _ => rfl, heapServes_heapInit (fun _ => 0)⟩
  refine ⟨htss, hdesc, fun hbounds => ?_⟩
  exact absurd (hbounds.accesses _ htss) (lt_irrefl _)

end Overfull

end Smp
end RebornOS
