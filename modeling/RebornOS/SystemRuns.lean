import RebornOS.UserView

/-!
# The system as processes see it

`event` adds to the operations of `processCall` what else happens to memory
while processes exist: a process maps the framebuffer, a process stores into its
own pages, and the kernel stores into frames of its own (`K`), where it keeps,
for instance, the file that it is about to load.

The allocator never hands out a frame of `K`.  In return no page table is ever
built there (`AllocApart`), and the frames of the framebuffer, which are
frames of `K` as well, may be mapped into any number of spaces.
-/

namespace RebornOS
namespace Elf

open ByteStore WordBits PageWalk RadixForest Fallible LabeledRun Vmm PagedSpace

variable {σ : Type} {cr3 r v : Nat} {fb : Framebuffer} {file : List UInt8}
  {alloc : σ → Nat × σ} {Valid : σ → Prop} {held : σ → Set Nat} {s s' : Spaces σ}

/-- One event of the system. -/
inductive Event
  | process (c : ProcessCall)
  | fbMap (pml4 : Nat)
  | userStore (cr3 v : Nat) (b : UInt8)
  | kernelStore (a : Nat) (b : UInt8)
  deriving DecidableEq, Repr

/-- Store one byte at a physical address. -/
def poke (m : Machine σ) (a : Nat) (b : UInt8) : Machine σ :=
  { m with mem := fill m.mem a 1 b }

/-- A process stores a byte at an address outside the shared slot. -/
def userStore (m : Machine σ) (cr3 v : Nat) (b : UInt8) : Option (Machine σ) :=
  if index v 39 = 0 then
    none
  else
    match translateAddr m.mem cr3 v with
    | some t =>
        if t.rights.user && t.rights.writable then some (poke m t.phys b)
        else none
    | none => none

/-- One event; a panic or a fault ends the run. -/
def event (alloc : σ → Nat × σ) (fb : Framebuffer) (K : Finset Nat)
    (s : Spaces σ) : Event → Option (Spaces σ)
  | .process c => processCall alloc s c
  | .fbMap pml4 => onSpace s pml4 (sysFbMap alloc fb s.machine pml4)
  | .userStore cr3 v b =>
      if cr3 ∈ s.roots then
        (userStore s.machine cr3 v b).map (fun m => { s with machine := m })
      else
        none
  | .kernelStore a b =>
      if a / 4096 ∈ K then some { s with machine := poke s.machine a b }
      else none

/-- The allocator hands out fresh pages, and never one of the frames `K`. -/
structure AllocApart (alloc : σ → Nat × σ) (Valid : σ → Prop)
    (held : σ → Set Nat) (K : Finset Nat) : Prop
    extends FreshPages alloc Valid held where
  retained : ∀ s n, Valid s → n ∈ K → Retained alloc s n
  not_held : ∀ s n, n ∈ K → n ∉ held s

theorem FreshPages.allocApart
    (hf : FreshPages alloc Valid held) (K : Finset Nat) :
    AllocApart alloc
      (fun s => Valid s ∧ ∀ n, n ∈ (K : Set Nat) → Retained alloc s n)
      (fun s => held s \ (K : Set Nat)) K :=
  { hf.apart (K : Set Nat) with
    retained := fun _ n hs hn => hs.2 n hn
    not_held := fun _ _ hn hheld => hheld.2 hn }

/-- An address space, and an allocator that never hands out the frames `K`. -/
structure Target (σ : Type) where
  alloc : σ → Nat × σ
  Valid : σ → Prop
  held : σ → Set Nat
  K : Finset Nat
  roots : Set Nat
  r : Nat
  apart : AllocApart alloc Valid held K
  root : r ∈ roots

/-- The frames of the framebuffer, as the hardware decodes addresses. -/
def Framebuffer.Apart (fb : Framebuffer) (K : Finset Nat) : Prop :=
  ∀ x, fb.base ≤ x → x < fb.base + fb.size → x / 4096 % 2 ^ 40 ∈ K

/-- The invariant of the system. -/
structure SystemOk (alloc : σ → Nat × σ) (Valid : σ → Prop)
    (held : σ → Set Nat) (s : Spaces σ) : Prop where
  frames : ∀ a, a ∈ s.roots → ∃ r, a = r * 4096
  inv : ∃ g, DataInv 3 alloc Valid held s.machine (rootFrames s.roots) g

section Steps

variable {m m' : Machine σ} {roots : Set Nat} {g : Ghost} {K : Finset Nat}

theorem userStore_eq_some
    {b : UInt8} (h : userStore m cr3 v b = some m') :
    index v 39 ≠ 0 ∧
      ∃ t, translateAddr m.mem cr3 v = some t ∧ t.rights.user = true ∧
        t.rights.writable = true ∧ m' = poke m t.phys b := by
  unfold userStore at h
  split_ifs at h with hslot
  split at h
  next t ht =>
    split_ifs at h with hrights
    simp only [Bool.and_eq_true] at hrights
    simp only [Option.some.injEq] at h
    exact ⟨hslot, t, ht, hrights.1, hrights.2, h.symm⟩
  next =>
    cases h

theorem sameOutside_poke
    (m : Machine σ) (a : Nat) (b : UInt8) :
    SameOutside (a / 4096) m.mem (poke m a b).mem := by
  intro x hx
  apply fill_outside
  by_contra hnot
  have hxa : x = a := by omega
  exact hx (by rw [hxa])

/-- The private page of a new space is idle, the other leaves are old. -/
theorem dataInv_of_created
    {D p p0 : Nat} {g' : Ghost}
    (hnew : Created D alloc Valid held roots m g p p0 m' g')
    (h : DataInv D alloc Valid held m roots g) :
    DataInv D alloc Valid held m' (insert p roots) g' := by
  refine ⟨hnew.inv, ?_⟩
  intro r js j e hr hjs hlen hleaf
  rw [hnew.leaves r js j hr hjs hlen] at hleaf
  split_ifs at hleaf with hrp
  · rw [Option.some.injEq] at hleaf
    rw [← hleaf, frameOf_tableEntry hnew.page.2]
    exact hnew.page.1
  · have hr := Set.mem_of_mem_insert_of_ne hr hrp
    exact (hnew.data _ (h.idle r js j e hr hjs hlen hleaf)).1

/-- The frames `K` are idle. -/
theorem AllocApart.idle
    (ha : AllocApart alloc Valid held K)
    (h : DataInv 3 alloc Valid held m roots g) {n : Nat} (hn : n ∈ K) :
    Idle alloc m.pmm g n :=
  ⟨ha.retained _ n h.inv.valid hn,
    h.inv.spaces.not_table_of_not_held (ha.not_held _ n hn)⟩

/-- How the hardware translates after `vmm_map_page`, for any physical address. -/
theorem vmmMapPage_translate
    (hf : FreshPages alloc Valid held) (h : MachineInv 3 Valid held m roots g)
    {paddr flags : Nat} (hr : r ∈ roots) (hpaddr : paddr < 2 ^ 64)
    (hrun : vmmMapPage alloc m (r * 4096) v paddr flags = .ok m') :
    index v 39 ≠ 0 ∧
    (∀ b, b / 4096 = canonicalForm v / 4096 →
      translateAddr m'.mem (r * 4096) b =
        some
          { phys := paddr / 4096 % 2 ^ 40 * 4096 + b % 4096
            rights := rightsOf (leafEntry paddr flags) }) ∧
    ∀ r' b, r' ∈ roots → r' ≠ r ∨ b / 4096 ≠ canonicalForm v / 4096 →
      translateAddr m'.mem (r' * 4096) b =
        translateAddr m.mem (r' * 4096) b := by
  obtain ⟨hslot, _, ⟨g', hg', _⟩, hleaves⟩ :=
    vmmMapPage_ok hf (by decide) h hr (Or.inl rfl) hrun
  obtain ⟨hpresent, hframe⟩ := leafEntry_frame flags hpaddr
  have hslot' : index (canonicalForm v) 39 ≠ 0 := by
    rw [index_canonicalForm v (by decide)]
    exact hslot
  rw [← pathOf_canonicalForm v, ← index_canonicalForm v (by decide)] at hleaves
  have htranslate :=
    translate_of_leaf h.spaces hg'.spaces hr (canonical_canonicalForm v) hslot'
      hpresent hleaves
  rw [hframe] at htranslate
  exact ⟨hslot, htranslate⟩

/-- Mapping a frame that is idle already. -/
theorem DataInv.mapIdle
    (hf : FreshPages alloc Valid held) (h : DataInv 3 alloc Valid held m roots g)
    {paddr flags : Nat} (hr : r ∈ roots)
    (hidle : Idle alloc m.pmm g (frameOf (leafEntry paddr flags)))
    (hrun : vmmMapPage alloc m (r * 4096) v paddr flags = .ok m') :
    ∃ g', DataInv 3 alloc Valid held m' roots g' ∧
      ∀ n, Idle alloc m.pmm g n →
        Idle alloc m'.pmm g' n ∧ ∀ x, x / 4096 = n → m'.mem x = m.mem x := by
  obtain ⟨_, _, ⟨g', hg', hkeep⟩, hleaves⟩ :=
    vmmMapPage_ok hf (by decide) h.inv hr (Or.inl rfl) hrun
  refine ⟨g', ⟨hg', ?_⟩, hkeep⟩
  intro r' js j e hr' hjs hlen hleaf
  rw [hleaves r' js j hr' hjs hlen] at hleaf
  split_ifs at hleaf
  · rw [Option.some.injEq] at hleaf
    rw [← hleaf]
    exact (hkeep _ hidle).1
  · exact (hkeep _ (h.idle r' js j e hr' hjs hlen hleaf)).1

/-- What mapping one missing page of the window keeps, the loop keeps. -/
theorem fbMapPages_keeps
    {Q : Machine σ → Prop} {pml4 : Nat} (n : Nat) :
    ∀ i m,
      (∀ m m' k, i ≤ k → k < i + n → Q m →
        vmmPagePresent m.mem pml4 ((userFbVaddr + k * pmmPageSize) % 2 ^ 64) =
          false →
        vmmMapPage alloc m pml4 ((userFbVaddr + k * pmmPageSize) % 2 ^ 64)
            ((fb.base + k * pmmPageSize) % 2 ^ 64) vmmMapWrite = .ok m' →
          Q m') →
      Q m → fbMapPages alloc fb pml4 n i m = .ok m' → Q m' := by
  induction n with
  | zero =>
      intro i m _ h hrun
      simp only [fbMapPages, Except.ok.injEq] at hrun
      subst hrun
      exact h
  | succ n ih =>
      intro i m hpage h hrun
      have hrest := ih (i + 1)
      rw [fbMapPages] at hrun
      split_ifs at hrun with hpresent
      · exact
          hrest m (fun m m' k hk hlt => hpage m m' k (by omega) (by omega)) h hrun
      · obtain ⟨m₁, hmap, hrun⟩ := bind_eq_ok.mp hrun
        have h₁ :=
          hpage m m₁ i (le_refl i) (by omega) h (Bool.eq_false_iff.mpr hpresent)
            hmap
        exact
          hrest m₁ (fun m m' k hk hlt => hpage m m' k (by omega) (by omega)) h₁ hrun

/-- The pages of the framebuffer hold bytes of it. -/
theorem Framebuffer.Apart.page
    (hfb : fb.Apart K) {i : Nat} (hi : i < fb.pageCount) :
    (fb.base + i * pmmPageSize) % 2 ^ 64 / 4096 % 2 ^ 40 ∈ K := by
  unfold Framebuffer.pageCount pmmPageSize at hi
  have hmem := hfb (fb.base + i * 4096) (by omega) (by omega)
  unfold pmmPageSize
  rw [show (fb.base + i * 4096) % 2 ^ 64 / 4096 % 2 ^ 40 =
    (fb.base + i * 4096) / 4096 % 2 ^ 40 by omega]
  exact hmem

/-- `SYS_FB_MAP` maps frames of `K`. -/
theorem sysFbMap_ok
    (ha : AllocApart alloc Valid held K) (hfb : fb.Apart K) {ret : Nat} (hr : r ∈ roots)
    (h : DataInv 3 alloc Valid held m roots g)
    (hrun : sysFbMap alloc fb m (r * 4096) = .ok (ret, m')) :
    ∃ g', DataInv 3 alloc Valid held m' roots g' := by
  obtain ⟨m₁, hpages, hret⟩ := bind_eq_ok.mp hrun
  simp only [Except.ok.injEq, Prod.mk.injEq] at hret
  rw [← hret.2]
  refine
    fbMapPages_keeps (Q := fun m => ∃ g, DataInv 3 alloc Valid held m roots g) _ 0
      m ?_ ⟨g, h⟩ hpages
  rintro m m' k _ hk ⟨g, h⟩ _ hmap
  have hframe := hfb.page (i := k) (by omega)
  rw [← (leafEntry_frame vmmMapWrite
    (Nat.mod_lt (fb.base + k * pmmPageSize) (by decide))).2] at hframe
  obtain ⟨g', h', _⟩ := h.mapIdle ha.toFreshPages hr (ha.idle h hframe) hmap
  exact ⟨g', h'⟩

end Steps

section Runs

variable {K : Finset Nat}

theorem SystemOk.onSpace
    {π α : Type} {run : Except π (α × Machine σ)} (hs : SystemOk alloc Valid held s)
    (hstep : ∀ r g a m', cr3 = r * 4096 → r ∈ rootFrames s.roots →
      DataInv 3 alloc Valid held s.machine (rootFrames s.roots) g →
      run = .ok (a, m') →
        ∃ g', DataInv 3 alloc Valid held m' (rootFrames s.roots) g')
    (h : onSpace s cr3 run = some s') : SystemOk alloc Valid held s' := by
  obtain ⟨hmem, a, m', hrun, rfl⟩ := onSpace_eq_some h
  obtain ⟨r, rfl⟩ := hs.frames _ hmem
  obtain ⟨g, hg⟩ := hs.inv
  obtain ⟨g', hg'⟩ := hstep r g a m' rfl hmem hg hrun
  exact ⟨hs.frames, g', hg'⟩

theorem createAddressSpace_eq_some
    (h : processCall alloc s .createAddressSpace = some s') :
    ∃ cr3 m, vmmCreateAddressSpace alloc s.machine = .ok (cr3, m) ∧
      s' = { machine := m, roots := cr3 :: s.roots } := by
  simp only [processCall, Vmm.call] at h
  split at h
  next cr3 m hcreate =>
    simp only [Option.some.injEq] at h
    exact ⟨cr3, m, hcreate, h.symm⟩
  next =>
    cases h

/-- A new space has one private page, the first one of slot 1. -/
theorem SystemOk.createAddressSpace
    {m : Machine σ} (hf : FreshPages alloc Valid held)
    (hs : SystemOk alloc Valid held s)
    (h : vmmCreateAddressSpace alloc s.machine = .ok (cr3, m)) :
    SystemOk alloc Valid held { machine := m, roots := cr3 :: s.roots } ∧
      ∀ v, index v 39 ≠ 0 → v / 4096 ≠ 2 ^ 39 / 4096 →
        translateAddr m.mem cr3 v = none := by
  obtain ⟨g, hg⟩ := hs.inv
  obtain ⟨p, p0, g', rfl, hnew⟩ :=
    vmmCreateAddressSpace_ok hf (Or.inl rfl) hg.inv h
  refine ⟨⟨?_, g', ?_⟩, ?_⟩
  · intro a ha
    rcases List.mem_cons.mp ha with rfl | ha
    · exact ⟨p, rfl⟩
    · exact hs.frames a ha
  · rw [rootFrames_cons]
    exact dataInv_of_created hnew hg
  · intro v hslot hpage
    have hp : p ∈ insert p (rootFrames s.roots) := Set.mem_insert p _
    by_cases hcanon : Canonical v
    · rw [hnew.inv.spaces.translate_high hp hcanon hslot,
        hnew.leaves p _ _ hp (okPath_pathOf hslot) rfl, if_pos rfl, if_neg]
      · rfl
      · rintro ⟨hpath, h12⟩
        simp only [pathOf, List.cons.injEq, and_true] at hpath
        exact
          hpage
            (page_eq_of_index_eq hcanon (show Canonical (2 ^ 39) by decide)
              (hpath.1.trans (by decide)) (hpath.2.1.trans (by decide))
              (hpath.2.2.trans (by decide)) (h12.trans (by decide)))
    · exact translate_not_canonical hcanon

theorem SystemOk.processCall
    {c : ProcessCall} (hf : FreshPages alloc Valid held)
    (hs : SystemOk alloc Valid held s) (h : processCall alloc s c = some s') :
    SystemOk alloc Valid held s' := by
  cases c with
  | createAddressSpace =>
      obtain ⟨cr3, m, hcreate, rfl⟩ := createAddressSpace_eq_some h
      exact (hs.createAddressSpace hf hcreate).1
  | loadUserProgram elfData elfSize pml4Phys argv =>
      refine hs.onSpace ?_ h
      rintro r g out m' rfl hr hg hrun
      exact elfLoadUserProgram_ok hf (by decide) hg hr hrun
  | stackFault cr3 faultAddr errorCode fromRing3 =>
      refine hs.onSpace ?_ h
      rintro r g ret m' rfl hr hg hrun
      exact elfHandleStackFault_ok hf (by decide) hg hr hrun
  | sbrk pml4 oldBrk increment =>
      refine hs.onSpace ?_ h
      rintro r g a m' rfl hr hg hrun
      obtain ⟨res, hsbrk, hres⟩ := map_eq_ok.mp hrun
      simp only [Prod.mk.injEq] at hres
      rw [← hres.2]
      exact sysSbrk_ok hf (by decide) hg hr hsbrk

/-- Every event keeps the invariant. -/
theorem event_preserves
    {e : Event} (ha : AllocApart alloc Valid held K) (hfb : fb.Apart K)
    (hs : SystemOk alloc Valid held s) (h : event alloc fb K s e = some s') :
    SystemOk alloc Valid held s' := by
  cases e with
  | process c =>
      exact hs.processCall ha.toFreshPages h
  | fbMap pml4 =>
      refine hs.onSpace ?_ h
      rintro r g a m' rfl hr hg hrun
      exact sysFbMap_ok ha hfb hr hg hrun
  | userStore cr3 v b =>
      simp only [event] at h
      split_ifs at h with hmem
      obtain ⟨m', hstore, rfl⟩ := Option.map_eq_some_iff.mp h
      obtain ⟨r, rfl⟩ := hs.frames _ hmem
      obtain ⟨g, hg⟩ := hs.inv
      obtain ⟨hslot, t, ht, _, _, rfl⟩ := userStore_eq_some hstore
      exact
        ⟨hs.frames, g,
          hg.write (by decide) (hg.idle_of_translate hmem hslot ht).2
            (sameOutside_poke _ _ _)⟩
  | kernelStore a b =>
      simp only [event] at h
      split_ifs at h with hK
      simp only [Option.some.injEq] at h
      subst h
      obtain ⟨g, hg⟩ := hs.inv
      exact
        ⟨hs.frames, g,
          hg.write (by decide)
            (hg.inv.spaces.not_table_of_not_held (ha.not_held _ _ hK))
            (sameOutside_poke _ _ _)⟩

/--
`s` is a state of the system: after `vmm_init`, with an allocator that hands out
fresh pages and none of the frames `K`, after any sequence of events.
-/
structure Reachable (alloc : σ → Nat × σ) (Valid : σ → Prop)
    (held : σ → Set Nat) (fb : Framebuffer) (K : Finset Nat) (s : Spaces σ) :
    Prop where
  fresh : FreshPages alloc Valid held
  framebuffer : fb.Apart K
  reached :
    ∃ m₀ m₁ events, Valid m₀.pmm ∧ (∀ n, n ∈ K → Retained alloc m₀.pmm n) ∧
      vmmInit alloc m₀ = .ok m₁ ∧
      runAll (event alloc fb K) (boot m₁) events = some s

/-- A space of the system. -/
abbrev Reachable.target
    {roots : Set Nat} (hs : Reachable alloc Valid held fb K s) (hr : r ∈ roots) :
    Target σ where
  alloc := alloc
  Valid t := Valid t ∧ ∀ n, n ∈ (K : Set Nat) → Retained alloc t n
  held t := held t \ (K : Set Nat)
  K := K
  roots := roots
  r := r
  apart := FreshPages.allocApart hs.fresh K
  root := hr

/-- The invariant holds in every state of the system. -/
theorem Reachable.systemOk
    (hs : Reachable alloc Valid held fb K s) :
    SystemOk alloc (fun t => Valid t ∧ ∀ n, n ∈ (K : Set Nat) → Retained alloc t n)
      (fun t => held t \ (K : Set Nat)) s := by
  obtain ⟨m₀, m₁, events, hv, hK, hinit, hrun⟩ := hs.reached
  have ha := FreshPages.allocApart hs.fresh K
  refine
    runAll_invariant
      (fun _ _ _ hok hstep => event_preserves ha hs.framebuffer hok hstep) ?_ hrun
  -- after `vmm_init` there are no leaves, so the mapped frames are even owned
  have hboot := spacesOk_boot (show 3 ≤ 4 by decide) ha.toFreshPages ⟨hv, hK⟩ hinit
  obtain ⟨g, hg⟩ := hboot.inv
  exact ⟨hboot.frames, g, (dataInv_of_owned ha.toFreshPages hg).three⟩

end Runs

section Boot

/-- No framebuffer. -/
def noFramebuffer : Framebuffer := { base := 0, size := 0 }

/-- A machine whose free pages start at frame 16. -/
def lowMachine : Machine Nat :=
  { mem := fun _ => 0
    kernelPml4 := 0
    pmm := 16 }

/-- The kernel reads a file into the frames from 1 on. -/
def storeFile (file : List UInt8) : List Event :=
  file.mapIdx (fun k b => .kernelStore (4096 + k) b)

/-- The system with a file in memory after some events. -/
def bootWith (fb : Framebuffer) (file : List UInt8) (events : List Event) :
    Option (Spaces Nat) :=
  (vmmInit bumpAlloc lowMachine).toOption.bind
    (fun m =>
      runAll (event bumpAlloc fb (Finset.range 16)) (boot m)
        (storeFile file ++ events))

/-- The same without a framebuffer. -/
def bootFile (file : List UInt8) (events : List Event) : Option (Spaces Nat) :=
  bootWith noFramebuffer file events

theorem reachable_of_bootWith
    (hfb : fb.Apart (Finset.range 16)) {events : List Event} {s : Spaces Nat}
    (h : bootWith fb file events = some s) :
    Reachable bumpAlloc (fun n => 0 < n) (fun n => {k | k < n}) fb
      (Finset.range 16) s := by
  obtain ⟨m₁, hinit, hrun⟩ := Option.bind_eq_some_iff.mp h
  refine
    { fresh := freshPages_bumpAlloc
      framebuffer := hfb
      reached :=
        ⟨lowMachine, m₁, storeFile file ++ events, Nat.succ_pos 15, ?_,
          toOption_eq_some.mp hinit, hrun⟩ }
  intro n hn
  exact freshPages_bumpAlloc.retained (Nat.succ_pos 15) (Finset.mem_range.mp hn)

theorem reachable_of_bootFile
    {events : List Event} {s : Spaces Nat} (h : bootFile file events = some s) :
    Reachable bumpAlloc (fun n => 0 < n) (fun n => {k | k < n}) noFramebuffer
      (Finset.range 16) s := by
  refine reachable_of_bootWith ?_ h
  intro x _ hlt
  exact absurd hlt (Nat.not_lt_zero x)

theorem bootWith_create
    {s : Spaces Nat} (h : bootWith fb file [.process .createAddressSpace] = some s) :
    ∃ s₀ cr3 m, bootWith fb file [] = some s₀ ∧
      vmmCreateAddressSpace bumpAlloc s₀.machine = .ok (cr3, m) ∧
      s = { machine := m, roots := cr3 :: s₀.roots } := by
  obtain ⟨m₁, hinit, hrun⟩ := Option.bind_eq_some_iff.mp h
  rw [runAll_append] at hrun
  obtain ⟨s₀, hstore, hrun⟩ := Option.bind_eq_some_iff.mp hrun
  obtain ⟨s', hevent, hrest⟩ := runAll_cons_success hrun
  simp only [runAll_nil, Option.some.injEq] at hrest
  subst hrest
  obtain ⟨cr3, m, hcreate, rfl⟩ := createAddressSpace_eq_some hevent
  refine ⟨s₀, cr3, m, ?_, hcreate, rfl⟩
  rw [bootWith, hinit, Option.bind_some, List.append_nil]
  exact hstore

/-- An executable without program headers. -/
def emptyProgram : List UInt8 :=
  [0x7F, 0x45, 0x4C, 0x46, 2] ++ List.replicate 13 0 ++ [62] ++
    List.replicate 45 0

end Boot

end Elf
end RebornOS
