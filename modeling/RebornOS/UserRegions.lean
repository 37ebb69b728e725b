import RebornOS.ElfFaithful
import RebornOS.UserHeap

/-!
# Heap, framebuffer window and stack in one address space

Three mechanisms map pages into the same space: `SYS_SBRK` from
`USER_HEAP_VADDR_START` upwards, `SYS_FB_MAP` from `USER_FB_VADDR` upwards, and
the page fault handler below `ELF_USER_STACK_TOP`.  Each of them skips a page
that is mapped already, whoever mapped it, and only the fault handler looks at
the limits of its region.  The regions stay apart as long as every `SYS_SBRK`
keeps the break at or below the window and the framebuffer fits into the window.
-/

namespace RebornOS
namespace Elf

open ByteStore WordBits PageWalk Fallible LabeledRun Vmm

variable {σ : Type} {t : Translation}
  {brk cr3 elfData elfSize f increment k n page q r rax v : Nat} {C : Prop}
  {K : Finset Nat} {argv : List (List UInt8)} {out : Process} {rights : Rights}
  {fb : Framebuffer} {m m₁ m' : Machine σ} {alloc : σ → Nat × σ} {Valid : σ → Prop}
  {held : σ → Set Nat}

section Model

/-- A process with its break; whether `SYS_FB_MAP` has returned to it. -/
structure RegionState (σ : Type) where
  machine : Machine σ
  brk : Nat
  fbMapped : Bool

/-- The three ways to get memory. -/
inductive RegionCall
  | sbrk (increment : Nat)
  | fbMap
  | stackFault (faultAddr errorCode : Nat) (fromRing3 : Bool)
  deriving DecidableEq, Repr

/-- One call or fault; a panic ends the run. -/
def regionCall (alloc : σ → Nat × σ) (fb : Framebuffer) (cr3 : Nat)
    (s : RegionState σ) : RegionCall → Option (RegionState σ)
  | .sbrk increment =>
      (sysSbrk alloc s.machine cr3 s.brk increment).toOption.map
        (fun r => { s with machine := r.2.2, brk := r.2.1 })
  | .fbMap =>
      (sysFbMap alloc fb s.machine cr3).toOption.map
        (fun r => { s with machine := r.2, fbMapped := true })
  | .stackFault faultAddr errorCode fromRing3 =>
      (elfHandleStackFault alloc s.machine cr3 faultAddr errorCode
        fromRing3).toOption.map (fun r => { s with machine := r.2 })

/-- A process that has just been loaded. -/
def loadedRegions (m : Machine σ) : RegionState σ :=
  { machine := m, brk := userHeapVaddrStart, fbMapped := false }

/-- The lowest address of the stack. -/
def stackLow : Nat := elfUserStackTop - elfUserStackMaxPages * pmmPageSize

/-- The frame holds a byte of the framebuffer. -/
def Framebuffer.HasFrame (fb : Framebuffer) (n : Nat) : Prop :=
  ∃ x, fb.base ≤ x ∧ x < fb.base + fb.size ∧ x / 4096 % 2 ^ 40 = n

/-- Heap, framebuffer and stack have not run into each other. -/
structure RegionsApart (fb : Framebuffer) (cr3 : Nat) (s : RegionState σ) :
    Prop where
  heap :
    ∀ v, userHeapVaddrStart ≤ v → v < s.brk →
      ∃ t, translateAddr s.machine.mem cr3 v = some t ∧
        t.rights.writable = true ∧ ¬ fb.HasFrame (t.phys / 4096) ∧
        ∀ w t', stackLow ≤ w → w < elfUserStackTop →
          translateAddr s.machine.mem cr3 w = some t' →
            t'.phys / 4096 ≠ t.phys / 4096
  framebuffer :
    s.fbMapped = true → ∀ k, k < fb.size →
      ∃ t, translateAddr s.machine.mem cr3 (userFbVaddr + k) = some t ∧
        t.phys = fb.base + k

/-- The tables can name the framebuffer, and its window ends below the stack. -/
structure Framebuffer.Fits (fb : Framebuffer) : Prop where
  aligned : fb.base % 4096 = 0
  named : fb.base + fb.size ≤ 2 ^ 52
  window : userFbVaddr + (fb.size + 4095) / 4096 * 4096 ≤ stackLow

/-- `SYS_SBRK` is not asked to move the break past the start of the window. -/
def BreakBelow (s : RegionState σ) : RegionCall → RegionState σ → Prop
  | .sbrk increment, _ => s.brk + increment ≤ userFbVaddr
  | _, _ => True

instance (s : RegionState σ) (c : RegionCall) (t : RegionState σ) :
    Decidable (BreakBelow s c t) := by
  cases c <;> unfold BreakBelow <;> infer_instance

end Model

section Invariant

/-- A space with the page at which its heap ends, and the framebuffer. -/
structure Setting (σ : Type) extends Target σ where
  fb : Framebuffer
  limit : Nat
  kept : fb.Apart K
  fits : fb.Fits
  limit_le : limit ≤ stackLow / 4096

variable {P : Setting σ}

/--
What the pages of the space have behind them: those of the heap frames of their
own, and those of the window, above the heap, the frames of the framebuffer.
-/
structure RegionInv (P : Setting σ) (m : Machine σ) : Prop where
  inv : ∃ g, DataInv 3 P.alloc P.Valid P.held m P.roots g
  heap :
    ∀ v t, userHeapVaddrStart ≤ v → v / 4096 < P.limit →
      translateAddr m.mem (P.r * 4096) v = some t →
        t.rights = mapRights vmmMapWrite ∧ t.phys / 4096 ∉ P.K
  own :
    ∀ v w t t', userHeapVaddrStart ≤ v → v / 4096 < P.limit → index w 39 ≠ 0 →
      translateAddr m.mem (P.r * 4096) v = some t →
      translateAddr m.mem (P.r * 4096) w = some t' →
      t'.phys / 4096 = t.phys / 4096 →
        w / 4096 = v / 4096
  window :
    ∀ v t j, v / 4096 = userFbVaddr / 4096 + j → P.limit ≤ v / 4096 →
      j < P.fb.pageCount →
      translateAddr m.mem (P.r * 4096) v = some t →
        t.phys / 4096 = (P.fb.base + j * pmmPageSize) % 2 ^ 64 / 4096 % 2 ^ 40

/-- A missing page of space `r` has been mapped to frame `f`. -/
structure OneMapped (mem mem' : Store) (r page f : Nat) (rights : Rights) :
    Prop where
  absent : ∀ b, b / 4096 = page → translateAddr mem (r * 4096) b = none
  new :
    ∀ b, b / 4096 = page →
      translateAddr mem' (r * 4096) b =
        some { phys := f * 4096 + b % 4096, rights := rights }
  old :
    ∀ b, b / 4096 ≠ page →
      translateAddr mem' (r * 4096) b = translateAddr mem (r * 4096) b

theorem frame_of_new
    {b : Nat} (h : some { phys := f * 4096 + b % 4096, rights := rights } = some t) :
    t.phys / 4096 = f ∧ t.rights = rights := by
  rw [Option.some.injEq] at h
  subst h
  exact ⟨by dsimp only; omega, rfl⟩

/-- An address from the heap on that is mapped at all is a private one. -/
theorem slot_of_translate
    {mem : Store} (hv : userHeapVaddrStart ≤ v) (ht : translateAddr mem cr3 v = some t) :
    Canonical v ∧ index v 39 ≠ 0 := by
  have hcanon : Canonical v := by
    by_contra hnot
    rw [translate_not_canonical hnot] at ht
    cases ht
  refine ⟨hcanon, fun hslot => ?_⟩
  have hlow := lt_of_index_eq_zero hcanon hslot
  unfold userHeapVaddrStart elfUserLoadBase at hv
  omega

/-- Mapping one missing page with a frame that suits it. -/
theorem RegionInv.map
    (h : RegionInv P m) (hinv : ∃ g, DataInv 3 P.alloc P.Valid P.held m' P.roots g)
    (hm : OneMapped m.mem m'.mem P.r page f rights) (hheap : page < P.limit →
      rights = mapRights vmmMapWrite ∧ f ∉ P.K ∧
        ∀ w t, index w 39 ≠ 0 → translateAddr m.mem (P.r * 4096) w = some t →
          t.phys / 4096 ≠ f)
    (hother : ∀ v t, userHeapVaddrStart ≤ v → v / 4096 < P.limit →
      translateAddr m.mem (P.r * 4096) v = some t → t.phys / 4096 ≠ f)
    (hwindow : ∀ j, page = userFbVaddr / 4096 + j → P.limit ≤ page →
      j < P.fb.pageCount →
        f = (P.fb.base + j * pmmPageSize) % 2 ^ 64 / 4096 % 2 ^ 40) :
    RegionInv P m' := by
  refine { inv := hinv, heap := ?_, own := ?_, window := ?_ }
  · intro v t hv hlt ht
    by_cases hpage : v / 4096 = page
    · rw [hm.new v hpage] at ht
      obtain ⟨hframe, hrights⟩ := frame_of_new ht
      obtain ⟨hwrite, hK, _⟩ := hheap (hpage ▸ hlt)
      rw [hframe, hrights]
      exact ⟨hwrite, hK⟩
    · rw [hm.old v hpage] at ht
      exact h.heap v t hv hlt ht
  · intro v w t t' hv hlt hslot ht ht' hsame
    by_cases hpage : v / 4096 = page
    · rw [hm.new v hpage] at ht
      rw [(frame_of_new ht).1] at hsame
      by_contra hne
      rw [hm.old w (fun hw => hne (hw.trans hpage.symm))] at ht'
      exact (hheap (hpage ▸ hlt)).2.2 w t' hslot ht' hsame
    · rw [hm.old v hpage] at ht
      by_cases hw : w / 4096 = page
      · -- the frame mapped now would be the frame behind `v`
        rw [hm.new w hw] at ht'
        rw [(frame_of_new ht').1] at hsame
        exact absurd hsame.symm (hother v t hv hlt ht)
      · rw [hm.old w hw] at ht'
        exact h.own v w t t' hv hlt hslot ht ht' hsame
  · intro v t j hv hle hj ht
    by_cases hpage : v / 4096 = page
    · rw [hm.new v hpage] at ht
      rw [(frame_of_new ht).1]
      exact hwindow j (hpage.symm.trans hv) (hpage ▸ hle) hj
    · rw [hm.old v hpage] at ht
      exact h.window v t j hv hle hj ht

end Invariant

variable {P : Setting σ}

section Growth

variable {Q : Nat → Prop}

/-- The address is mapped. -/
def Mapped (P : Setting σ) (m : Machine σ) (v : Nat) : Prop :=
  (translateAddr m.mem (P.r * 4096) v).isSome = true

/-- The machine `m` has come to `m'`, where the pages `Q` are mapped. -/
structure Extended (P : Setting σ) (Q : Nat → Prop) (m m' : Machine σ) : Prop where
  regions : RegionInv P m'
  keeps : ∀ v, Mapped P m v → Mapped P m' v
  covers : ∀ v, Q (v / 4096) → Mapped P m' v

/-- If `C` holds: page `q` and those behind it, `n` in all. -/
def Span (C : Prop) (q n k : Nat) : Prop := C ∧ q ≤ k ∧ k < q + n

theorem Extended.nil
    (h : RegionInv P m) : Extended P (Span C q 0) m m :=
  ⟨h, fun _ hv => hv, fun v hv => absurd hv.2 (by omega)⟩

theorem Extended.cons
    (h : Extended P (· = q) m m₁) (h' : Extended P (Span C (q + 1) n) m₁ m') :
    Extended P (Span C q (n + 1)) m m' where
  regions := h'.regions
  keeps v hv := h'.keeps v (h.keeps v hv)
  covers v hv := by
    by_cases hq : v / 4096 = q
    · exact h'.keeps v (h.covers v hq)
    · exact h'.covers v ⟨hv.1, by have := hv.2; omega⟩

/-- One page more. -/
theorem OneMapped.extended
    (hm : OneMapped m.mem m'.mem P.r page f rights) (h : RegionInv P m') :
    Extended P (· = page) m m' := by
  have hnew : ∀ v, v / 4096 = page → Mapped P m' v := by
    intro v hv
    unfold Mapped
    rw [hm.new v hv]
    rfl
  refine ⟨h, fun v hv => ?_, hnew⟩
  by_cases hpage : v / 4096 = page
  · exact hnew v hpage
  · unfold Mapped
    rw [hm.old v hpage]
    exact hv

/-- A page that `vmm_page_present` finds needs no mapping. -/
theorem RegionInv.present
    (h : RegionInv P m) (hslot : index v 39 ≠ 0)
    (hpresent : vmmPagePresent m.mem (P.r * 4096) v = true) :
    Extended P (· = canonicalForm v / 4096) m m := by
  refine ⟨h, fun _ hv => hv, fun b hb => ?_⟩
  obtain ⟨g, hg⟩ := h.inv
  have hslot' : index b 39 ≠ 0 := by
    rw [index_eq_of_page_eq hb (by decide), index_canonicalForm v (by decide)]
    exact hslot
  rw [hg.vmmPagePresent_eq P.root hslot, hg.paged P.root _ b hb.symm,
    privateSpace_of_ne hslot', Option.isSome_map] at hpresent
  exact hpresent

/-- A page that `vmm_page_present` reports missing and `vmm_map_page` accepts. -/
theorem oneMapped_of_missing
    {roots : Set Nat} {g : Ghost} (h : DataInv 3 alloc Valid held m roots g)
    (hr : r ∈ roots) (hmissing : vmmPagePresent m.mem (r * 4096) v = false)
    (hslot : index v 39 ≠ 0) (hnew : ∀ b, b / 4096 = canonicalForm v / 4096 →
      translateAddr m'.mem (r * 4096) b =
        some { phys := f * 4096 + b % 4096, rights := rights })
    (hold : ∀ b, b / 4096 ≠ canonicalForm v / 4096 →
      translateAddr m'.mem (r * 4096) b = translateAddr m.mem (r * 4096) b) :
    OneMapped m.mem m'.mem r (canonicalForm v / 4096) f rights := by
  refine ⟨?_, hnew, hold⟩
  intro b hb
  have hplace : index b 39 ≠ 0 := by
    rw [index_eq_of_page_eq hb (by decide), index_canonicalForm v (by decide)]
    exact hslot
  rw [h.vmmPagePresent_eq hr hslot, h.paged hr _ b hb.symm,
    privateSpace_of_ne hplace, Option.isSome_map] at hmissing
  simpa using hmissing

/-- `SYS_SBRK` and the fault handler map a frame that is mapped nowhere else. -/
theorem RegionInv.mapFresh
    (h : RegionInv P m) (hmissing : vmmPagePresent m.mem (P.r * 4096) v = false)
    (hne : (P.alloc m.pmm).1 ≠ 0) (hmap : vmmMapPage P.alloc
      { m with
        mem := fill m.mem (P.alloc m.pmm).1 pmmPageSize 0
        pmm := (P.alloc m.pmm).2 }
      (P.r * 4096) v (P.alloc m.pmm).1 vmmMapWrite = .ok m')
    (hwindow : ∀ j, canonicalForm v / 4096 = userFbVaddr / 4096 + j →
      P.limit ≤ canonicalForm v / 4096 → P.fb.pageCount ≤ j) :
    Extended P (· = canonicalForm v / 4096) m m' := by
  have ha := P.apart
  have hr := P.root
  obtain ⟨g, hg⟩ := h.inv
  obtain ⟨p, hp, _⟩ := ha.frame hg.inv.valid hne
  rw [hp] at hmap
  obtain ⟨g', hm⟩ :=
    mapFresh_ok ha.toFreshPages (by decide) hg.inv hne hp
      (sameOutside_fill m.mem p) hr hmap
  obtain ⟨hnew, hold⟩ := hm.translate hg.inv hr
  have hone :=
    oneMapped_of_missing hg hr hmissing hm.slot hnew
      (fun b hb => hold P.r b hr (Or.inr hb))
  have hfresh : ∀ w t, index w 39 ≠ 0 →
      translateAddr m.mem (P.r * 4096) w = some t → t.phys / 4096 ≠ p :=
    fun w t hslot ht => (hm.others _ (hg.idle_of_translate hr hslot ht)).1
  refine hone.extended (h.map ⟨g', hm.dataInv hg⟩ hone ?_ ?_ ?_)
  · exact fun _ => ⟨rfl, fun hK => (hm.others p (ha.idle hg hK)).1 rfl, hfresh⟩
  · exact fun v t hv _ ht => hfresh v t (slot_of_translate hv ht).2 ht
  · exact fun j hj hle hlt => absurd hlt (Nat.not_lt.mpr (hwindow j hj hle))

/-- An allocator that has no frame left changes no mapping. -/
theorem RegionInv.allocFailed
    (h : RegionInv P m) (hQ : ∀ k, ¬ Q k) :
    Extended P Q m { m with pmm := (P.alloc m.pmm).2 } := by
  obtain ⟨g, hg⟩ := h.inv
  exact
    ⟨{ h with inv := ⟨g, hg.allocFailed P.apart.toFreshPages (by decide)⟩ },
      fun _ hv => hv, fun _ hv => absurd hv (hQ _)⟩

/-- Pages from the start of the heap to the stack are canonical and private. -/
theorem page_below_stack
    (hlow : userHeapVaddrStart / 4096 ≤ page) (hhigh : page < stackLow / 4096) :
    canonicalForm (page * 4096) / 4096 = page ∧ index (page * 4096) 39 ≠ 0 := by
  have hstart : userHeapVaddrStart = 0x8001400000 := rfl
  have hstack : stackLow = 0x800FFC0000 := rfl
  rw [canonicalForm_of_canonical (by unfold Canonical; omega)]
  refine ⟨Nat.mul_div_cancel page (by decide), ?_⟩
  unfold index
  simp only [ne_eq, Fin.ext_iff, Fin.val_zero]
  omega

/-- The loop of `SYS_SBRK`, as long as it stays below the limit of the heap. -/
theorem RegionInv.sbrkPages
    {ok : Bool} (n : Nat) :
    ∀ q m, RegionInv P m → userHeapVaddrStart / 4096 ≤ q → q + n ≤ P.limit →
      Elf.sbrkPages P.alloc (P.r * 4096) n (q * 4096) m = .ok (ok, m') →
        Extended P (Span (ok = true) q n) m m' := by
  induction n with
  | zero =>
      intro q m h _ _ hrun
      simp only [Elf.sbrkPages, Except.ok.injEq, Prod.mk.injEq] at hrun
      rw [← hrun.2]
      exact Extended.nil h
  | succ n ih =>
      intro q m h hlow hhigh hrun
      have hlimit := P.limit_le
      obtain ⟨hpage, hslot⟩ := page_below_stack hlow (by omega)
      have hnext : q * 4096 + pmmPageSize = (q + 1) * 4096 := by
        unfold pmmPageSize
        omega
      rw [Elf.sbrkPages, hnext] at hrun
      dsimp only at hrun
      split_ifs at hrun with hpresent hne
      · have hone := h.present hslot hpresent
        rw [hpage] at hone
        exact hone.cons (ih _ m h (by omega) (by omega) hrun)
      · simp only [Except.ok.injEq, Prod.mk.injEq] at hrun
        obtain ⟨rfl, rfl⟩ := hrun
        exact h.allocFailed (fun k hk => absurd hk.1 Bool.false_ne_true)
      · obtain ⟨m₁, hmap, hrun⟩ := bind_eq_ok.mp hrun
        have hone :=
          h.mapFresh (Bool.eq_false_iff.mpr hpresent) hne hmap
            (fun j _ hle => by omega)
        rw [hpage] at hone
        exact hone.cons (ih _ m₁ hone.regions (by omega) (by omega) hrun)

theorem Framebuffer.Fits.pageCount_eq
    (hfits : fb.Fits) : fb.pageCount = (fb.size + 4095) / 4096 := by
  have hnamed := hfits.named
  unfold Framebuffer.pageCount pmmPageSize
  omega

/-- Page `k` of a window that ends below the stack. -/
theorem Framebuffer.Fits.window_page
    (hfits : fb.Fits) (hk : k < fb.pageCount) :
    (userFbVaddr + k * pmmPageSize) % 2 ^ 64 = (userFbVaddr / 4096 + k) * 4096 ∧
      userFbVaddr / 4096 + k < stackLow / 4096 := by
  have hwindow := hfits.window
  rw [hfits.pageCount_eq] at hk
  have hstart : userFbVaddr = 0x8008400000 := rfl
  have hstack : stackLow = 0x800FFC0000 := rfl
  unfold pmmPageSize
  omega

/-- `SYS_FB_MAP` maps a missing page of the window to a frame of the framebuffer. -/
theorem RegionInv.mapWindow
    (h : RegionInv P m) (hlimit : P.limit ≤ userFbVaddr / 4096)
    (hk : k < P.fb.pageCount) (hpage : canonicalForm v / 4096 = userFbVaddr / 4096 + k)
    (hmissing : vmmPagePresent m.mem (P.r * 4096) v = false)
    (hmap : vmmMapPage P.alloc m (P.r * 4096) v
      ((P.fb.base + k * pmmPageSize) % 2 ^ 64) vmmMapWrite = .ok m') :
    Extended P (· = canonicalForm v / 4096) m m' := by
  have ha := P.apart
  have hr := P.root
  obtain ⟨g, hg⟩ := h.inv
  have hpaddr := Nat.mod_lt (P.fb.base + k * pmmPageSize) (show 0 < 2 ^ 64 by decide)
  have hframe := P.kept.page hk
  obtain ⟨hslot, hnew, hold⟩ :=
    vmmMapPage_translate ha.toFreshPages hg.inv hr hpaddr hmap
  have hone :=
    oneMapped_of_missing hg hr hmissing hslot hnew
      (fun b hb => hold P.r b hr (Or.inr hb))
  have hidle := ha.idle hg hframe
  rw [← (leafEntry_frame vmmMapWrite hpaddr).2] at hidle
  obtain ⟨g', hg', _⟩ := hg.mapIdle ha.toFreshPages hr hidle hmap
  refine hone.extended (h.map ⟨g', hg'⟩ hone ?_ ?_ ?_)
  · intro hlt
    omega
  · intro v t hv hlt ht hsame
    exact (h.heap v t hv hlt ht).2 (hsame ▸ hframe)
  · intro j hj _ _
    rw [show j = k by omega]

/-- The loop of `SYS_FB_MAP`. -/
theorem RegionInv.fbMapPages
    (hlimit : P.limit ≤ userFbVaddr / 4096) (n : Nat) :
    ∀ i m, RegionInv P m → i + n ≤ P.fb.pageCount →
      Elf.fbMapPages P.alloc P.fb (P.r * 4096) n i m = .ok m' →
        Extended P (Span True (userFbVaddr / 4096 + i) n) m m' := by
  induction n with
  | zero =>
      intro i m h _ hrun
      simp only [Elf.fbMapPages, Except.ok.injEq] at hrun
      rw [← hrun]
      exact Extended.nil h
  | succ n ih =>
      intro i m h hhigh hrun
      have hi : i < P.fb.pageCount := by omega
      obtain ⟨haddr, hbelow⟩ := P.fits.window_page hi
      obtain ⟨hpage, hslot⟩ :=
        page_below_stack
          (le_trans (show userHeapVaddrStart / 4096 ≤ userFbVaddr / 4096 by decide)
            (Nat.le_add_right _ i)) hbelow
      rw [Elf.fbMapPages, haddr] at hrun
      split_ifs at hrun with hpresent
      · have hone := h.present hslot hpresent
        rw [hpage] at hone
        exact hone.cons (ih _ m h (by omega) hrun)
      · obtain ⟨m₁, hmap, hrun⟩ := bind_eq_ok.mp hrun
        have hone :=
          h.mapWindow hlimit hi hpage (Bool.eq_false_iff.mpr hpresent) hmap
        rw [hpage] at hone
        exact hone.cons (ih _ m₁ hone.regions (by omega) hrun)

/-- The fault handler maps pages of the stack only. -/
theorem RegionInv.elfHandleStackFault
    (h : RegionInv P m) {faultAddr errorCode ret : Nat} {fromRing3 : Bool}
    (hrun : Elf.elfHandleStackFault P.alloc m (P.r * 4096) faultAddr errorCode
      fromRing3 = .ok (ret, m')) : Extended P (fun _ => False) m m' := by
  rcases elfHandleStackFault_cases hrun with
    ⟨_, rfl⟩ | ⟨_, _, rfl⟩ | ⟨_, _, _, hlow, hhigh, habsent, hne, hmap⟩
  · exact ⟨h, fun _ hv => hv, fun _ => False.elim⟩
  · exact h.allocFailed (fun _ => not_false)
  · have htop : elfUserStackTop = 0x8010000000 := rfl
    have hcanon : Canonical (pageAlignDown faultAddr) := by
      unfold Canonical
      omega
    refine { h.mapFresh habsent hne hmap ?_ with covers := fun _ => False.elim }
    intro j hj _
    by_contra hlt
    have hpage := (P.fits.window_page (Nat.not_le.mp hlt)).2
    rw [← hj, canonicalForm_of_canonical hcanon] at hpage
    exact absurd (Nat.div_le_div_right hlow) (Nat.not_le.mpr hpage)

end Growth

section Runs

variable {s s' : RegionState σ}

/-- The invariant of a process: its heap and its window are mapped. -/
structure RegionsOk (P : Setting σ) (s : RegionState σ) : Prop where
  regions : RegionInv P s.machine
  low : userHeapVaddrStart ≤ s.brk
  high : s.brk ≤ userFbVaddr
  heap : ∀ v, userHeapVaddrStart ≤ v → v < s.brk → Mapped P s.machine v
  framebuffer :
    s.fbMapped = true → ∀ k, k < P.fb.size → Mapped P s.machine (userFbVaddr + k)

/-- What `SYS_SBRK` has done when the break stays below the window. -/
theorem sysSbrk_below_window
    {pml4 oldBrk : Nat} (hlimit : oldBrk + increment ≤ userFbVaddr)
    (hrun : sysSbrk alloc m pml4 oldBrk increment = .ok (rax, brk, m')) :
    ∃ ok, sbrkPages alloc pml4
        ((oldBrk + increment + 4095) / 4096 - oldBrk / 4096) (oldBrk / 4096 * 4096)
        m = .ok (ok, m') ∧
      brk = if ok then oldBrk + increment else oldBrk := by
  have hfb : userFbVaddr = 0x8008400000 := rfl
  unfold sysSbrk at hrun
  rw [if_neg (by omega)] at hrun
  obtain ⟨⟨ok, m₁⟩, hpages, hrun⟩ := bind_eq_ok.mp hrun
  have hsize : pmmPageSize = 4096 := rfl
  rw [Nat.mod_eq_of_lt (show oldBrk + increment < 2 ^ 64 by omega)] at hpages hrun
  rw [Nat.mod_eq_of_lt (by omega), land_highMask (by omega) (by decide),
    land_highMask (by omega) (by decide), hsize,
    show ((oldBrk + increment + 4096 - 1) / 2 ^ 12 * 2 ^ 12 -
        oldBrk / 2 ^ 12 * 2 ^ 12) / 4096 =
      (oldBrk + increment + 4095) / 4096 - oldBrk / 4096 by omega] at hpages
  dsimp only at hrun
  split_ifs at hrun with hok
  all_goals
    simp only [Except.ok.injEq, Prod.mk.injEq] at hrun
    obtain ⟨_, rfl, rfl⟩ := hrun
    exact ⟨ok, hpages, by simp [hok]⟩

section

variable (hP : P.limit = userFbVaddr / 4096) (h : RegionsOk P s)
include hP h

theorem RegionsOk.sbrk
    (hlimit : s.brk + increment ≤ userFbVaddr)
    (hrun : sysSbrk P.alloc s.machine (P.r * 4096) s.brk increment =
      .ok (rax, brk, m)) : RegionsOk P { s with machine := m, brk := brk } := by
  obtain ⟨ok, hpages, hbrk⟩ := sysSbrk_below_window hlimit hrun
  have hlow := h.low
  have hhigh := h.high
  have hfb : userFbVaddr = 0x8008400000 := rfl
  have hext :=
    h.regions.sbrkPages _ _ s.machine (Nat.div_le_div_right hlow) (by omega) hpages
  refine
    { regions := hext.regions
      low := ?_
      high := ?_
      heap := ?_
      framebuffer := fun hmapped k hk => hext.keeps _ (h.framebuffer hmapped k hk) }
  · dsimp only
    split_ifs at hbrk <;> omega
  · dsimp only
    split_ifs at hbrk <;> omega
  · intro v hv hlt
    by_cases hold : v < s.brk
    · exact hext.keeps v (h.heap v hv hold)
    · -- the break has moved, so the loop has come to its end
      refine hext.covers v ?_
      dsimp only at hlt
      split_ifs at hbrk with hok
      · exact ⟨hok, by omega, by omega⟩
      · omega

theorem RegionsOk.fbMap
    (hrun : sysFbMap P.alloc P.fb s.machine (P.r * 4096) = .ok (rax, m)) :
    RegionsOk P { s with machine := m, fbMapped := true } := by
  obtain ⟨m₁, hpages, hret⟩ := bind_eq_ok.mp hrun
  simp only [Except.ok.injEq, Prod.mk.injEq] at hret
  obtain ⟨_, rfl⟩ := hret
  have hext := h.regions.fbMapPages hP.le _ 0 s.machine (by omega) hpages
  refine
    { h with
      regions := hext.regions
      heap := fun v hv hlt => hext.keeps v (h.heap v hv hlt)
      framebuffer := fun _ k hk => hext.covers _ ⟨trivial, ?_⟩ }
  have hstart : userFbVaddr = 0x8008400000 := rfl
  rw [P.fits.pageCount_eq]
  omega

/-- Every call keeps the invariant. -/
theorem regionCall_preserves
    {c : RegionCall} (hcall : regionCall P.alloc P.fb (P.r * 4096) s c = some s')
    (hbreak : BreakBelow s c s') : RegionsOk P s' := by
  cases c with
  | sbrk increment =>
      obtain ⟨⟨rax, brk, m⟩, hrun, rfl⟩ := Option.map_eq_some_iff.mp hcall
      exact h.sbrk hP hbreak (toOption_eq_some.mp hrun)
  | fbMap =>
      obtain ⟨⟨rax, m⟩, hrun, rfl⟩ := Option.map_eq_some_iff.mp hcall
      exact h.fbMap hP (toOption_eq_some.mp hrun)
  | stackFault faultAddr errorCode fromRing3 =>
      obtain ⟨⟨ret, m⟩, hrun, rfl⟩ := Option.map_eq_some_iff.mp hcall
      have hext := h.regions.elfHandleStackFault (toOption_eq_some.mp hrun)
      exact
        { h with
          regions := hext.regions
          heap := fun v hv hlt => hext.keeps v (h.heap v hv hlt)
          framebuffer := fun hmapped k hk => hext.keeps _ (h.framebuffer hmapped k hk) }

end

theorem Framebuffer.Apart.hasFrame
    (hfb : fb.Apart K) (h : fb.HasFrame n) : n ∈ K := by
  obtain ⟨x, hlow, hhigh, rfl⟩ := h
  exact hfb x hlow hhigh

/-- The invariant says that the regions are apart. -/
theorem RegionsOk.apart
    (hP : P.limit = userFbVaddr / 4096) (h : RegionsOk P s) :
    RegionsApart P.fb (P.r * 4096) s := by
  have hstart : userFbVaddr = 0x8008400000 := rfl
  have hstack : stackLow = 0x800FFC0000 := rfl
  have hheap : userHeapVaddrStart = 0x8001400000 := rfl
  refine ⟨fun v hv hlt => ?_, fun hmapped k hk => ?_⟩
  · have hhigh := h.high
    have hpage : v / 4096 < P.limit := by omega
    obtain ⟨t, ht⟩ := Option.isSome_iff_exists.mp (h.heap v hv hlt)
    obtain ⟨hrights, hK⟩ := h.regions.heap v t hv hpage ht
    refine ⟨t, ht, ?_, fun hframe => hK (P.kept.hasFrame hframe), ?_⟩
    · rw [hrights]
      decide
    · intro w t' hlow _ ht' hsame
      have hslot := (slot_of_translate (show userHeapVaddrStart ≤ w by omega) ht').2
      have hsame := h.regions.own v w t t' hv hpage hslot ht ht' hsame
      omega
  · obtain ⟨t, ht⟩ := Option.isSome_iff_exists.mp (h.framebuffer hmapped k hk)
    have hslot :=
      (slot_of_translate (show userHeapVaddrStart ≤ userFbVaddr + k by omega) ht).2
    obtain ⟨g, hg⟩ := h.regions.inv
    obtain ⟨_, hoffset, _⟩ := hg.inv.spaces.leaf_of_translate P.root hslot ht
    have hframe :=
      h.regions.window (userFbVaddr + k) t (k / 4096) (by omega) (by omega)
        (by rw [P.fits.pageCount_eq]; omega) ht
    have haligned := P.fits.aligned
    have hnamed := P.fits.named
    unfold pmmPageSize at hframe
    exact ⟨t, ht, by omega⟩

end Runs

section Loaded

/-- The segments that the loader meets end at or below `limit`. -/
def SegmentsBelow (alloc : σ → Nat × σ) (m : Machine σ)
    (elfData elfSize pml4 limit : Nat) : Prop :=
  ∀ i m', loadSegments alloc elfData elfSize pml4 i 0 m = .ok m' →
    i < phnum m'.mem elfData → (phdrAt m'.mem elfData i).type = ptLoad →
      (phdrAt m'.mem elfData i).vaddr + (phdrAt m'.mem elfData i).memsz ≤ limit

/-- Nothing is mapped from `USER_HEAP_VADDR_START` on. -/
structure HighEmpty (P : Setting σ) (m : Machine σ) : Prop where
  inv : ∃ g, DataInv 3 P.alloc P.Valid P.held m P.roots g
  empty :
    ∀ v, userHeapVaddrStart ≤ v → index v 39 ≠ 0 →
      translateAddr m.mem (P.r * 4096) v = none

/-- The pages of a segment that ends at or below the heap. -/
theorem segment_page_low
    {ph : Phdr} (hlimit : ph.vaddr + ph.memsz ≤ userHeapVaddrStart)
    (hk : k < (pageAlignUp ((ph.vaddr + ph.memsz) % 2 ^ 64) -
      pageAlignDown ph.vaddr) / pmmPageSize) :
    canonicalForm (pageAlignDown ph.vaddr + k * pmmPageSize) / 4096 <
      userHeapVaddrStart / 4096 := by
  have hstart : userHeapVaddrStart = 0x8001400000 := rfl
  rw [hstart] at hlimit ⊢
  have hdown : pageAlignDown ph.vaddr = ph.vaddr / 4096 * 4096 :=
    land_highMask (show ph.vaddr < 2 ^ 64 by omega) (by decide)
  have hmod : (ph.vaddr + ph.memsz) % 2 ^ 64 = ph.vaddr + ph.memsz :=
    Nat.mod_eq_of_lt (by omega)
  have hup : pageAlignUp ((ph.vaddr + ph.memsz) % 2 ^ 64) =
      (ph.vaddr + ph.memsz + 4096 - 1) / 4096 * 4096 := by
    unfold pageAlignUp pmmPageSize
    rw [hmod, Nat.mod_eq_of_lt (by omega)]
    exact land_highMask (by omega) (by decide)
  rw [hup, hdown] at hk
  rw [hdown]
  unfold pmmPageSize at hk ⊢
  unfold canonicalForm
  rw [Nat.mod_eq_of_lt (by omega)]
  split_ifs <;> omega

/-- The loop over such segments leaves the part above alone. -/
theorem loadSegments_highEmpty
    (h : HighEmpty P m)
    (hbelow : SegmentsBelow P.alloc m elfData elfSize (P.r * 4096) userHeapVaddrStart)
    {fuel : Nat}
    (hrun : loadSegments P.alloc elfData elfSize (P.r * 4096) fuel 0 m = .ok m') :
    HighEmpty P m' := by
  refine loadSegments_preserves (Q := HighEmpty P) fuel 0 m ?_ h hrun
  intro i m₁ m₂ hreached hlt h₁ hsegment
  rw [Nat.zero_add] at hlt hsegment
  rcases loadSegment_eq_ok hsegment with rfl | ⟨hload, hpages⟩
  · exact h₁
  · have hlimit := hbelow i m₁ hreached hlt hload
    refine loadPages_preserves (Q := HighEmpty P) _ _ m₁ ?_ h₁ hpages
    intro m m' k hk h hpage
    obtain ⟨g, hg⟩ := h.inv
    obtain ⟨_, p, g', _, hmapped⟩ :=
      loadPage_fresh P.apart.toFreshPages (by decide) hg.inv P.root hpage
    refine ⟨⟨g', hmapped.dataInv hg⟩, fun v hv hslot => ?_⟩
    have hlow := segment_page_low hlimit hk
    have hother : v / 4096 ≠ canonicalForm _ / 4096 :=
      fun heq => absurd (Nat.div_le_div_right hv) (by rw [heq]; exact Nat.not_le.mpr hlow)
    rw [(hmapped.translate hg.inv P.root).2 P.r v P.root (Or.inr hother)]
    exact h.empty v hv hslot

/-- After the loader, the stack page is the only one above the segments. -/
theorem HighEmpty.regionInv
    (h : HighEmpty P m)
    (hbelow : SegmentsBelow P.alloc m elfData elfSize (P.r * 4096) userHeapVaddrStart)
    (hload : elfLoadUserProgram P.alloc m elfData elfSize (P.r * 4096) argv =
      .ok (out, m')) : RegionInv P m' := by
  have hr := P.root
  have hlimit := P.limit_le
  obtain ⟨m₁, m₂, top, mem, hsegments, hstack, hblob, _, rfl⟩ :=
    elfLoadUserProgram_eq_ok hload
  have h₁ := loadSegments_highEmpty h hbelow hsegments
  obtain ⟨g₁, hg₁⟩ := h₁.inv
  obtain ⟨p, g₂, rfl, hpage⟩ :=
    loadStack_ok P.apart.toFreshPages (by decide) hg₁ hr hstack
  have hg₂ := hpage.dataInv hg₁
  have hsame := sameOutside_writeArgvBlob hblob
  have hplace : canonicalForm (elfUserStackTop - pmmPageSize) / 4096 =
      elfUserStackTop / 4096 - 1 := by
    decide
  have htop : elfUserStackTop = 0x8010000000 := rfl
  have hlow : stackLow = 0x800FFC0000 := rfl
  have hfb : userFbVaddr = 0x8008400000 := rfl
  have hheap : userHeapVaddrStart = 0x8001400000 := rfl
  -- the argument block is written into the stack page
  have hempty : ∀ v t, userHeapVaddrStart ≤ v → v / 4096 < stackLow / 4096 →
      translateAddr mem (P.r * 4096) v ≠ some t := by
    intro v t hv hlt ht
    have hslot := (slot_of_translate hv ht).2
    rw [hg₂.translate_write (by decide) hpage.frame.2 hsame hr v,
      (hpage.translate hg₁.inv hr).2 P.r v hr (Or.inr (by rw [hplace]; omega)),
      h₁.empty v hv hslot] at ht
    cases ht
  refine
    { inv := ⟨g₂, hg₂.write (by decide) hpage.frame.2 hsame⟩
      heap := fun v t hv hlt ht => absurd ht (hempty v t hv (by omega))
      own := fun v w t t' hv hlt _ ht => absurd ht (hempty v t hv (by omega))
      window := fun v t j hv _ hj ht => absurd ht (hempty v t (by omega) ?_) }
  have hwindow := (P.fits.window_page hj).2
  omega

end Loaded

section Regions

variable {s : Spaces σ} {calls : List RegionCall} {st : RegionState σ}

/-- A new space of a running system. -/
def Reachable.setting
    (hs : Reachable alloc Valid held fb K s) (hfits : fb.Fits) (r limit : Nat)
    (hlimit : limit ≤ stackLow / 4096) : Setting σ where
  toTarget := hs.target (show r ∈ rootFrames (r * 4096 :: s.roots) from List.mem_cons_self)
  fb := fb
  limit := limit
  kept := hs.framebuffer
  fits := hfits
  limit_le := hlimit

/-- A process that has just been loaded into it. -/
theorem Reachable.regionInv
    (hs : Reachable alloc Valid held fb K s) (hfits : fb.Fits) {limit : Nat}
    (hlimit : limit ≤ stackLow / 4096)
    (hcreate : vmmCreateAddressSpace alloc s.machine = .ok (r * 4096, m))
    (hbelow : SegmentsBelow alloc m elfData elfSize (r * 4096) userHeapVaddrStart)
    (hload : elfLoadUserProgram alloc m elfData elfSize (r * 4096) argv =
      .ok (out, m')) : RegionInv (hs.setting hfits r limit hlimit) m' := by
  have ha := FreshPages.allocApart hs.fresh K
  obtain ⟨hok, hnone⟩ := hs.systemOk.createAddressSpace ha.toFreshPages hcreate
  refine HighEmpty.regionInv ⟨hok.inv, fun v hv hslot => hnone v hslot ?_⟩ hbelow hload
  unfold userHeapVaddrStart elfUserLoadBase at hv
  omega

/-- The root of a new space is the address of a frame. -/
theorem Reachable.root_frame
    (hs : Reachable alloc Valid held fb K s)
    (hcreate : vmmCreateAddressSpace alloc s.machine = .ok (cr3, m)) :
    ∃ r, cr3 = r * 4096 := by
  have ha := FreshPages.allocApart hs.fresh K
  obtain ⟨hok, _⟩ := hs.systemOk.createAddressSpace ha.toFreshPages hcreate
  exact hok.frames cr3 List.mem_cons_self

end Regions

section Examples

/-- A framebuffer of one page. -/
def onePageFramebuffer : Framebuffer := { base := 0x2000, size := 4096 }

theorem onePageFramebuffer_apart : onePageFramebuffer.Apart (Finset.range 16) := by
  intro x hlow hhigh
  unfold onePageFramebuffer at hlow hhigh
  dsimp only at hlow hhigh
  rw [Finset.mem_range]
  omega

theorem onePageFramebuffer_fits : onePageFramebuffer.Fits :=
  ⟨by decide, by decide, by decide⟩

/-- A program without headers has no segments. -/
theorem segmentsBelow_of_phnum_eq_zero
    (hnum : phnum m.mem elfData = 0) (elfSize pml4 limit : Nat) :
    SegmentsBelow alloc m elfData elfSize pml4 limit := by
  intro i m' hrun hlt
  have hsame : m' = m := by
    cases i with
    | zero =>
        simpa [loadSegments] using hrun.symm
    | succ i =>
        rw [loadSegments, if_neg] at hrun
        · simpa using hrun.symm
        · exact Nat.not_lt.mpr (le_of_eq hnum)
  rw [hsame, hnum] at hlt
  exact absurd hlt (Nat.not_lt_zero i)

theorem bumpAlloc_of_lt
    (hn : n < 2 ^ 40) : bumpAlloc n = (n * 4096, n + 1) :=
  if_pos hn

/-- With frames left, `ensureTable` takes at most one. -/
theorem ensureTable_bumpAlloc
    {m : Machine Nat} (hpos : 0 < m.pmm) (hlt : m.pmm < 2 ^ 40) (table i : Nat) :
    ∃ next m', ensureTable bumpAlloc m table i = .ok (next, m') ∧
      m.pmm ≤ m'.pmm ∧ m'.pmm ≤ m.pmm + 1 := by
  unfold ensureTable allocTable
  rw [bumpAlloc_of_lt hlt]
  dsimp only
  rw [if_neg (show ¬ m.pmm * 4096 = 0 by omega)]
  split_ifs
  · exact ⟨_, _, rfl, Nat.le_succ _, le_refl _⟩
  · exact ⟨_, _, rfl, le_refl _, Nat.le_succ _⟩

/-- With three frames left, `vmm_map_page` succeeds outside the shared slot. -/
theorem vmmMapPage_bumpAlloc
    {m : Machine Nat} (hpos : 0 < m.pmm) (hlt : m.pmm + 3 ≤ 2 ^ 40)
    {vaddr : Nat} (hslot : tableIndex vaddr 39 ≠ 0) (pml4 paddr flags : Nat) :
    ∃ m', vmmMapPage bumpAlloc m pml4 vaddr paddr flags = .ok m' ∧
      m.pmm ≤ m'.pmm ∧ m'.pmm ≤ m.pmm + 3 := by
  obtain ⟨pdpt, m₁, h₁, hle₁, hbound₁⟩ :=
    ensureTable_bumpAlloc hpos (by omega) pml4 (tableIndex vaddr 39)
  obtain ⟨pd, m₂, h₂, hle₂, hbound₂⟩ :=
    ensureTable_bumpAlloc (m := m₁) (by omega) (by omega) pdpt
      (tableIndex vaddr 30)
  obtain ⟨pt, m₃, h₃, hle₃, hbound₃⟩ :=
    ensureTable_bumpAlloc (m := m₂) (by omega) (by omega) pd (tableIndex vaddr 21)
  refine
    ⟨{ m₃ with
        mem :=
          writeEntry m₃.mem pt (tableIndex vaddr 12) (leafEntry paddr flags) },
      ?_, by dsimp only; omega, by dsimp only; omega⟩
  unfold vmmMapPage
  simp only [if_neg hslot, h₁, ok_bind, h₂, h₃]

/-- With four frames left for every page, the loop of `SYS_SBRK` succeeds. -/
theorem sbrkPages_bumpAlloc
    (pml4 n : Nat) :
    ∀ p (m : Machine Nat), 0 < m.pmm → m.pmm + 4 * n ≤ 2 ^ 40 →
      (∀ k, k < n → tableIndex (p + k * pmmPageSize) 39 ≠ 0) →
        ∃ m', sbrkPages bumpAlloc pml4 n p m = .ok (true, m') := by
  induction n with
  | zero =>
      intro p m _ _ _
      exact ⟨m, rfl⟩
  | succ n ih =>
      intro p m hpos hlt hslots
      have hrest : ∀ k, k < n →
          tableIndex (p + pmmPageSize + k * pmmPageSize) 39 ≠ 0 := by
        intro k hk
        have hslot := hslots (k + 1) (by omega)
        rw [show p + (k + 1) * pmmPageSize = p + pmmPageSize + k * pmmPageSize by
          rw [Nat.add_mul, Nat.one_mul]; omega] at hslot
        exact hslot
      have hslot := hslots 0 (Nat.succ_pos n)
      rw [Nat.zero_mul, Nat.add_zero] at hslot
      rw [sbrkPages, bumpAlloc_of_lt (show m.pmm < 2 ^ 40 by omega)]
      dsimp only
      rw [if_neg (show ¬ m.pmm * 4096 = 0 by omega)]
      split_ifs
      · exact ih _ m hpos (by omega) hrest
      · obtain ⟨m₁, hmap, hle, hbound⟩ :=
          vmmMapPage_bumpAlloc
            (m := { m with
              mem := fill m.mem (m.pmm * 4096) pmmPageSize 0
              pmm := m.pmm + 1 })
            (Nat.succ_pos _) (by dsimp only; omega) hslot pml4 (m.pmm * 4096)
            vmmMapWrite
        dsimp only at hle hbound
        rw [hmap, ok_bind]
        exact ih _ m₁ (by omega) (by omega) hrest

/-- Slot 39 of the heap's pages up to the framebuffer window. -/
theorem tableIndex_heap
    (hk : k ≤ 28672) : tableIndex (userHeapVaddrStart + k * pmmPageSize) 39 ≠ 0 := by
  have hstart : userHeapVaddrStart = 0x8001400000 := rfl
  unfold pmmPageSize
  rw [tableIndex_eq, hstart]
  unfold index
  dsimp only
  omega

/-- A call that moves the break one byte past `USER_FB_VADDR`. -/
theorem sysSbrk_past_window
    {m : Machine Nat} (hpos : 0 < m.pmm) (hlt : m.pmm ≤ 2 ^ 30) (r : Nat) :
    ∃ m₁, sysSbrk bumpAlloc m (r * 4096) userHeapVaddrStart 0x7000001 =
        .ok (userHeapVaddrStart, userFbVaddr + 1, m₁) ∧
      sbrkPages bumpAlloc (r * 4096) 28673 (userHeapVaddrStart / 4096 * 4096) m =
        .ok (true, m₁) := by
  obtain ⟨m₁, hpages⟩ :=
    sbrkPages_bumpAlloc (r * 4096) 28673 userHeapVaddrStart m hpos
      (by omega) (fun k hk => tableIndex_heap (by omega))
  refine ⟨m₁, ?_, hpages⟩
  unfold sysSbrk
  rw [if_neg (by decide)]
  dsimp only
  rw [show userHeapVaddrStart &&& highMask 12 = userHeapVaddrStart by decide,
    show (((userHeapVaddrStart + 0x7000001) % 2 ^ 64 + pmmPageSize - 1) % 2 ^ 64 &&&
      highMask 12) - userHeapVaddrStart = 28673 * pmmPageSize by decide,
    Nat.mul_div_cancel 28673 (by decide), hpages]
  rfl

/-- `SYS_FB_MAP` skips the page of the window that the heap has taken. -/
theorem sysFbMap_window_taken
    {P : Setting Nat} (halloc : P.alloc = bumpAlloc)
    (hlimit : P.limit = userFbVaddr / 4096 + 1) {m m' : Machine Nat}
    (h : RegionInv P m)
    (hpages : sbrkPages bumpAlloc (P.r * 4096) 28673
      (userHeapVaddrStart / 4096 * 4096) m = .ok (true, m')) :
    ∃ t, translateAddr m'.mem (P.r * 4096) userFbVaddr = some t ∧
      t.phys / 4096 ∉ P.K ∧
      sysFbMap bumpAlloc onePageFramebuffer m' (P.r * 4096) = .ok (userFbVaddr, m') := by
  have hfb : userFbVaddr = 0x8008400000 := rfl
  have hheap : userHeapVaddrStart = 0x8001400000 := rfl
  have hext := h.sbrkPages _ _ m (le_refl _) (by omega) (halloc ▸ hpages)
  have hmapped := hext.covers userFbVaddr ⟨rfl, by decide, by decide⟩
  obtain ⟨t, ht⟩ := Option.isSome_iff_exists.mp hmapped
  obtain ⟨g, hg⟩ := hext.regions.inv
  have hpresent : vmmPagePresent m'.mem (P.r * 4096)
      ((userFbVaddr + 0 * pmmPageSize) % 2 ^ 64) = true := by
    rw [show (userFbVaddr + 0 * pmmPageSize) % 2 ^ 64 = userFbVaddr by decide,
      hg.vmmPagePresent_eq P.root (by decide),
      canonicalForm_of_canonical (show Canonical userFbVaddr by decide),
      privateSpace_of_ne (by decide), Option.isSome_map]
    exact hmapped
  refine ⟨t, ht, (hext.regions.heap _ t (by decide) (by omega) ht).2, ?_⟩
  unfold sysFbMap
  rw [show onePageFramebuffer.pageCount = 0 + 1 by decide, fbMapPages, if_pos hpresent]
  rfl

end Examples

end Elf
end RebornOS
