import RebornOS.SystemRuns

/-!
# The heap of a process

`SYS_SBRK` moves the break by bytes and maps by pages.  As an operation on the
private space of the process it is `ensurePages`: pages that are mapped stay as
they are, missing ones become zero pages.  The run of a process that grows its
heap and stores into its pages is followed with the break, the bytes stored so
far, and the fact that no frame of the heap is mapped a second time
(`OwnFrames`), so that no store from elsewhere reaches it.
-/

namespace RebornOS
namespace Elf

open ByteStore WordBits PageWalk Fallible LabeledRun Vmm PagedSpace Function

variable {σ : Type} {roots : Set Nat} {r v : Nat} {alloc : σ → Nat × σ}
  {Valid : σ → Prop} {held : σ → Set Nat}

section OwnFrames

variable {D : Nat} {m m' : Machine σ} {g g' : Ghost}

/-- The frames behind the pages `P` of space `r` are mapped nowhere else. -/
def OwnFrames (mem : Store) (roots : Set Nat) (r : Nat) (P : Nat → Prop) :
    Prop :=
  ∀ v r' w t t', P (v / 4096) → index v 39 ≠ 0 →
    translateAddr mem (r * 4096) v = some t → r' ∈ roots → index w 39 ≠ 0 →
    translateAddr mem (r' * 4096) w = some t' → t'.phys / 4096 = t.phys / 4096 →
      r' = r ∧ w / 4096 = v / 4096

/-- A fresh frame is mapped nowhere else. -/
theorem FreshMapped.ownFrames
    {mem' : Store} {p flags : Nat} {P : Nat → Prop}
    (hm : FreshMapped D alloc Valid held roots m g mem' r v p flags m' g')
    (h : DataInv D alloc Valid held m roots g) (hr : r ∈ roots)
    (hown : OwnFrames m.mem roots r P) : OwnFrames m'.mem roots r P := by
  obtain ⟨hnew, hold⟩ := hm.translate h.inv hr
  have hidle : ∀ r' w t, r' ∈ roots → index w 39 ≠ 0 →
      translateAddr m.mem (r' * 4096) w = some t → t.phys / 4096 ≠ p :=
    fun r' w t hr' hslot ht => (hm.others _ (h.idle_of_translate hr' hslot ht)).1
  intro a r' b t t' hP hslot ht hr' hslot' ht' hframe
  by_cases ha : a / 4096 = canonicalForm v / 4096
  · rw [hnew a ha, Option.some.injEq] at ht
    have htp : t.phys / 4096 = p := by
      rw [← ht]
      dsimp only
      omega
    by_cases hb : r' = r ∧ b / 4096 = canonicalForm v / 4096
    · exact ⟨hb.1, by rw [hb.2, ha]⟩
    · rw [hold r' b hr' (by tauto)] at ht'
      exact absurd (hframe.trans htp) (hidle r' b t' hr' hslot' ht')
  · rw [hold r a hr (Or.inr ha)] at ht
    by_cases hb : r' = r ∧ b / 4096 = canonicalForm v / 4096
    · rw [hb.1, hnew b hb.2, Option.some.injEq] at ht'
      have htp : t'.phys / 4096 = p := by
        rw [← ht']
        dsimp only
        omega
      exact absurd (hframe.symm.trans htp) (hidle r a t hr hslot ht)
    · rw [hold r' b hr' (by tauto)] at ht'
      exact hown a r' b t t' hP hslot ht hr' hslot' ht' hframe

end OwnFrames

section Loop

variable {D : Nat} {m m' : Machine σ} {g : Ghost}

/-- The loop of `SYS_SBRK` makes sure that `n` pages are mapped. -/
theorem sbrkPages_space
    (hf : FreshPages alloc Valid held) (hD : D ≤ 4) (hr : r ∈ roots) {P : Nat → Prop}
    (n : Nat) :
    ∀ q m g, DataInv D alloc Valid held m roots g →
      OwnFrames m.mem roots r P →
      (∀ k, q ≤ k → k < q + n → Canonical (k * 4096) ∧ index (k * 4096) 39 ≠ 0) →
      sbrkPages alloc (r * 4096) n (q * 4096) m = .ok (true, m') →
        (∃ g', DataInv D alloc Valid held m' roots g') ∧
        OwnFrames m'.mem roots r P ∧
        privateSpace m'.mem (r * 4096) =
          ensurePages 4096 (fun _ => (0, mapRights vmmMapWrite)) n q
            (privateSpace m.mem (r * 4096)) := by
  induction n with
  | zero =>
      intro q m g h hown _ hrun
      simp only [sbrkPages, Except.ok.injEq, Prod.mk.injEq, true_and] at hrun
      subst hrun
      exact ⟨⟨g, h⟩, hown, rfl⟩
  | succ n ih =>
      intro q m g h hown hpages hrun
      obtain ⟨hcanon, hslot⟩ := hpages q (le_refl q) (by omega)
      have hrest : ∀ k, q + 1 ≤ k → k < q + 1 + n →
          Canonical (k * 4096) ∧ index (k * 4096) 39 ≠ 0 :=
        fun k hk hlt => hpages k (by omega) (by omega)
      have hpresent := h.vmmPagePresent_eq hr hslot
      rw [canonicalForm_of_canonical hcanon] at hpresent
      have hnext : q * 4096 + pmmPageSize = (q + 1) * 4096 := by
        unfold pmmPageSize
        omega
      rw [sbrkPages, hpresent, hnext] at hrun
      rw [ensurePages, ensurePage]
      dsimp only at hrun
      split_ifs at hrun ⊢ with hmapped hne
      · exact ih _ m g h hown hrest hrun
      · cases hrun
      · obtain ⟨m₁, hmap, hrun⟩ := bind_eq_ok.mp hrun
        obtain ⟨p, hp, _⟩ := hf.frame h.inv.valid hne
        rw [hp] at hmap
        obtain ⟨g₁, hm⟩ :=
          mapFresh_ok hf hD h.inv hne hp (sameOutside_fill m.mem p) hr hmap
        have hspace := hm.privateSpace_eq h hr
        rw [canonicalForm_of_canonical hcanon,
          Nat.mul_div_cancel _ (by decide)] at hspace
        obtain ⟨hinv, hown', hspace'⟩ :=
          ih _ m₁ g₁ (hm.dataInv h) (hm.ownFrames h hr hown) hrest hrun
        refine ⟨hinv, hown', ?_⟩
        rw [hspace', hspace]
        congr 1
        exact mapPage_congr (by decide) (fun k hk => by rw [fill_page m.mem p hk])

end Loop

section Runs

/-- A process with its break. -/
structure UserHeap (σ : Type) where
  machine : Machine σ
  brk : Nat

/-- What a process does with its heap. -/
inductive HeapCall
  | sbrk (increment : Nat)
  | store (v : Nat) (b : UInt8)
  deriving DecidableEq, Repr

/-- One successful call or store. -/
def heapCall (alloc : σ → Nat × σ) (cr3 : Nat) (h : UserHeap σ) :
    HeapCall → Option (UserHeap σ)
  | .sbrk increment =>
      match sysSbrk alloc h.machine cr3 h.brk increment with
      | .ok (rax, brk, m) =>
          if rax = 2 ^ 64 - 1 then none else some { machine := m, brk := brk }
      | .error _ => none
  | .store v b =>
      (userStore h.machine cr3 v b).map (fun m => { h with machine := m })

/-- The sum of the increments. -/
def totalIncrement : List HeapCall → Nat
  | [] => 0
  | .sbrk increment :: rest => increment + totalIncrement rest
  | .store _ _ :: rest => totalIncrement rest

@[simp] theorem totalIncrement_append
    (before after : List HeapCall) :
    totalIncrement (before ++ after) =
      totalIncrement before + totalIncrement after := by
  induction before with
  | nil =>
      simp [totalIncrement]
  | cons c rest ih =>
      cases c with
      | sbrk increment =>
          simp [totalIncrement, ih, Nat.add_assoc]
      | store v b =>
          simpa [totalIncrement] using ih

/-- The byte stored last at each address. -/
def storedBytes (bytes : Nat → UInt8) : List HeapCall → Nat → UInt8
  | [] => bytes
  | .sbrk _ :: rest => storedBytes bytes rest
  | .store v b :: rest => storedBytes (update bytes v b) rest

/-- The pages between the start of the heap and the framebuffer. -/
def HeapPage (page : Nat) : Prop :=
  userHeapVaddrStart / 4096 ≤ page ∧ page < userFbVaddr / 4096

/-- The heap up to the break, holding `bytes`. -/
structure HeapInv (alloc : σ → Nat × σ) (Valid : σ → Prop)
    (held : σ → Set Nat) (roots : Set Nat) (r : Nat) (h : UserHeap σ)
    (bytes : Nat → UInt8) : Prop where
  inv : ∃ g, DataInv 3 alloc Valid held h.machine roots g
  own : OwnFrames h.machine.mem roots r HeapPage
  start_le : userHeapVaddrStart ≤ h.brk
  space :
    ∀ v, HeapPage (v / 4096) →
      privateSpace h.machine.mem (r * 4096) v =
        if v / 4096 * 4096 < h.brk then some (bytes v, mapRights vmmMapWrite)
        else none
  fresh : ∀ v, HeapPage (v / 4096) → h.brk ≤ v / 4096 * 4096 → bytes v = 0

variable {h h' : UserHeap σ} {bytes : Nat → UInt8}

/-- Pages of the heap window are canonical and private. -/
theorem heapPage_canonical
    {page : Nat} (hpage : HeapPage page) :
    Canonical (page * 4096) ∧ index (page * 4096) 39 ≠ 0 := by
  unfold HeapPage userHeapVaddrStart userFbVaddr elfUserLoadBase at hpage
  unfold Canonical index
  simp only [ne_eq, Fin.ext_iff, Fin.val_zero]
  omega

theorem heapCall_sbrk_eq_some
    {cr3 increment : Nat}
    (hcall : heapCall alloc cr3 h (.sbrk increment) = some h') :
    increment < 2 ^ 63 ∧
      h'.brk = (h.brk + increment) % 2 ^ 64 ∧
      sbrkPages alloc cr3
          (((((h.brk + increment) % 2 ^ 64 + pmmPageSize - 1) % 2 ^ 64 &&&
            highMask 12) - (h.brk &&& highMask 12)) / pmmPageSize)
          (h.brk &&& highMask 12) h.machine = .ok (true, h'.machine) ∧
      sysSbrk alloc h.machine cr3 h.brk increment =
        .ok (h.brk, h'.brk, h'.machine) := by
  simp only [heapCall] at hcall
  split at hcall
  next rax brk m hsbrk =>
    split_ifs at hcall with hfail
    simp only [Option.some.injEq] at hcall
    subst hcall
    have hrun := hsbrk
    unfold sysSbrk at hrun
    split_ifs at hrun with hneg
    · simp only [Except.ok.injEq, Prod.mk.injEq] at hrun
      exact absurd hrun.1.symm hfail
    · obtain ⟨⟨ok, m₁⟩, hpages, hrun⟩ := bind_eq_ok.mp hrun
      dsimp only at hrun
      split_ifs at hrun with hok
      · simp only [Except.ok.injEq, Prod.mk.injEq] at hrun
        obtain ⟨rfl, rfl, rfl⟩ := hrun
        rw [hok] at hpages
        exact ⟨by omega, rfl, hpages, hsbrk⟩
      · simp only [Except.ok.injEq, Prod.mk.injEq] at hrun
        exact absurd hrun.1.symm hfail
  next =>
    cases hcall

/-- A successful `SYS_SBRK` below the framebuffer window. -/
theorem HeapInv.sbrk
    (hf : FreshPages alloc Valid held) (hr : r ∈ roots)
    (hi : HeapInv alloc Valid held roots r h bytes) {increment : Nat}
    (hlimit : h.brk + increment ≤ userFbVaddr)
    (hcall : heapCall alloc (r * 4096) h (.sbrk increment) = some h') :
    h'.brk = h.brk + increment ∧
      HeapInv alloc Valid held roots r h' bytes := by
  obtain ⟨_, hbrk, hpages, _⟩ := heapCall_sbrk_eq_some hcall
  obtain ⟨g, hg⟩ := hi.inv
  have hstart := hi.start_le
  have hsize : pmmPageSize = 4096 := rfl
  have hfb : userFbVaddr = 0x8008400000 := rfl
  have hlow : userHeapVaddrStart = 0x8001400000 := rfl
  rw [Nat.mod_eq_of_lt (by omega)] at hbrk hpages
  rw [Nat.mod_eq_of_lt (by omega), land_highMask (by omega) (by decide),
    land_highMask (by omega) (by decide), hsize,
    show ((h.brk + increment + 4096 - 1) / 2 ^ 12 * 2 ^ 12 -
        h.brk / 2 ^ 12 * 2 ^ 12) / 4096 =
      (h.brk + increment + 4095) / 4096 - h.brk / 4096 by omega] at hpages
  obtain ⟨hinv, hown, hspace⟩ :=
    sbrkPages_space hf (by decide) hr _ _ h.machine g hg hi.own (by
      intro k hk hlt
      apply heapPage_canonical
      unfold HeapPage
      omega) hpages
  refine
    ⟨hbrk,
      { inv := hinv
        own := hown
        start_le := by omega
        space := ?_
        fresh := fun v hv hle => hi.fresh v hv (by omega) }⟩
  intro v hv
  rw [hspace, ensurePages_apply (by decide) (hg.paged hr), hi.space v hv]
  by_cases hold : v / 4096 * 4096 < h.brk
  · rw [if_pos hold, Option.some_or, if_pos (by omega)]
  · rw [if_neg hold, Option.none_or]
    by_cases hnew : v / 4096 * 4096 < h'.brk
    · rw [if_pos (by omega), if_pos hnew, hi.fresh v hv (by omega)]
    · rw [if_neg (by omega), if_neg hnew]

/-- A store reaches the address it names and no other byte of the heap. -/
theorem HeapInv.store
    (hr : r ∈ roots) (hi : HeapInv alloc Valid held roots r h bytes) {b : UInt8}
    (hcall : heapCall alloc (r * 4096) h (.store v b) = some h') :
    h'.brk = h.brk ∧
      HeapInv alloc Valid held roots r h' (update bytes v b) := by
  obtain ⟨g, hg⟩ := hi.inv
  simp only [heapCall] at hcall
  obtain ⟨m', hstore, rfl⟩ := Option.map_eq_some_iff.mp hcall
  obtain ⟨hslot, t, ht, _, _, rfl⟩ := userStore_eq_some hstore
  obtain ⟨_, hoffset, _⟩ := hg.inv.spaces.leaf_of_translate hr hslot ht
  have htable := (hg.idle_of_translate hr hslot ht).2
  have hsame := sameOutside_poke h.machine t.phys b
  have htranslate : ∀ r' w, r' ∈ roots →
      translateAddr (poke h.machine t.phys b).mem (r' * 4096) w =
        translateAddr h.machine.mem (r' * 4096) w :=
    fun r' w hr' => hg.translate_write (by decide) htable hsame hr' w
  have hmapped : ∀ w, w = v → privateSpace h.machine.mem (r * 4096) w ≠ none := by
    rintro w rfl
    rw [privateSpace_of_ne hslot, ht]
    simp
  refine
    ⟨rfl,
      { inv := ⟨g, hg.write (by decide) htable hsame⟩
        own := ?_
        start_le := hi.start_le
        space := ?_
        fresh := ?_ }⟩
  · intro a r' w t₁ t₂ hP hslot₁ ht₁ hr' hslot₂ ht₂
    rw [htranslate _ _ hr] at ht₁
    rw [htranslate _ _ hr'] at ht₂
    exact hi.own a r' w t₁ t₂ hP hslot₁ ht₁ hr' hslot₂ ht₂
  · intro w hw
    obtain ⟨_, hslotPage⟩ := heapPage_canonical hw
    have hslot' : index w 39 ≠ 0 := by
      rw [← index_eq_of_page_eq (show w / 4096 * 4096 / 4096 = w / 4096 by omega)
        (by decide)]
      exact hslotPage
    have hbefore := hi.space w hw
    rw [privateSpace_of_ne hslot'] at hbefore ⊢
    rw [htranslate r w hr]
    split_ifs at hbefore ⊢ with hlt
    · rw [Option.map_eq_some_iff] at hbefore ⊢
      obtain ⟨t', ht', hbyte⟩ := hbefore
      refine ⟨t', ht', ?_⟩
      rw [Prod.mk.injEq] at hbyte ⊢
      refine ⟨?_, hbyte.2⟩
      obtain ⟨_, hoffset', _⟩ := hg.inv.spaces.leaf_of_translate hr hslot' ht'
      by_cases hwv : w = v
      · subst hwv
        rw [ht', Option.some.injEq] at ht
        rw [update_self, ht]
        unfold poke fill
        dsimp only
        rw [if_pos (by omega)]
      · -- another byte of the heap lies at another physical address
        have hphys : t'.phys ≠ t.phys := by
          intro heq
          obtain ⟨_, hpage⟩ :=
            hi.own w r v t' t hw hslot' ht' hr hslot ht (by rw [heq])
          apply hwv
          omega
        rw [update_of_ne hwv, ← hbyte.1]
        unfold poke
        exact fill_outside (by omega)
    · rw [Option.map_eq_none_iff] at hbefore ⊢
      exact hbefore
  · intro w hw hle
    have hwv : w ≠ v := by
      intro heq
      apply hmapped w heq
      rw [hi.space w hw]
      exact if_neg (Nat.not_lt.mpr hle)
    rw [update_of_ne hwv]
    exact hi.fresh w hw hle

/-- The invariant along a run that keeps the break below the framebuffer. -/
theorem heapInv_of_run
    (hf : FreshPages alloc Valid held) (hr : r ∈ roots)
    {calls : List HeapCall}
    (hi : HeapInv alloc Valid held roots r h bytes)
    (hlimit : h.brk + totalIncrement calls ≤ userFbVaddr)
    (hrun : runAll (heapCall alloc (r * 4096)) h calls = some h') :
    h'.brk = h.brk + totalIncrement calls ∧
      HeapInv alloc Valid held roots r h' (storedBytes bytes calls) := by
  induction calls generalizing h bytes with
  | nil =>
      simp only [runAll_nil, Option.some.injEq] at hrun
      subst hrun
      exact ⟨rfl, hi⟩
  | cons c rest ih =>
      obtain ⟨h₁, hcall, hrest⟩ := runAll_cons_success hrun
      cases c with
      | sbrk increment =>
          rw [totalIncrement] at hlimit ⊢
          obtain ⟨hbrk, hi₁⟩ := hi.sbrk hf hr (by omega) hcall
          rw [← Nat.add_assoc, ← hbrk] at hlimit ⊢
          exact ih hi₁ hlimit hrest
      | store v b =>
          obtain ⟨hbrk, hi₁⟩ := hi.store hr hcall
          rw [totalIncrement, ← hbrk] at hlimit ⊢
          exact ih hi₁ hlimit hrest

/-- The heap of a process after some calls from an empty window. -/
structure HeapGrown (roots : List Nat) (cr3 : Nat) (calls : List HeapCall)
    (h : UserHeap σ) : Prop where
  brk_eq : h.brk = userHeapVaddrStart + totalIncrement calls
  mapped :
    ∀ v, userHeapVaddrStart ≤ v → v < userFbVaddr →
      privateSpace h.machine.mem cr3 v =
        if v / 4096 * 4096 < h.brk then
          some
            (storedBytes (fun _ => 0) calls v,
              { user := true, writable := true, noExecute := true })
        else
          none
  own :
    ∀ v cr3' w p, userHeapVaddrStart ≤ v → v < userFbVaddr →
      PrivateFrame h.machine.mem cr3 v p → cr3' ∈ roots →
      PrivateFrame h.machine.mem cr3' w p → cr3' = cr3 ∧ w / 4096 = v / 4096

end Runs

section Growth

variable {fb : Framebuffer} {K : Finset Nat} {s : Spaces σ}

/-- The window of the heap is made of whole pages. -/
theorem heapPage_of_window
    (hlow : userHeapVaddrStart ≤ v) (hhigh : v < userFbVaddr) :
    HeapPage (v / 4096) := by
  unfold HeapPage userHeapVaddrStart userFbVaddr elfUserLoadBase at *
  omega

/-- The invariant of a process whose heap window is empty. -/
theorem heapInv_of_empty
    (hs : SystemOk alloc Valid held s)
    (hempty : ∀ v, userHeapVaddrStart ≤ v → v < userFbVaddr →
      translateAddr s.machine.mem (r * 4096) v = none) :
    HeapInv alloc Valid held (rootFrames s.roots) r
      { machine := s.machine, brk := userHeapVaddrStart } (fun _ => 0) := by
  have hwindow : ∀ v, HeapPage (v / 4096) →
      translateAddr s.machine.mem (r * 4096) v = none := by
    intro v hv
    unfold HeapPage at hv
    refine hempty v ?_ ?_
    all_goals
      unfold userHeapVaddrStart userFbVaddr elfUserLoadBase at *
      omega
  refine
    { inv := hs.inv
      own := ?_
      start_le := le_refl _
      space := ?_
      fresh := fun _ _ _ => rfl }
  · intro v r' w t t' hv _ ht
    rw [hwindow v hv] at ht
    cases ht
  · intro v hv
    have hnot : ¬ v / 4096 * 4096 < userHeapVaddrStart := by
      unfold HeapPage at hv
      unfold userHeapVaddrStart elfUserLoadBase at *
      omega
    dsimp only
    rw [if_neg hnot]
    unfold privateSpace
    rw [hwindow v hv]
    simp

/--
**`SYS_SBRK` grows the heap.**  A process whose heap window is empty makes
successful calls that keep the break at or below the framebuffer window, and
stores in between.  Each call returns the break before it, the pages below the
break are mapped with frames of their own, and their bytes are the stored ones,
zero where nothing has been stored.
-/
theorem sbrk_grows_heap
    (hs : Reachable alloc Valid held fb K s) {cr3 : Nat} (hcr3 : cr3 ∈ s.roots)
    (hempty : ∀ v, userHeapVaddrStart ≤ v → v < userFbVaddr →
      translateAddr s.machine.mem cr3 v = none)
    {calls : List HeapCall} {h : UserHeap σ}
    (hlimit : userHeapVaddrStart + totalIncrement calls ≤ userFbVaddr)
    (hrun : runAll (heapCall alloc cr3)
      { machine := s.machine, brk := userHeapVaddrStart } calls = some h) :
    (∀ before increment after, calls = before ++ .sbrk increment :: after →
      ∃ h₁ m₁, runAll (heapCall alloc cr3)
          { machine := s.machine, brk := userHeapVaddrStart } before = some h₁ ∧
        sysSbrk alloc h₁.machine cr3 h₁.brk increment =
          .ok
            (userHeapVaddrStart + totalIncrement before,
              userHeapVaddrStart + totalIncrement before + increment, m₁)) ∧
    HeapGrown s.roots cr3 calls h := by
  have hf := (FreshPages.allocApart hs.fresh K).toFreshPages
  have hok := hs.systemOk
  obtain ⟨r, rfl⟩ := hok.frames _ hcr3
  have hi := heapInv_of_empty hok hempty
  constructor
  · rintro before increment after rfl
    rw [totalIncrement_append, totalIncrement] at hlimit
    rw [runAll_append] at hrun
    obtain ⟨h₁, hbefore, hafter⟩ := Option.bind_eq_some_iff.mp hrun
    obtain ⟨h₂, hcall, _⟩ := runAll_cons_success hafter
    obtain ⟨hbrk, hi₁⟩ :=
      heapInv_of_run hf hcr3 hi (show _ ≤ userFbVaddr by dsimp only; omega) hbefore
    dsimp only at hbrk
    obtain ⟨hbrk₂, _⟩ := hi₁.sbrk hf hcr3 (by omega) hcall
    obtain ⟨_, _, _, hsbrk⟩ := heapCall_sbrk_eq_some hcall
    rw [hbrk₂] at hsbrk
    refine ⟨h₁, h₂.machine, hbefore, ?_⟩
    rw [← hbrk]
    exact hsbrk
  · obtain ⟨hbrk, hi'⟩ := heapInv_of_run hf hcr3 hi hlimit hrun
    have hrights : mapRights vmmMapWrite =
        { user := true, writable := true, noExecute := true } := by
      decide
    refine
      { brk_eq := hbrk
        mapped := ?_
        own := ?_ }
    · intro v hlow hhigh
      rw [hi'.space v (heapPage_of_window hlow hhigh), hrights]
    · intro v cr3' w p hlow hhigh hp hcr3' hp'
      obtain ⟨r', rfl⟩ := hok.frames _ hcr3'
      obtain ⟨hslot, t, ht, _, rfl⟩ := hp
      obtain ⟨hslot', t', ht', _, hframe⟩ := hp'
      obtain ⟨rfl, hpage⟩ :=
        hi'.own v r' w t t' (heapPage_of_window hlow hhigh) hslot ht hcr3' hslot'
          ht' hframe.symm
      exact ⟨rfl, hpage⟩

/-- Two calls with a store between them, in a process without a program. -/
theorem sbrk_grows_heap_two_calls :
    ∃ s h,
      bootFile [] [.process .createAddressSpace] = some s ∧
      runAll (heapCall bumpAlloc 90112)
          { machine := s.machine, brk := userHeapVaddrStart }
          [.sbrk 100, .store (userHeapVaddrStart + 7) 42, .sbrk 5000] = some h ∧
      HeapGrown s.roots 90112
        [.sbrk 100, .store (userHeapVaddrStart + 7) 42, .sbrk 5000] h := by
  have hrun :
      (bootFile [] [.process .createAddressSpace]).any (fun s =>
        decide (s.roots.head? = some 90112) &&
          (runAll (heapCall bumpAlloc 90112)
            { machine := s.machine, brk := userHeapVaddrStart }
            [.sbrk 100, .store (userHeapVaddrStart + 7) 42,
              .sbrk 5000]).isSome) = true := by
    decide
  obtain ⟨s, hs, hroot⟩ := (Option.any_eq_true _ _).mp hrun
  rw [Bool.and_eq_true, decide_eq_true_eq, Option.isSome_iff_exists] at hroot
  obtain ⟨hcr3, h, hcalls⟩ := hroot
  have hreach := reachable_of_bootFile hs
  obtain ⟨s₀, cr3, m, hs₀, hcreate, rfl⟩ := bootWith_create hs
  simp only [List.head?_cons, Option.some.injEq] at hcr3
  subst hcr3
  have hboot := reachable_of_bootFile hs₀
  obtain ⟨_, hnone⟩ :=
    hboot.systemOk.createAddressSpace
      (FreshPages.allocApart hboot.fresh _).toFreshPages hcreate
  refine
    ⟨_, h, hs, hcalls,
      (sbrk_grows_heap hreach (by simp) ?_ (by decide) hcalls).2⟩
  intro v hlow hhigh
  obtain ⟨_, hslot⟩ := heapPage_canonical (heapPage_of_window hlow hhigh)
  refine hnone v ?_ ?_
  · rw [← index_eq_of_page_eq (show v / 4096 * 4096 / 4096 = v / 4096 by omega)
      (by decide)]
    exact hslot
  · unfold userHeapVaddrStart elfUserLoadBase at hlow
    omega

end Growth

end Elf
end RebornOS
