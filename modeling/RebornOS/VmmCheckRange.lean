import RebornOS.VmmRuns

/-!
# `vmm_check_range` against the hardware

`vmm_check_range` looks at one leaf entry per page.  The hardware combines the
User and Writable bits of all levels.  They agree because every private entry
above the leaves is `table | 7` and the shared entries are too, so a walk has
exactly the rights of its leaf.

The walk of the code reads bits 47 to 12 of an address and never looks at the
bits above.  So it answers for the address's canonical form
(`SpacesInv.vmmCheckRange_spec`), which is the address itself in the lower half
(`vmmCheckRange_exact`) but not everywhere (`vmmCheckRange_canonical_iff`).
-/

namespace RebornOS
namespace Vmm

open ByteStore WordBits PageWalk RadixForest LabeledRun

variable {D r v : Nat} {mem : Store} {held roots : Set Nat} {g : Ghost}

section Leaf

/-- The code's step from an entry to the table below it. -/
theorem readEntry_child
    {n : Nat} (hn : n < 2 ^ 40) (v shift : Nat) :
    readEntry mem (tableEntry n &&& tableAddrMask) (tableIndex v shift) =
      entries mem n (index v shift) := by
  rw [tableEntry_land_mask hn, tableIndex_eq]
  rfl

/-- `walk_to_leaf` outside the shared slot. -/
theorem SpacesInv.walkToLeaf_high
    (h : SpacesInv D (entries mem) roots held g) (hr : r ∈ roots) (hv : index v 39 ≠ 0) :
    match leafAt (entries mem) r (pathOf v) (index v 12) with
    | none => walkToLeaf mem (r * 4096) v = none
    | some e =>
        ∃ a, walkToLeaf mem (r * 4096) v = some a ∧ readLE mem a 8 = e := by
  have hok : OkPath 3 (pathOf v) := okPath_pathOf hv
  have hok4 : OkPath 3 ([] ++ [index v 39]) := okPath_of_append [_] [_, _] hok
  have hok3 : OkPath 3 ([index v 39] ++ [index v 30]) :=
    okPath_of_append [_, _] [_] hok
  have hok2 : OkPath 3 ([index v 39, index v 30] ++ [index v 21]) := hok
  have he4eq : readEntry mem (r * 4096) (tableIndex v 39) =
      entries mem r (index v 39) := by
    rw [tableIndex_eq]
    rfl
  unfold walkToLeaf
  simp only [he4eq, land_pagePresent_eq_zero]
  rcases h.interior_entry hr hok4 rfl with ⟨hp, hw⟩ | ⟨n4, hn4, he4, hw4⟩
  · rw [leafAt_of_walk_none hw ⟨_, rfl⟩, hp, if_pos rfl]
  simp only [he4, isPresent_tableEntry, Bool.true_eq_false, if_false,
    readEntry_child hn4]
  rcases h.interior_entry hr hok3 hw4 with ⟨hp, hw⟩ | ⟨n3, hn3, he3, hw3⟩
  · rw [leafAt_of_walk_none hw ⟨_, rfl⟩, hp, if_pos rfl]
  simp only [he3, isPresent_tableEntry, Bool.true_eq_false, if_false,
    readEntry_child hn3]
  rcases h.interior_entry hr hok2 hw3 with ⟨hp, hw⟩ | ⟨n2, hn2, he2, hw2⟩
  · rw [leafAt_of_walk_none hw ⟨[], by simp [pathOf]⟩, hp, if_pos rfl]
  have hsmall : ¬ (tableEntry n2 &&& pageHuge ≠ 0) := by
    rw [not_not, land_pageHuge_eq_zero, isLarge_tableEntry]
  have hread : readEntry mem (n2 * 4096) (tableIndex v 12) =
      entries mem n2 (index v 12) := by
    rw [tableIndex_eq]
    rfl
  simp only [he2, isPresent_tableEntry, Bool.true_eq_false, if_false, if_neg hsmall,
    tableEntry_land_mask hn2, hread]
  have hleaf : leafAt (entries mem) r (pathOf v) (index v 12) =
      if isPresent (entries mem n2 (index v 12)) then
        some (entries mem n2 (index v 12)) else none := by
    unfold leafAt
    rw [show pathOf v = [index v 39, index v 30] ++ [index v 21] from rfl, hw2]
    rfl
  rw [hleaf]
  cases hp : isPresent (entries mem n2 (index v 12)) with
  | false =>
      simp
  | true =>
      exact ⟨n2 * 4096 + 8 * tableIndex v 12, by simp, hread⟩

/-- `walk_to_leaf` in the shared slot. -/
theorem SpacesInv.walkToLeaf_low
    (h : SpacesInv D (entries mem) roots held g) (hr : r ∈ roots) (hv : v < 2 ^ 39) :
    if v < 2 ^ 32 then
      ∃ a, walkToLeaf mem (r * 4096) v = some a ∧
        readLE mem a 8 = identityEntry (v / 2 ^ 30) (v / 2 ^ 21 % 512)
    else
      walkToLeaf mem (r * 4096) v = none := by
  have hslot : index v 39 = 0 := by
    apply Fin.ext
    simp only [index, Fin.val_zero]
    omega
  have hpdpt := (h.shared_free g.pdpt (Or.inl rfl)).2.2
  have hindex : (index v 30).val = v / 2 ^ 30 := by
    simp only [index]
    omega
  have he4eq : readEntry mem (r * 4096) (tableIndex v 39) =
      tableEntry g.pdpt := by
    rw [tableIndex_eq, hslot]
    exact h.shared_slot r hr
  unfold walkToLeaf
  simp only [he4eq, land_pagePresent_eq_zero, isPresent_tableEntry,
    Bool.true_eq_false, if_false, readEntry_child hpdpt]
  by_cases hlow : v < 2 ^ 32
  · rw [if_pos hlow]
    have hk : v / 2 ^ 30 < 4 := by omega
    have hpd := (h.shared_free (g.pd (v / 2 ^ 30)) (Or.inr ⟨_, hk, rfl⟩)).2.2
    obtain ⟨hpresent, hlarge, _⟩ := leaf_identityEntry hlow
    have he3 : entries mem g.pdpt (index v 30) = tableEntry (g.pd (v / 2 ^ 30)) := by
      rw [h.pdpt_low (index v 30) (by omega), hindex]
    have he2 : readEntry mem (g.pd (v / 2 ^ 30) * 4096) (tableIndex v 21) =
        identityEntry (v / 2 ^ 30) (v / 2 ^ 21 % 512) := by
      rw [tableIndex_eq]
      exact h.directory _ _ hk
    have hhuge : identityEntry (v / 2 ^ 30) (v / 2 ^ 21 % 512) &&& pageHuge ≠ 0 := by
      rw [Ne, land_pageHuge_eq_zero, hlarge]
      decide
    simp only [he3, isPresent_tableEntry, Bool.true_eq_false, if_false,
      tableEntry_land_mask hpd, he2, hpresent, if_pos hhuge]
    exact ⟨_, rfl, he2⟩
  · rw [if_neg hlow, h.pdpt_high (index v 30) (by omega), if_pos rfl]

end Leaf

section Page

/-- The hardware grants a user access to the byte at `b`. -/
def UserAccess (mem : Store) (cr3 b : Nat) (needWrite : Bool) : Prop :=
  ∃ t, translateAddr mem cr3 b = some t ∧ t.rights.user = true ∧
    (needWrite = true → t.rights.writable = true)

/-- The two bit tests of `vmm_check_range` on a leaf entry. -/
theorem pageAllowed_of_leaf
    {cr3 a e : Nat} {needWrite : Bool} (hwalk : walkToLeaf mem cr3 v = some a)
    (he : readLE mem a 8 = e) :
    pageAllowed mem cr3 v needWrite = true ↔
      (rightsOf e).user = true ∧
        (needWrite = true → (rightsOf e).writable = true) := by
  unfold pageAllowed
  rw [hwalk]
  simp only [he, land_pageUser_eq_zero, land_pageWritable_eq_zero]
  cases (rightsOf e).user <;> cases (rightsOf e).writable <;>
    cases needWrite <;> simp

/-- One page is allowed exactly when the hardware allows it. -/
theorem SpacesInv.pageAllowed_iff
    (h : SpacesInv D (entries mem) roots held g) (hr : r ∈ roots) (hcanon : Canonical v)
    (needWrite : Bool) :
    pageAllowed mem (r * 4096) v needWrite = true ↔
      UserAccess mem (r * 4096) v needWrite := by
  unfold UserAccess
  by_cases hslot : index v 39 = 0
  · have hlow39 := lt_of_index_eq_zero hcanon hslot
    have hwalk := h.walkToLeaf_low hr hlow39
    rw [h.translate_low hr hlow39]
    split_ifs at hwalk with hlow
    · obtain ⟨a, ha, hread⟩ := hwalk
      obtain ⟨_, _, hleaf⟩ := leaf_identityEntry hlow
      rw [pageAllowed_of_leaf ha hread, ← hleaf]
      simp [leaf]
    · unfold lowTranslation
      rw [if_neg hlow]
      unfold pageAllowed
      rw [hwalk]
      simp
  · have hwalk := h.walkToLeaf_high hr hslot
    rw [h.translate_high hr hcanon hslot]
    cases hleaf : leafAt (entries mem) r (pathOf v) (index v 12) with
    | none =>
        rw [hleaf] at hwalk
        unfold pageAllowed
        rw [hwalk]
        simp
    | some e =>
        rw [hleaf] at hwalk
        obtain ⟨a, ha, hread⟩ := hwalk
        rw [pageAllowed_of_leaf ha hread]
        simp [leaf]

/-- User access is the same for all bytes of a page. -/
theorem SpacesInv.userAccess_page
    (h : SpacesInv D (entries mem) roots held g) {b c : Nat} (hr : r ∈ roots)
    (hbcanon : Canonical b) (hpage : b / 4096 = c / 4096) (needWrite : Bool) :
    UserAccess mem (r * 4096) b needWrite ↔
      UserAccess mem (r * 4096) c needWrite := by
  have hccanon : Canonical c := by
    unfold Canonical at hbcanon ⊢
    omega
  have h39 : index b 39 = index c 39 := index_eq_of_page_eq hpage (by decide)
  unfold UserAccess
  by_cases hslot : index b 39 = 0
  · have hb39 := lt_of_index_eq_zero hbcanon hslot
    have hc39 := lt_of_index_eq_zero hccanon (h39 ▸ hslot)
    have hexec : kernelExecLimit = 4194304 := rfl
    rw [h.translate_low hr hb39, h.translate_low hr hc39]
    unfold lowTranslation
    by_cases hlow : b < 2 ^ 32
    · have hclow : c < 2 ^ 32 := by omega
      have huser : b < kernelExecLimit ↔ c < kernelExecLimit := by omega
      rw [if_pos hlow, if_pos hclow]
      simp [huser]
    · have hclow : ¬ c < 2 ^ 32 := by omega
      rw [if_neg hlow, if_neg hclow]
  · have hcslot : index c 39 ≠ 0 := h39 ▸ hslot
    rw [h.translate_high hr hbcanon hslot, h.translate_high hr hccanon hcslot,
      pathOf_eq_of_page_eq hpage, index_eq_of_page_eq hpage (le_refl 12)]
    cases leafAt (entries mem) r (pathOf c) (index c 12) with
    | none =>
        simp
    | some e =>
        simp [leaf]

end Page

section Canonical

/-- The canonical address with the same bits 47 to 0. -/
def canonicalForm (v : Nat) : Nat :=
  if v % 2 ^ 48 < 2 ^ 47 then v % 2 ^ 48 else v % 2 ^ 48 + (2 ^ 64 - 2 ^ 48)

theorem canonical_canonicalForm
    (v : Nat) : Canonical (canonicalForm v) := by
  unfold Canonical canonicalForm
  split_ifs <;> omega

theorem canonicalForm_of_canonical
    (hv : Canonical v) : canonicalForm v = v := by
  unfold Canonical at hv
  unfold canonicalForm
  split_ifs <;> omega

/-- Bytes of one page stay in one page. -/
theorem canonicalForm_page
    {w : Nat} (hpage : v / 4096 = w / 4096) :
    canonicalForm v / 4096 = canonicalForm w / 4096 := by
  unfold canonicalForm
  split_ifs <;> omega

/-- The indices of a walk are bits 47 to 12. -/
theorem index_canonicalForm
    (v : Nat) {shift : Nat}
    (hshift : shift = 12 ∨ shift = 21 ∨ shift = 30 ∨ shift = 39) :
    index (canonicalForm v) shift = index v shift := by
  unfold index canonicalForm
  rcases hshift with rfl | rfl | rfl | rfl
  all_goals
    simp only [Fin.mk.injEq]
    split_ifs <;> omega

theorem pathOf_canonicalForm
    (v : Nat) : pathOf (canonicalForm v) = pathOf v := by
  unfold pathOf
  rw [index_canonicalForm v (by decide), index_canonicalForm v (by decide),
    index_canonicalForm v (by decide)]

theorem walkToLeaf_canonicalForm
    (mem : Store) (cr3 v : Nat) :
    walkToLeaf mem cr3 (canonicalForm v) = walkToLeaf mem cr3 v := by
  unfold walkToLeaf
  simp only [tableIndex_eq]
  rw [index_canonicalForm v (by decide), index_canonicalForm v (by decide),
    index_canonicalForm v (by decide), index_canonicalForm v (by decide)]

theorem pageAllowed_canonicalForm
    (mem : Store) (cr3 v : Nat) (needWrite : Bool) :
    pageAllowed mem cr3 (canonicalForm v) needWrite =
      pageAllowed mem cr3 v needWrite := by
  unfold pageAllowed
  rw [walkToLeaf_canonicalForm]

end Canonical

section Range

variable {cr3 stop : Nat} {needWrite : Bool}

/-- The loop stops at the first page that is not allowed. -/
theorem checkPages_refused
    (n : Nat) :
    ∀ fuel page, n < fuel →
      (∀ i, i ≤ n → (page + i * 4096) % 2 ^ 64 < stop) →
      pageAllowed mem cr3 ((page + n * 4096) % 2 ^ 64) needWrite = false →
      page < 2 ^ 64 →
      checkPages mem cr3 stop needWrite fuel page = some false := by
  induction n with
  | zero =>
      intro fuel page hfuel hbelow hrefused hpage
      obtain ⟨fuel, rfl⟩ : ∃ k, fuel = k + 1 := ⟨fuel - 1, by omega⟩
      have hstop := hbelow 0 (le_refl 0)
      rw [Nat.zero_mul, Nat.add_zero, Nat.mod_eq_of_lt hpage] at hstop hrefused
      rw [checkPages, if_pos hstop, hrefused, if_neg (by decide)]
  | succ n ih =>
      intro fuel page hfuel hbelow hrefused hpage
      obtain ⟨fuel, rfl⟩ : ∃ k, fuel = k + 1 := ⟨fuel - 1, by omega⟩
      have hstop := hbelow 0 (by omega)
      rw [Nat.zero_mul, Nat.add_zero, Nat.mod_eq_of_lt hpage] at hstop
      -- the page after `page`, and the pages after that one
      have hnext : ∀ i,
          ((page + pmmPageSize) % 2 ^ 64 + i * 4096) % 2 ^ 64 =
            (page + (i + 1) * 4096) % 2 ^ 64 := by
        intro i
        have hsize : pmmPageSize = 4096 := rfl
        omega
      rw [checkPages, if_pos hstop]
      split_ifs with hok
      · refine ih fuel _ (by omega) ?_ ?_ (Nat.mod_lt _ (by decide))
        · intro i hi
          rw [hnext]
          exact hbelow (i + 1) (by omega)
        · rw [hnext]
          exact hrefused
      · rfl

/-- The loop accepts when every page is allowed. -/
theorem checkPages_accepted
    (n : Nat) :
    ∀ fuel page, n < fuel → stop ≤ page + n * 4096 →
      page + n * 4096 < 2 ^ 64 →
      (∀ i, i < n →
        pageAllowed mem cr3 (page + i * 4096) needWrite = true) →
      checkPages mem cr3 stop needWrite fuel page = some true := by
  induction n with
  | zero =>
      intro fuel page hfuel hend _ _
      obtain ⟨fuel, rfl⟩ : ∃ k, fuel = k + 1 := ⟨fuel - 1, by omega⟩
      rw [checkPages, if_neg (by omega)]
  | succ n ih =>
      intro fuel page hfuel hend hlt hall
      obtain ⟨fuel, rfl⟩ : ∃ k, fuel = k + 1 := ⟨fuel - 1, by omega⟩
      have hfirst := hall 0 (by omega)
      rw [Nat.zero_mul, Nat.add_zero] at hfirst
      have hnext : (page + pmmPageSize) % 2 ^ 64 = page + 4096 := by
        have hsize : pmmPageSize = 4096 := rfl
        omega
      rw [checkPages]
      by_cases hmore : page < stop
      · rw [if_pos hmore, if_pos hfirst, hnext]
        refine ih fuel (page + 4096) (by omega) (by omega) (by omega) ?_
        intro i hi
        have hstep := hall (i + 1) (by omega)
        rwa [show page + (i + 1) * 4096 = page + 4096 + i * 4096 by omega]
          at hstep
      · rw [if_neg hmore]

/--
A loop whose bound lies in the last page wraps around to address 0 and is
stopped by the first page above the user-accessible low memory.
-/
theorem SpacesInv.checkPages_wrapped
    (h : SpacesInv D (entries mem) roots held g) {page : Nat} (hr : r ∈ roots)
    (halign : page % 4096 = 0) (hpage : page < 2 ^ 64) (hstop : 2 ^ 64 - 4096 < stop) :
    checkPages mem (r * 4096) stop needWrite checkFuel page = some false := by
  have hrefused :
      pageAllowed mem (r * 4096) 0x400000 needWrite = false := by
    by_contra hne
    obtain ⟨t, ht, huser, _⟩ :=
      (h.pageAllowed_iff hr (Or.inl (by decide)) needWrite).mp
        (Bool.eq_true_of_not_eq_false hne)
    rw [h.translate_low hr (by decide)] at ht
    have hexec : ¬ (0x400000 < kernelExecLimit) := by decide
    unfold lowTranslation at ht
    rw [if_pos (by decide), Option.some.injEq] at ht
    rw [← ht] at huser
    simp [hexec] at huser
  have hfuel : checkFuel = 2 ^ 52 + 1 := rfl
  by_cases hlow : page ≤ 0x400000
  · refine checkPages_refused ((0x400000 - page) / 4096) _ _ (by omega) ?_ ?_ hpage
    · intro i hi
      omega
    · rw [show (page + (0x400000 - page) / 4096 * 4096) % 2 ^ 64 = 0x400000 by
        omega]
      exact hrefused
  · refine
      checkPages_refused ((2 ^ 64 + 0x400000 - page) / 4096) _ _ (by omega) ?_ ?_
        hpage
    · intro i hi
      omega
    · rw [show (page + (2 ^ 64 + 0x400000 - page) / 4096 * 4096) % 2 ^ 64 =
        0x400000 by omega]
      exact hrefused

/--
The result of `vmm_check_range` for all 64-bit arguments: it accepts a range
that ends before the last page and whose bytes are all accessible at their
canonical form.
-/
theorem SpacesInv.vmmCheckRange_spec
    (h : SpacesInv D (entries mem) roots held g) {vaddr len : Nat} (hr : r ∈ roots)
    (hvaddr : vaddr < 2 ^ 64) (hpos : 0 < len) (hlen : len < 2 ^ 64) (needWrite : Bool) :
    ∃ res, vmmCheckRange mem (r * 4096) vaddr len needWrite = some res ∧
      (res = true ↔
        vaddr + len ≤ 2 ^ 64 - 4096 ∧
        ∀ b, vaddr ≤ b → b < vaddr + len →
          UserAccess mem (r * 4096) (canonicalForm b) needWrite) := by
  have hstart : vaddr &&& highMask 12 = vaddr / 4096 * 4096 :=
    land_highMask hvaddr (by decide)
  have hallowed : ∀ v, pageAllowed mem (r * 4096) v needWrite = true ↔
      UserAccess mem (r * 4096) (canonicalForm v) needWrite := by
    intro v
    rw [← pageAllowed_canonicalForm]
    exact h.pageAllowed_iff hr (canonical_canonicalForm v) needWrite
  have hfuel : checkFuel = 2 ^ 52 + 1 := rfl
  unfold vmmCheckRange
  rw [if_neg (by omega), hstart]
  by_cases hwrap : (vaddr + len) % 2 ^ 64 < vaddr
  · rw [if_pos hwrap]
    refine ⟨false, rfl, ?_⟩
    simp only [Bool.false_eq_true, false_iff]
    rintro ⟨hend, _⟩
    omega
  · rw [if_neg hwrap]
    have hsum : (vaddr + len) % 2 ^ 64 = vaddr + len := by omega
    rw [hsum]
    by_cases hlast : 2 ^ 64 - 4096 < vaddr + len
    · refine
        ⟨false, h.checkPages_wrapped hr (by omega) (by omega) hlast, ?_⟩
      simp only [Bool.false_eq_true, false_iff]
      rintro ⟨hend, _⟩
      omega
    · by_cases hall : ∀ b, vaddr ≤ b → b < vaddr + len →
          UserAccess mem (r * 4096) (canonicalForm b) needWrite
      · refine ⟨true, ?_, by simp only [true_iff]; exact ⟨by omega, hall⟩⟩
        refine
          checkPages_accepted ((vaddr + len - vaddr / 4096 * 4096 + 4095) / 4096)
            _ _ (by omega) (by omega) (by omega) ?_
        intro i hi
        rw [hallowed]
        -- the first byte of the range that lies in this page
        have hbyte :=
          hall (max vaddr (vaddr / 4096 * 4096 + i * 4096)) (by omega) (by omega)
        exact
          (h.userAccess_page hr (canonical_canonicalForm _)
            (canonicalForm_page (by omega)) needWrite).mpr hbyte
      · refine ⟨false, ?_, by simp [hall]⟩
        push Not at hall
        obtain ⟨b, hb, hbe, hrefused⟩ := hall
        refine
          checkPages_refused (b / 4096 - vaddr / 4096) _ _ (by omega) ?_ ?_
            (by omega)
        · intro i hi
          omega
        · by_contra hne
          apply hrefused
          have hpage := (hallowed _).mp (Bool.eq_true_of_not_eq_false hne)
          exact
            (h.userAccess_page hr (canonical_canonicalForm _)
              (canonicalForm_page (by omega)) needWrite).mpr hpage

variable {σ : Type} {alloc : σ → Nat × σ} {Valid : σ → Prop}
  {heldBy : σ → Set Nat}

/--
**Pointer validation is exact.**  After any run of the page-table code,
`vmm_check_range` on a range in the lower half returns, and it returns 1
exactly when the range is empty or the hardware grants the access to every
byte of it.
-/
theorem vmmCheckRange_exact
    {m₀ m₁ : Machine σ} {s : Spaces σ} {calls : List Call}
    (hf : FreshPages alloc Valid heldBy) (hv : Valid m₀.pmm)
    (hinit : vmmInit alloc m₀ = .ok m₁)
    (hrun : runAll (call alloc) (boot m₁) calls = some s)
    {cr3 vaddr len : Nat} (hcr3 : cr3 ∈ s.roots)
    (hrange : vaddr + len ≤ 2 ^ 47) (needWrite : Bool) :
    ∃ res, vmmCheckRange s.machine.mem cr3 vaddr len needWrite = some res ∧
      (res = true ↔
        len = 0 ∨
          ∀ b, vaddr ≤ b → b < vaddr + len →
            UserAccess s.machine.mem cr3 b needWrite) := by
  have hs := spacesOk_of_run hf hv hinit hrun
  obtain ⟨g, hg⟩ := hs.inv
  obtain ⟨r, rfl⟩ := hs.frames _ hcr3
  by_cases hlen : len = 0
  · unfold vmmCheckRange
    rw [if_pos hlen]
    exact ⟨true, rfl, by simp [hlen]⟩
  · obtain ⟨res, hres, hiff⟩ :=
      hg.spaces.vmmCheckRange_spec hcr3 (show vaddr < 2 ^ 64 by omega)
        (show 0 < len by omega) (by omega) needWrite
    have hform : ∀ b, b < vaddr + len → canonicalForm b = b :=
      fun b hb => canonicalForm_of_canonical (Or.inl (by omega))
    refine ⟨res, hres, hiff.trans ⟨?_, ?_⟩⟩
    · rintro ⟨_, hall⟩
      refine Or.inr (fun b hb hbe => ?_)
      rw [← hform b hbe]
      exact hall b hb hbe
    · rintro (hzero | hall)
      · exact absurd hzero hlen
      · refine ⟨by omega, fun b hb hbe => ?_⟩
        rw [hform b hbe]
        exact hall b hb hbe

/-- `vmm_init` on the frames in order; the root table is frame 1. -/
theorem exists_boot_bumpAlloc :
    ∃ m₁,
      vmmInit bumpAlloc (blank 1) = .ok m₁ ∧
      4096 ∈ (boot m₁).roots := by
  have hrun :
      (vmmInit bumpAlloc (blank 1)).toOption.any
          (fun m => m.kernelPml4 == 4096) := by
    decide +kernel
  obtain ⟨m₁, hinit, hkernel⟩ := Fallible.any_toOption.mp hrun
  exact ⟨m₁, hinit, List.mem_singleton.mpr (beq_iff_eq.mp hkernel).symm⟩

/-- A range across a page boundary of the kernel's low mapping. -/
theorem vmmCheckRange_exact_low :
    ∃ m₁ s,
      vmmInit bumpAlloc (blank 1) = .ok m₁ ∧
      runAll (call bumpAlloc) (boot m₁) [] = some s ∧
      ∃ res,
        vmmCheckRange s.machine.mem 4096 0x3FFFFF 2 true = some res ∧
        (res = true ↔
          2 = 0 ∨
            ∀ b, 0x3FFFFF ≤ b → b < 0x3FFFFF + 2 →
              UserAccess s.machine.mem 4096 b true) := by
  obtain ⟨m₁, hinit, hroot⟩ := exists_boot_bumpAlloc
  exact
    ⟨m₁, boot m₁, hinit, rfl,
      vmmCheckRange_exact freshPages_bumpAlloc Nat.zero_lt_one hinit
        (runAll_nil _ _) hroot (by decide) true⟩

/--
**When an accepted range is canonical.**  After any run of the page-table code
and for all 64-bit arguments: if `vmm_check_range` returns 1 then every byte
of the range is canonical, exactly when the range is canonical anyway, reaches
the last page, or has a byte whose canonical form the hardware does not let a
user access.
-/
theorem vmmCheckRange_canonical_iff
    {m₀ m₁ : Machine σ} {s : Spaces σ} {calls : List Call}
    (hf : FreshPages alloc Valid heldBy) (hv : Valid m₀.pmm)
    (hinit : vmmInit alloc m₀ = .ok m₁)
    (hrun : runAll (call alloc) (boot m₁) calls = some s)
    {cr3 vaddr len : Nat} (hcr3 : cr3 ∈ s.roots)
    (hvaddr : vaddr < 2 ^ 64) (hpos : 0 < len) (hlen : len < 2 ^ 64)
    (needWrite : Bool) :
    (vmmCheckRange s.machine.mem cr3 vaddr len needWrite = some true →
        ∀ b, vaddr ≤ b → b < vaddr + len → Canonical b) ↔
      (∀ b, vaddr ≤ b → b < vaddr + len → Canonical b) ∨
      2 ^ 64 - 4096 < vaddr + len ∨
      ∃ b, vaddr ≤ b ∧ b < vaddr + len ∧
        ¬ UserAccess s.machine.mem cr3 (canonicalForm b) needWrite := by
  have hs := spacesOk_of_run hf hv hinit hrun
  obtain ⟨g, hg⟩ := hs.inv
  obtain ⟨r, rfl⟩ := hs.frames _ hcr3
  obtain ⟨res, hres, hiff⟩ :=
    hg.spaces.vmmCheckRange_spec hcr3 hvaddr hpos hlen needWrite
  rw [hres, Option.some.injEq, hiff]
  constructor
  · intro h
    by_cases hend : vaddr + len ≤ 2 ^ 64 - 4096
    · by_cases hall : ∀ b, vaddr ≤ b → b < vaddr + len →
          UserAccess s.machine.mem (r * 4096) (canonicalForm b) needWrite
      · exact Or.inl (h ⟨hend, hall⟩)
      · push Not at hall
        exact Or.inr (Or.inr hall)
    · exact Or.inr (Or.inl (by omega))
  · rintro (hcanon | hlast | ⟨b, hb, hbe, hrefused⟩) ⟨hend, hall⟩
    · exact hcanon
    · omega
    · exact absurd (hall b hb hbe) hrefused

/-- A kernel address just above the user-accessible low memory. -/
theorem vmmCheckRange_canonical_kernel :
    ∃ m₁ s,
      vmmInit bumpAlloc (blank 1) = .ok m₁ ∧
      runAll (call bumpAlloc) (boot m₁) [] = some s ∧
      ((vmmCheckRange s.machine.mem 4096 0x400000 1 true = some true →
          ∀ b, 0x400000 ≤ b → b < 0x400000 + 1 → Canonical b) ↔
        (∀ b, 0x400000 ≤ b → b < 0x400000 + 1 → Canonical b) ∨
        2 ^ 64 - 4096 < 0x400000 + 1 ∨
        ∃ b, 0x400000 ≤ b ∧ b < 0x400000 + 1 ∧
          ¬ UserAccess s.machine.mem 4096 (canonicalForm b) true) := by
  obtain ⟨m₁, hinit, hroot⟩ := exists_boot_bumpAlloc
  exact
    ⟨m₁, boot m₁, hinit, rfl,
      vmmCheckRange_canonical_iff freshPages_bumpAlloc Nat.zero_lt_one hinit
        (runAll_nil _ _) hroot (by decide) (by decide) (by decide) true⟩

/--
`2 ^ 48` is an alias of address 0, which ring 3 can access: the pointer passes
the check, and an access through it has no translation.
-/
theorem vmmCheckRange_accepts_alias :
    ∃ m₁,
      vmmInit bumpAlloc (blank 1) = .ok m₁ ∧
      4096 ∈ (boot m₁).roots ∧
      vmmCheckRange m₁.mem 4096 (2 ^ 48) 1 true = some true ∧
      ¬ Canonical (2 ^ 48) ∧ translateAddr m₁.mem 4096 (2 ^ 48) = none := by
  obtain ⟨m₁, hinit, hroot⟩ := exists_boot_bumpAlloc
  have hs : SpacesOk 3 _ _ (boot m₁) :=
    spacesOk_boot (le_refl 3) freshPages_bumpAlloc Nat.zero_lt_one hinit
  obtain ⟨g, hg⟩ := hs.inv
  have hframe : 1 ∈ rootFrames (boot m₁).roots := hroot
  have hnot : ¬ Canonical (2 ^ 48) := by decide
  have hzero : UserAccess m₁.mem (1 * 4096) 0 true :=
    ⟨_, hg.spaces.translate_low hframe (by decide), rfl, fun _ => rfl⟩
  obtain ⟨res, hres, hiff⟩ :=
    hg.spaces.vmmCheckRange_spec hframe (show 2 ^ 48 < 2 ^ 64 by decide)
      Nat.zero_lt_one (by decide) true
  have htrue : res = true := by
    refine hiff.mpr ⟨by decide, ?_⟩
    intro b hb hbe
    obtain rfl : b = 2 ^ 48 := by omega
    exact hzero
  rw [htrue] at hres
  exact ⟨m₁, hinit, hroot, hres, hnot, translate_not_canonical hnot⟩

end Range

end Vmm
end RebornOS
