import RebornOS.PagedSpace
import RebornOS.UserIsolation
import RebornOS.VmmCheckRange

/-!
# The private part of an address space, as its process sees it

`privateSpace` reads the machine's memory through the hardware's page walk: for
every address outside the shared slot, the byte that an access finds and the
rights it has.  The operations that give memory to a process are operations on
this partial function.  Mapping a fresh frame is `mapPage`, and it touches
neither another page nor another space (`FreshMapped.privateSpace_eq`,
`FreshMapped.privateSpace_unchanged`): the frames behind private pages are idle, so
no page table is built in them and they are not handed out again.
-/

namespace RebornOS
namespace Elf

open ByteStore WordBits PageWalk RadixForest Fallible Vmm PagedSpace

variable {σ : Type} {D p r v : Nat} {roots : Set Nat} {g g' : Ghost} {mem' : Store}
  {alloc : σ → Nat × σ} {Valid : σ → Prop} {held : σ → Set Nat} {m m' : Machine σ}

/-- Byte and rights at the addresses outside the shared slot. -/
def privateSpace (mem : Store) (cr3 : Nat) : Space (UInt8 × Rights) :=
  fun v =>
    if index v 39 = 0 then
      none
    else
      (translateAddr mem cr3 v).map (fun t => (mem t.phys, t.rights))

section Reading

variable {mem : Store} {cr3 : Nat}

theorem privateSpace_of_slot
    (h : index v 39 = 0) : privateSpace mem cr3 v = none := by
  unfold privateSpace
  rw [if_pos h]

theorem privateSpace_of_ne
    (h : index v 39 ≠ 0) :
    privateSpace mem cr3 v =
      (translateAddr mem cr3 v).map (fun t => (mem t.phys, t.rights)) := by
  unfold privateSpace
  rw [if_neg h]

end Reading

section Idle

/-- The frame behind a private page is idle. -/
theorem DataInv.idle_of_translate
    (h : DataInv D alloc Valid held m roots g) {t : Translation} (hr : r ∈ roots)
    (hslot : index v 39 ≠ 0) (ht : translateAddr m.mem (r * 4096) v = some t) :
    Idle alloc m.pmm g (t.phys / 4096) := by
  obtain ⟨_, _, e, hleaf, hframe⟩ := h.inv.spaces.leaf_of_translate hr hslot ht
  rw [hframe]
  exact h.idle r _ _ e hr (okPath_pathOf hslot) rfl hleaf

/-- Bytes written into a frame that holds no table change no translation. -/
theorem DataInv.translate_write
    (hD : D ≤ 4) (h : DataInv D alloc Valid held m roots g) (hp : ¬ g.Table p)
    (hmem : SameOutside p m.mem mem') (hr : r ∈ roots) (v : Nat) :
    translateAddr mem' (r * 4096) v = translateAddr m.mem (r * 4096) v := by
  refine
    h.inv.spaces.translate_congr (h.write hD hp hmem).inv.spaces hr hr
      (fun hslot => ?_)
  exact
    leafAt_of_sameOutside h.inv.spaces hp hmem hr (okPath_pathOf hslot) _

/-- Pages are mapped as a whole. -/
theorem DataInv.paged
    (h : DataInv D alloc Valid held m roots g) (hr : r ∈ roots) :
    Paged 4096 (privateSpace m.mem (r * 4096)) := by
  intro v w hpage
  have h39 : index v 39 = index w 39 := index_eq_of_page_eq hpage (by decide)
  by_cases hslot : index v 39 = 0
  · rw [privateSpace_of_slot hslot, privateSpace_of_slot (h39 ▸ hslot)]
  · rw [privateSpace_of_ne hslot, privateSpace_of_ne (h39 ▸ hslot),
      Option.isSome_map, Option.isSome_map]
    by_cases hcanon : Canonical v
    · have hcanon' : Canonical w := by
        unfold Canonical at hcanon ⊢
        omega
      rw [h.inv.spaces.translate_high hr hcanon hslot,
        h.inv.spaces.translate_high hr hcanon' (h39 ▸ hslot), Option.isSome_map,
        Option.isSome_map, pathOf_eq_of_page_eq hpage,
        index_eq_of_page_eq hpage (le_refl 12)]
    · have hcanon' : ¬ Canonical w := by
        unfold Canonical at hcanon ⊢
        omega
      rw [translate_not_canonical hcanon, translate_not_canonical hcanon']

/-- `vmm_page_present` looks at the canonical form of its argument. -/
theorem DataInv.vmmPagePresent_eq
    (h : DataInv D alloc Valid held m roots g) (hr : r ∈ roots) (hslot : index v 39 ≠ 0) :
    vmmPagePresent m.mem (r * 4096) v =
      (privateSpace m.mem (r * 4096) (canonicalForm v)).isSome := by
  have hslot' : index (canonicalForm v) 39 ≠ 0 := by
    rw [index_canonicalForm v (by decide)]
    exact hslot
  have hwalk := h.inv.spaces.walkToLeaf_high hr hslot'
  rw [privateSpace_of_ne hslot', Option.isSome_map,
    h.inv.spaces.translate_high hr (canonical_canonicalForm v) hslot',
    Option.isSome_map]
  unfold vmmPagePresent
  rw [← walkToLeaf_canonicalForm]
  cases hleaf : leafAt (entries m.mem) r (pathOf (canonicalForm v))
      (index (canonicalForm v) 12) with
  | none =>
      rw [hleaf] at hwalk
      rw [hwalk]
  | some e =>
      rw [hleaf] at hwalk
      obtain ⟨a, ha, _⟩ := hwalk
      rw [ha]
      rfl

end Idle

section Mapped

variable {flags : Nat}

variable (hm : FreshMapped D alloc Valid held roots m g mem' r v p flags m' g')
include hm

/-- Mapping at `v` is mapping at its canonical form. -/
theorem FreshMapped.canonical :
    FreshMapped D alloc Valid held roots m g mem' r (canonicalForm v) p flags m'
      g' :=
  { hm with
    slot := by
      rw [index_canonicalForm v (by decide)]
      exact hm.slot
    leaves := by
      rw [pathOf_canonicalForm, index_canonicalForm v (by decide)]
      exact hm.leaves }

/-- How the hardware translates after a fresh frame has been mapped. -/
theorem FreshMapped.translate
    (h : MachineInv D Valid held m roots g) (hr : r ∈ roots) :
    (∀ b, b / 4096 = canonicalForm v / 4096 →
      translateAddr m'.mem (r * 4096) b =
        some { phys := p * 4096 + b % 4096, rights := mapRights flags }) ∧
    ∀ r' b, r' ∈ roots → r' ≠ r ∨ b / 4096 ≠ canonicalForm v / 4096 →
      translateAddr m'.mem (r' * 4096) b =
        translateAddr m.mem (r' * 4096) b := by
  have hlt := hm.lt
  exact
    translate_of_leaves h.spaces hm.inv.spaces hr (canonical_canonicalForm v)
      hm.canonical.slot (Nat.mul_mod_left p 4096) (by omega) hm.canonical.leaves

/-- Pages that keep their translation keep their bytes. -/
theorem FreshMapped.privateSpace_unchanged
    (h : DataInv D alloc Valid held m roots g) {r' b : Nat} (hr' : r' ∈ roots)
    (hsame : translateAddr m'.mem (r' * 4096) b =
      translateAddr m.mem (r' * 4096) b) :
    privateSpace m'.mem (r' * 4096) b = privateSpace m.mem (r' * 4096) b := by
  by_cases hslot : index b 39 = 0
  · rw [privateSpace_of_slot hslot, privateSpace_of_slot hslot]
  · rw [privateSpace_of_ne hslot, privateSpace_of_ne hslot, hsame]
    refine Option.map_congr (fun t ht => ?_)
    have hidle := h.idle_of_translate hr' hslot ht
    rw [(hm.others _ hidle).2.2 t.phys rfl]

/-- In its own space, a fresh frame replaces one page. -/
theorem FreshMapped.privateSpace_eq
    (h : DataInv D alloc Valid held m roots g) (hr : r ∈ roots) :
    privateSpace m'.mem (r * 4096) =
      PagedSpace.mapPage 4096 (privateSpace m.mem (r * 4096))
        (canonicalForm v / 4096)
        (fun k => (mem' (p * 4096 + k), mapRights flags)) := by
  obtain ⟨hmapped, hunchanged⟩ := hm.translate h.inv hr
  funext b
  by_cases hb : b / 4096 = canonicalForm v / 4096
  · have hslot : index b 39 ≠ 0 := by
      rw [index_eq_of_page_eq hb (by decide)]
      exact hm.canonical.slot
    have hframe : (p * 4096 + b % 4096) / 4096 = p := by omega
    rw [mapPage_of_eq hb, privateSpace_of_ne hslot, hmapped b hb, Option.map_some,
      hm.contents _ hframe]
  · rw [mapPage_of_ne hb]
    exact hm.privateSpace_unchanged h hr (hunchanged r b hr (Or.inr hb))

end Mapped

end Elf
end RebornOS
