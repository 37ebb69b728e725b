import RebornOS.Fat16Write
import RebornOS.Fat16Frame

/-!
# Well-formed volumes

A volume is well-formed when the cache equals the FAT on the disk, every cluster
in use is on the chain of exactly one entry of the directory tree, and the root
directory has unique names and ends with its first unused slot.

Well-formedness says nothing about an entry whose first cluster is marked free.
Such a cluster can be allocated to another file; `Intact` excludes it.  Nor does it
bound a first cluster: the loop that frees such a file uses indices behind the FAT,
where it is not followed; on a `Complete` volume every chain ends inside.

On an intact volume a call of `fat16_write_file` touches the clusters of the
replaced file and free clusters only (`Touches`).  The links of all other clusters do not
lead to them, and no other entry starts there.
-/

namespace RebornOS
namespace Fat16

open ByteStore TableChain

variable {v : Volume} {c d : Nat} {ent : Dirent} {name : CString}

/-- The FAT's mark for a bad cluster. -/
def badMark : Nat := 0xFFF7

/-- Cluster `c` is on the chain of the entry at position `p` of the tree. -/
def Owns (v : Volume) (p : Nat × Nat) (c : Nat) : Prop :=
  ∃ ent cs,
    TreeEntry v p.1 p.2 ent ∧
      ChainAt v.geom v.fat ent.firstCluster cs ∧ c ∈ cs

/-- A well-formed volume. -/
structure WellFormed (v : Volume) : Prop where
  synced : Synced v
  owned :
    ∀ c, IsCluster v.geom c → v.fat c ≠ freeMark → v.fat c ≠ badMark →
      ∃! p, Owns v p c
  unique_names :
    ∀ e e',
      Visible (rootBytes v) v.geom.rootDirEntryCount e →
      Visible (rootBytes v) v.geom.rootDirEntryCount e' →
      (readDirent (rootBytes v) e).name = (readDirent (rootBytes v) e').name →
      e = e'
  zero_tail :
    ∀ e e', firstByte (rootBytes v) e = 0 → e < e' →
      e' < v.geom.rootDirEntryCount → firstByte (rootBytes v) e' = 0

/-- A well-formed volume in which no entry starts at a free cluster. -/
structure Intact (v : Volume) : Prop extends WellFormed v where
  started :
    ∀ d e ent, TreeEntry v d e ent → IsCluster v.geom ent.firstCluster →
      v.fat ent.firstCluster ≠ freeMark

/-- An intact volume on which every entry without a chain has no cluster. -/
structure Complete (v : Volume) : Prop extends Intact v where
  chains :
    ∀ d e ent, TreeEntry v d e ent →
      ent.firstCluster < 2 ∨ ∃ cs, ChainAt v.geom v.fat ent.firstCluster cs

section Owners

variable {p q : Nat × Nat}

theorem Owns.isCluster
    (h : Owns v p c) : IsCluster v.geom c := by
  obtain ⟨ent, cs, _, hchain, hc⟩ := h
  exact hchain.node hc

theorem Owns.used
    (h : Owns v p c) : v.fat c ≠ freeMark := by
  obtain ⟨ent, cs, _, hchain, hc⟩ := h
  exact chain_used hchain hc

/-- An owned cluster links to the next cluster of its owner or ends the chain. -/
theorem Owns.next
    (h : Owns v p c) : Owns v p (v.fat c) ∨ eocMin ≤ v.fat c := by
  obtain ⟨ent, cs, htree, hchain, hc⟩ := h
  rcases hchain.next_mem hc with hnext | hstop
  · exact Or.inl ⟨ent, cs, htree, hchain, hnext⟩
  · exact Or.inr hstop

theorem Owns.not_bad
    (hsmall : v.geom.fatCacheEntries ≤ 0xFFF0) (h : Owns v p c) :
    v.fat c ≠ badMark := by
  unfold badMark
  rcases h.next with hnext | hstop
  · have hlt := hnext.isCluster.2
    omega
  · unfold eocMin at hstop
    omega

/-- The rest of the chain from an owned cluster on. -/
theorem Owns.rest
    (h : Owns v p c) : ∃ post, ChainAt v.geom v.fat c (c :: post) := by
  obtain ⟨ent, cs, _, hchain, hc⟩ := h
  obtain ⟨pre, post, rfl⟩ := List.append_of_mem hc
  exact ⟨post, hchain.suffix pre⟩

theorem WellFormed.owner_unique
    (hsmall : v.geom.fatCacheEntries ≤ 0xFFF0) (hv : WellFormed v)
    (hp : Owns v p c) (hq : Owns v q c) : p = q :=
  (hv.owned c hp.isCluster hp.used (hp.not_bad hsmall)).unique hp hq

/-- The chain of an entry that starts at an owned cluster. -/
theorem Owns.of_start
    {e : Nat} (htree : TreeEntry v d e ent) (h : Owns v p ent.firstCluster) :
    Owns v (d, e) ent.firstCluster := by
  obtain ⟨post, hchain⟩ := h.rest
  exact ⟨ent, _, htree, hchain, List.mem_cons_self⟩

end Owners

section Freeing

variable {fat : Nat → Nat}

/-- A freeing loop that starts outside the cache does not return. -/
theorem freeChain_outside
    {entries fuel : Nat} (hlow : 2 ≤ c) (hhigh : c < eocMin) (hout : entries ≤ c) :
    ∀ fat', freeChain entries fuel fat c ≠ .ok fat' := by
  intro fat' h
  cases fuel with
  | zero =>
      cases h
  | succ fuel =>
      rw [freeChain, if_pos ⟨hlow, hhigh⟩, if_neg (by omega)] at h
      cases h

/-- When the freeing loop returns, the replaced file had a proper chain. -/
theorem Intact.exists_replaced
    (hsmall : v.geom.fatCacheEntries ≤ 0xFFF0) (hv : Intact v)
    (h : freeExisting v (scanSlots v name).1 = .ok fat) :
    ∃ old, ReplacedChain v name old := by
  unfold ReplacedChain
  unfold freeExisting at h
  cases hfound : (scanSlots v name).1 with
  | none =>
      exact ⟨[], rfl⟩
  | some e =>
      rw [hfound] at h
      rw [scanSlots_fst] at hfound
      obtain ⟨hvis, hname, _⟩ := findFrom_zero_eq_some.mp hfound
      have htree := treeEntry_of_root hvis hname
      simp only at h ⊢
      generalize hf : (readDirent (rootBytes v) e).firstCluster = f at h ⊢
      by_cases hlow : 2 ≤ f
      · by_cases hhigh : f < eocMin
        · by_cases hlt : f < v.geom.fatCacheEntries
          · have hused : v.fat f ≠ freeMark := by
              have hstart := hv.started 0 e _ htree
              rw [hf] at hstart
              exact hstart ⟨hlow, hlt⟩
            have hgood : v.fat f ≠ badMark := by
              intro hbad
              rw [freeChain, if_pos ⟨hlow, hhigh⟩, if_pos hlt, hbad] at h
              exact freeChain_outside (by decide) (by decide)
                (by unfold badMark; omega) _ h
            obtain ⟨p, hp, _⟩ := hv.owned f ⟨hlow, hlt⟩ hused hgood
            obtain ⟨post, hchain⟩ := hp.rest
            exact ⟨_, Or.inr hchain⟩
          · exact absurd h (freeChain_outside hlow hhigh (by omega) _)
        · exact ⟨[], Or.inr (by
            show eocMin ≤ f
            omega)⟩
      · exact ⟨[], Or.inl ⟨by omega, rfl⟩⟩

/-- The FAT after the freeing loop: the replaced chain is free, the rest stays. -/
theorem Intact.exists_cleared
    (hsmall : v.geom.fatCacheEntries ≤ 0xFFF0) (hv : Intact v)
    (h : freeExisting v (scanSlots v name).1 = .ok fat) :
    ∃ old, ReplacedChain v name old ∧ cleared v.fat old = fat := by
  obtain ⟨old, hold⟩ := hv.exists_replaced hsmall h
  rw [hold.freeExisting_eq (le_trans hsmall (by decide))] at h
  exact ⟨old, hold, Except.ok.inj h⟩

end Freeing

/-- No entry of that name in the root is a directory. -/
def NoDirectory (v : Volume) (want : List UInt8) : Prop :=
  ∀ e, Visible (rootBytes v) v.geom.rootDirEntryCount e →
    (readDirent (rootBytes v) e).name = want → ¬ (readDirent (rootBytes v) e).IsDirectory

/--
The clusters `old` and `new` that a call of `fat16_write_file` on an intact
volume touches: those of the replaced file, and those it allocates.
-/
structure Touches
    (v : Volume) (name : CString) (slot : Nat) (old new : List Nat) : Prop where
  indices : v.geom.fatCacheEntries ≤ 0xFFF0
  intact : Intact v
  not_directory : NoDirectory v (format83 name.bytes)
  slot_spec : SlotSpec v name slot
  replaced : ReplacedChain v name old
  allocated :
    ∀ c, c ∈ new → IsCluster v.geom c ∧ cleared v.fat old c = freeMark

/-- The clusters that a call does not touch. -/
def untouched (old new : List Nat) : Set Nat := {c | c ∉ old ∧ c ∉ new}

/-- If the slot was a visible entry, it was the entry of the name. -/
theorem SlotSpec.found_of_visible
    {slot : Nat} (h : SlotSpec v name slot)
    (hvis : Visible (rootBytes v) v.geom.rootDirEntryCount slot) :
    (scanSlots v name).1 = some slot ∧
      (readDirent (rootBytes v) slot).name = format83 name.bytes := by
  rcases h.kind with ⟨hfound, _, hname⟩ | ⟨_, hzero | hdel⟩
  · exact ⟨hfound, hname⟩
  · exact absurd hzero (hvis.not_ended slot (le_refl _))
  · exact absurd hdel hvis.not_deleted

section Calls

variable {slot : Nat} {new old : List Nat}

variable (h : Touches v name slot old new)
include h

theorem Touches.small : v.geom.fatCacheEntries ≤ eocMin :=
  le_trans h.indices (by decide)

/-- The replaced clusters are those that the slot's entry owned. -/
theorem Touches.owns_slot_iff : Owns v (0, slot) c ↔ c ∈ old := by
  have hreplaced := h.replaced
  unfold ReplacedChain at hreplaced
  constructor
  · rintro ⟨ent, cs, htree, hchain, hc⟩
    have hentry : EntryOf v 0 slot ent := htree.entry
    obtain ⟨hvis, rfl, _⟩ := entryOf_root_iff.mp hentry
    rw [(h.slot_spec.found_of_visible hvis).1] at hreplaced
    rcases hreplaced with ⟨hlow, _⟩ | hold
    · cases cs with
      | nil =>
          cases hc
      | cons b cs =>
          obtain ⟨rfl, hnode, _⟩ := hchain
          have hlow' := hnode.1
          omega
    · rwa [← hchain.unique (isCluster_not_stop h.small) hold]
  · intro hc
    rcases h.slot_spec.kind with ⟨hfound, hvis, hname⟩ | ⟨hnone, _⟩
    · rw [hfound] at hreplaced
      rcases hreplaced with ⟨_, rfl⟩ | hold
      · cases hc
      · exact ⟨_, old, treeEntry_of_root hvis hname, hold, hc⟩
    · rw [hnone] at hreplaced
      simp only at hreplaced
      rw [hreplaced] at hc
      cases hc

/-- A new cluster was free or is one of the replaced clusters. -/
theorem Touches.free_of_new
    (hc : c ∈ new) (hold : c ∉ old) : v.fat c = freeMark := by
  have hfree := (h.allocated c hc).2
  unfold cleared at hfree
  rwa [if_neg hold] at hfree

/-- The clusters of all other entries are not touched. -/
theorem Touches.untouched_of_owns
    {p : Nat × Nat} (hp : p ≠ (0, slot)) (ho : Owns v p c) : c ∈ untouched old new := by
  have hold : c ∉ old := by
    intro hc
    exact hp (h.intact.owner_unique h.indices ho (h.owns_slot_iff.mpr hc))
  exact ⟨hold, fun hc => ho.used (h.free_of_new hc hold)⟩

/-- A touched cluster number is a cluster of the FAT. -/
theorem Touches.isCluster_of_touched
    (hc : c ∉ untouched old new) : IsCluster v.geom c := by
  by_cases hold : c ∈ old
  · exact ((h.replaced.spec h.small).2 c hold).1
  · have hnew : c ∈ new := by
      by_contra hnot
      exact hc ⟨hold, hnot⟩
    exact (h.allocated c hnew).1

/-- No link leads from an untouched cluster to a touched one. -/
theorem Touches.closed
    (hc : c ∈ untouched old new) (hnode : IsCluster v.geom c) :
    v.fat c ∈ untouched old new := by
  have hsmall := h.indices
  by_contra htouched
  have hnext := h.isCluster_of_touched htouched
  have hlow := hnext.1
  have hlt := hnext.2
  have hused : v.fat c ≠ freeMark := by
    unfold freeMark
    omega
  have hgood : v.fat c ≠ badMark := by
    unfold badMark
    omega
  obtain ⟨p, hp, _⟩ := h.intact.owned c hnode hused hgood
  rcases hp.next with hown | hstop
  · refine htouched (h.untouched_of_owns ?_ hown)
    rintro rfl
    exact hc.1 (h.owns_slot_iff.mp hp)
  · unfold eocMin at hstop
    omega

/-- No other entry starts at a touched cluster. -/
theorem Touches.first_untouched
    {e : Nat} (htree : TreeEntry v d e ent) (hne : (d, e) ≠ (0, slot)) :
    ent.firstCluster ∈ untouched old new := by
  by_contra htouched
  have hused := h.intact.started d e ent htree (h.isCluster_of_touched htouched)
  have hold : ent.firstCluster ∈ old := by
    by_contra hnot
    refine htouched ⟨hnot, fun hnew => ?_⟩
    exact hused (h.free_of_new hnew hnot)
  have hslot := h.owns_slot_iff.mpr hold
  exact hne (h.intact.owner_unique h.indices (Owns.of_start htree hslot) hslot)

theorem Touches.zero_untouched : 0 ∈ untouched old new := by
  by_contra htouched
  have hlow := (h.isCluster_of_touched htouched).1
  omega

/-- The slot's entry is not a directory. -/
theorem Touches.slot_not_directory
    (hentry : EntryOf v 0 slot ent) : ¬ ent.IsDirectory := by
  obtain ⟨hvis, rfl, _⟩ := entryOf_root_iff.mp hentry
  exact h.not_directory slot hvis (h.slot_spec.found_of_visible hvis).2

/-- No directory of the tree starts at a touched cluster. -/
theorem Touches.reach_untouched
    (hd : ReachDir v d) : d ∈ untouched old new := by
  cases hd with
  | root =>
      exact h.zero_untouched
  | @sub d e ent hreach hentry hdir =>
      refine h.first_untouched ⟨hreach, hentry⟩ ?_
      rintro ⟨rfl, rfl⟩
      exact h.slot_not_directory hentry hdir

end Calls

end Fat16
end RebornOS
