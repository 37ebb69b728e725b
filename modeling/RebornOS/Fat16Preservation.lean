import RebornOS.Fat16Paths

/-!
# Writing one file leaves the others alone

On an intact volume `fat16_write_file` changes one entry of the directory tree,
the written one.  All other entries stay where they are, with their chains, so
the volume is intact again, and complete if it was; and a path that leads to another
entry, or to none, opens and reads as before.
-/

namespace RebornOS
namespace Fat16

open ByteStore TableChain Fallible

variable {v v' : Volume} {name : CString} {data : Nat → UInt8} {d e size slot : Nat}
  {new old : List Nat} {ent : Dirent}

/-- A finished call of `fat16_write_file` on an intact volume. -/
structure IntactCall
    (v v' : Volume) (name : CString) (data : Nat → UInt8) (size slot : Nat)
    (old new : List Nat) : Prop extends Touches v name slot old new where
  not_deleted : (format83 name.bytes).headD 0 ≠ 0xE5
  effect : WriteEffect v v' name data size slot (cleared v.fat old) new

section Tree

variable (h : IntactCall v v' name data size slot old new)
include h

/-- The volumes before and after agree on the untouched clusters. -/
theorem IntactCall.agree : AgreeOnClusters v v' (untouched old new) := by
  refine ⟨h.effect.geom, ?_, ?_, fun c hc hnode => h.closed hc hnode⟩
  · intro c hc _
    rw [h.effect.links c hc.2, cleared, if_neg hc.1]
  · intro c hc hlow hhigh
    exact h.effect.cluster_frame c hlow hhigh hc.2

/-- The visible root entries but the written one. -/
theorem IntactCall.visible_iff
    (he : e ≠ slot) :
    Visible (rootBytes v') v.geom.rootDirEntryCount e ↔
      Visible (rootBytes v) v.geom.rootDirEntryCount e :=
  h.effect.rootWritten.visible_iff h.intact.toWellFormed he

/-- The entries of a directory outside the written one. -/
theorem IntactCall.entryOf_iff
    (hd : d ∈ untouched old new) (hne : (d, e) ≠ (0, slot)) :
    EntryOf v' d e ent ↔ EntryOf v d e ent := by
  by_cases hroot : d = 0
  · subst hroot
    have hslot : e ≠ slot := fun heq => hne (by rw [heq])
    rw [entryOf_root_iff, entryOf_root_iff, h.effect.geom, h.visible_iff hslot]
    constructor
    · rintro ⟨hvis, hent, hdot⟩
      exact ⟨hvis, h.effect.rootWritten.readDirent_other hvis.lt hslot ▸ hent, hdot⟩
    · rintro ⟨hvis, hent, hdot⟩
      exact ⟨hvis, (h.effect.rootWritten.readDirent_other hvis.lt hslot).trans hent, hdot⟩
  · exact ⟨h.agree.symm.entryOf hd hroot, h.agree.entryOf hd hroot⟩

/-- The directories that can be reached are the same. -/
theorem IntactCall.reach_of_before
    (hd : ReachDir v d) : ReachDir v' d := by
  induction hd with
  | root =>
      exact ReachDir.root
  | @sub d e ent hreach hentry hdir ih =>
      have hne : (d, e) ≠ (0, slot) := by
        rintro ⟨rfl, rfl⟩
        exact h.slot_not_directory hentry hdir
      exact ReachDir.sub ih
        ((h.entryOf_iff (h.reach_untouched hreach) hne).mpr hentry) hdir

theorem IntactCall.reach_of_after
    (hd : ReachDir v' d) : ReachDir v d := by
  induction hd with
  | root =>
      exact ReachDir.root
  | @sub d e ent _ hentry hdir ih =>
      have hne : (d, e) ≠ (0, slot) := by
        rintro ⟨rfl, rfl⟩
        obtain ⟨_, rfl, _⟩ := entryOf_root_iff.mp hentry
        exact h.effect.rootWritten.slot_not_directory hdir
      exact ReachDir.sub ih
        ((h.entryOf_iff (h.reach_untouched ih) hne).mp hentry) hdir

/-- All entries of the tree but the written one stay. -/
theorem IntactCall.treeEntry_iff
    (hne : (d, e) ≠ (0, slot)) : TreeEntry v' d e ent ↔ TreeEntry v d e ent := by
  constructor
  · rintro ⟨hreach, hentry⟩
    have hbefore := h.reach_of_after hreach
    exact ⟨hbefore, (h.entryOf_iff (h.reach_untouched hbefore) hne).mp hentry⟩
  · rintro ⟨hreach, hentry⟩
    exact ⟨h.reach_of_before hreach,
      (h.entryOf_iff (h.reach_untouched hreach) hne).mpr hentry⟩

/-- The written entry is an entry of the tree. -/
theorem IntactCall.treeEntry_slot :
    TreeEntry v' 0 slot (readDirent (rootBytes v') slot) := by
  have hname : (readDirent (rootBytes v') slot).name = format83 name.bytes := by
    rw [h.effect.rootWritten.readDirent_slot]
  refine treeEntry_of_root ?_ hname
  rw [h.effect.geom]
  exact h.effect.rootWritten.visible_slot h.not_deleted

end Tree

section Owners

variable {c : Nat}

variable (h : IntactCall v v' name data size slot old new)
include h

/-- Afterwards the written entry owns the new clusters. -/
theorem IntactCall.owns_slot_after : Owns v' (0, slot) c ↔ c ∈ new := by
  have hfirst := h.effect.firstCluster_slot h.small
  constructor
  · rintro ⟨ent, cs, htree, hchain, hc⟩
    obtain rfl : ent = readDirent (rootBytes v') slot :=
      EntryOf.unique htree.entry h.treeEntry_slot.entry
    rw [h.effect.geom, hfirst] at hchain
    cases hnew : new with
    | nil =>
        rw [hnew] at hchain
        cases cs with
        | nil =>
            cases hc
        | cons b cs =>
            obtain ⟨hb, hnode, _⟩ := hchain
            have hlow := hnode.1
            simp only [List.headD_nil] at hb
            omega
    | cons b bs =>
        have hne : new ≠ [] := by
          rw [hnew]
          simp
        rw [← hnew, ← hchain.unique (isCluster_not_stop h.small) (h.effect.chain hne)]
        exact hc
  · intro hc
    have hne : new ≠ [] := List.ne_nil_of_mem hc
    refine ⟨_, new, h.treeEntry_slot, ?_, hc⟩
    rw [h.effect.geom, hfirst]
    exact h.effect.chain hne

/-- All other entries own what they owned. -/
theorem IntactCall.owns_other_iff
    {p : Nat × Nat} (hp : p ≠ (0, slot)) : Owns v' p c ↔ Owns v p c := by
  obtain ⟨d, e⟩ := p
  constructor
  · rintro ⟨ent, cs, htree, hchain, hc⟩
    have hbefore := (h.treeEntry_iff hp).mp htree
    have hfirst := h.first_untouched hbefore hp
    rw [h.effect.geom] at hchain
    refine ⟨ent, cs, hbefore, ?_, hc⟩
    have hsame := (h.agree.symm.chain hfirst
      (by rw [h.effect.geom]; exact hchain)).1
    rwa [h.effect.geom] at hsame
  · rintro ⟨ent, cs, htree, hchain, hc⟩
    have hfirst := h.first_untouched htree hp
    refine ⟨ent, cs, (h.treeEntry_iff hp).mpr htree, ?_, hc⟩
    rw [h.effect.geom]
    exact (h.agree.chain hfirst hchain).1

/-- Afterwards every cluster in use has exactly one owner again. -/
theorem IntactCall.owned_after
    (hc : IsCluster v.geom c) (hused : v'.fat c ≠ freeMark) (hgood : v'.fat c ≠ badMark) :
    ∃! p, Owns v' p c := by
  by_cases hnew : c ∈ new
  · refine ⟨(0, slot), h.owns_slot_after.mpr hnew, ?_⟩
    intro p hp
    by_contra hne
    exact (h.untouched_of_owns hne ((h.owns_other_iff hne).mp hp)).2 hnew
  · have hlink := h.effect.links c hnew
    have hold : c ∉ old := by
      intro hold
      rw [hlink, cleared, if_pos hold] at hused
      exact hused rfl
    rw [hlink, cleared, if_neg hold] at hused hgood
    obtain ⟨p, hp, hunique⟩ := h.intact.owned c hc hused hgood
    have hpne : p ≠ (0, slot) := by
      rintro rfl
      exact hold (h.owns_slot_iff.mp hp)
    refine ⟨p, (h.owns_other_iff hpne).mpr hp, ?_⟩
    intro q hq
    have hqne : q ≠ (0, slot) := by
      rintro rfl
      exact hnew (h.owns_slot_after.mp hq)
    exact hunique q ((h.owns_other_iff hqne).mp hq)

/-- The names in the root directory are still unique. -/
theorem IntactCall.unique_names_after
    {e' : Nat} (hvis : Visible (rootBytes v') v.geom.rootDirEntryCount e)
    (hvis' : Visible (rootBytes v') v.geom.rootDirEntryCount e')
    (hname : (readDirent (rootBytes v') e).name =
      (readDirent (rootBytes v') e').name) : e = e' := by
  -- no other visible entry has the written name
  have hother : ∀ i, i ≠ slot →
      Visible (rootBytes v') v.geom.rootDirEntryCount i →
      (readDirent (rootBytes v') i).name ≠
        (readDirent (rootBytes v') slot).name := by
    intro i hi hvi heq
    have hbefore := (h.visible_iff hi).mp hvi
    rw [h.effect.rootWritten.readDirent_other hvi.lt hi,
      h.effect.rootWritten.readDirent_slot] at heq
    rcases h.effect.slot_spec.kind with ⟨_, hslot, hsame⟩ | ⟨hnone, _⟩
    · exact hi (h.intact.unique_names i slot hbefore hslot (heq.trans hsame.symm))
    · rw [scanSlots_fst] at hnone
      exact findFrom_zero_eq_none.mp hnone i hbefore heq
  by_cases he : e = slot
  · by_contra hne
    subst he
    exact hother e' (fun heq => hne heq.symm) hvis' hname.symm
  · by_cases he' : e' = slot
    · subst he'
      exact absurd hname (hother e he hvis)
    · rw [h.effect.rootWritten.readDirent_other hvis.lt he,
        h.effect.rootWritten.readDirent_other hvis'.lt he'] at hname
      exact h.intact.unique_names e e' ((h.visible_iff he).mp hvis)
        ((h.visible_iff he').mp hvis') hname

/-- The root directory still ends with its first unused slot. -/
theorem IntactCall.zero_tail_after
    {e' : Nat} (hzero : firstByte (rootBytes v') e = 0) (hlt : e < e')
    (hcount : e' < v.geom.rootDirEntryCount) : firstByte (rootBytes v') e' = 0 := by
  have hslot : e ≠ slot := by
    rintro rfl
    rw [h.effect.rootWritten.firstByte_slot] at hzero
    exact format83_head_ne_zero name hzero
  rw [h.effect.rootWritten.firstByte_other (by omega) hslot] at hzero
  have hslot' : e' ≠ slot := by
    rintro rfl
    exact h.effect.slot_spec.before e hlt hzero
  rw [h.effect.rootWritten.firstByte_other hcount hslot']
  exact h.intact.zero_tail e e' hzero hlt hcount

/-- No entry starts at a free cluster. -/
theorem IntactCall.started_after
    (htree : TreeEntry v' d e ent) (hc : IsCluster v.geom ent.firstCluster) :
    v'.fat ent.firstCluster ≠ freeMark := by
  by_cases hne : (d, e) = (0, slot)
  · obtain ⟨rfl, rfl⟩ := Prod.mk.injEq _ _ _ _ ▸ hne
    obtain rfl := EntryOf.unique htree.entry h.treeEntry_slot.entry
    rw [h.effect.firstCluster_slot h.small] at hc ⊢
    cases hnew : new with
    | nil =>
        rw [hnew] at hc
        have hlow := hc.1
        simp at hlow
    | cons b bs =>
        have hmem : b ∈ new := by
          rw [hnew]
          exact List.mem_cons_self
        exact (h.owns_slot_after.mpr hmem).used
  · have hbefore := (h.treeEntry_iff hne).mp htree
    have hfirst := h.first_untouched hbefore hne
    rw [h.agree.links _ hfirst hc]
    exact h.intact.started d e ent hbefore hc

/-- After the call the volume is intact again. -/
theorem IntactCall.intact_after : Intact v' := by
  refine ⟨⟨h.effect.synced h.intact.synced, ?_, ?_, ?_⟩, ?_⟩
  · intro c hc hused hgood
    rw [h.effect.geom] at hc
    exact h.owned_after hc hused hgood
  · intro e e' hvis hvis' hname
    rw [h.effect.geom] at hvis hvis'
    exact h.unique_names_after hvis hvis' hname
  · intro e e' hzero hlt hcount
    rw [h.effect.geom] at hcount
    exact h.zero_tail_after hzero hlt hcount
  · intro d e ent htree hc
    rw [h.effect.geom] at hc
    exact h.started_after htree hc

/-- And complete, if it was. -/
theorem IntactCall.complete_after
    (hv : Complete v) : Complete v' := by
  refine ⟨h.intact_after, ?_⟩
  intro d e ent htree
  by_cases hne : (d, e) = (0, slot)
  · obtain ⟨rfl, rfl⟩ := Prod.mk.injEq _ _ _ _ ▸ hne
    obtain rfl := EntryOf.unique htree.entry h.treeEntry_slot.entry
    rw [h.effect.firstCluster_slot h.small, h.effect.geom]
    by_cases hnew : new = []
    · left
      simp [hnew]
    · exact Or.inr ⟨new, h.effect.chain hnew⟩
  · have hbefore := (h.treeEntry_iff hne).mp htree
    refine (hv.chains d e ent hbefore).imp_right ?_
    rintro ⟨cs, hchain⟩
    rw [h.effect.geom]
    exact ⟨cs, (h.agree.chain (h.first_untouched hbefore hne) hchain).1⟩

end Owners

section Paths

variable {serves : Nat → Bool}

theorem IntactCall.pathFrame
    (h : IntactCall v v' name data size slot old new) :
    PathFrame v v' name (untouched old new) :=
  ⟨h.agree, fun _ hd => h.reach_untouched hd,
    h.effect.rootWritten.lookup h.intact.toWellFormed h.not_directory⟩

/-- Opening and reading a path that does not lead to the written entry. -/
theorem IntactCall.openRead_eq
    (h : IntactCall v v' name data size slot old new)
    {path : CString} (buf : Store) (m : Nat)
    (hbefore : ¬ ResolvesTo serves v path 0 slot)
    (hafter : ¬ ResolvesTo serves v' path 0 slot) :
    openRead serves v' path buf m = openRead serves v path buf m := by
  refine h.pathFrame.openRead_eq buf m ?_ ?_
  · intro leaf hparent
    by_cases hroot : kmallocOk serves v.geom.rootDirBytes
    · refine h.effect.rootWritten.findEntryInDir_other h.intact.toWellFormed ?_
      intro hwant
      have hparent' : resolveParentDir serves v' path.bytes =
          .ok (some (0, leaf)) :=
        (h.pathFrame.resolveFrom_eq ReachDir.root).trans hparent
      refine hafter (resolvesTo_of_lookup hparent'
        (r := (rootBytes v', v'.geom.rootDirEntryCount)) ?_ ?_)
      · rw [readDirectory, if_pos rfl, readRootDir_ok (by rwa [h.effect.geom])]
        rfl
      · rw [hwant, h.effect.geom]
        exact h.effect.rootWritten.find_slot h.not_deleted
    · rw [findEntryInDir_root_panic _ hroot,
        findEntryInDir_root_panic _ (by rwa [h.effect.geom])]
  · intro file hopen
    obtain ⟨d, e, ent, hresolve, htree, rfl⟩ := entry_of_open hopen
    refine h.first_untouched htree ?_
    rintro ⟨rfl, rfl⟩
    exact hbefore hresolve

/-- What is known about a call that returned. -/
theorem intactCall_of_ok
    (hsmall : v.geom.fatCacheEntries ≤ 0xFFF0) (hv : Intact v)
    (hdir : NoDirectory v (format83 name.bytes))
    (hdel : (format83 name.bytes).headD 0 ≠ 0xE5)
    (hwrite : fat16WriteFile serves v name data size = .ok v') :
    ∃ slot old new, chooseSlot v name = some slot ∧
      IntactCall v v' name data size slot old new := by
  have hentries : v.geom.fatCacheEntries ≤ eocMin := le_trans hsmall (by decide)
  obtain ⟨slot, fat, new, hslot, heffect⟩ := writeEffect_of_ok hentries hwrite
  obtain ⟨old, hold, rfl⟩ := hv.exists_cleared hsmall heffect.freed
  exact ⟨slot, old, new, hslot,
    ⟨hsmall, hv, hdir, heffect.slot_spec, hold, heffect.clusters⟩, hdel, heffect⟩

/--
**Other files.**  Writing a file to a complete volume, under a name that is not
a directory's, leaves the volume complete; and every path that resolves to the
written entry neither before nor after the call opens and reads as before.
-/
theorem write_preserves_others
    (hsmall : v.geom.fatCacheEntries ≤ 0xFFF0) (hv : Complete v)
    (hdir : ∀ e, Visible (rootBytes v) v.geom.rootDirEntryCount e →
      (readDirent (rootBytes v) e).name = format83 name.bytes →
      ¬ (readDirent (rootBytes v) e).IsDirectory)
    (hdel : (format83 name.bytes).headD 0 ≠ 0xE5)
    (hwrite : fat16WriteFile serves v name data size = .ok v') :
    Complete v' ∧
      ∃ slot, chooseSlot v name = some slot ∧
        ∀ (serves : Nat → Bool) (path : CString) (buf : Store) (m : Nat),
          ¬ ResolvesTo serves v path 0 slot →
          ¬ ResolvesTo serves v' path 0 slot →
          openRead serves v' path buf m = openRead serves v path buf m := by
  obtain ⟨slot, old, new, hslot, hcall⟩ :=
    intactCall_of_ok hsmall hv.toIntact hdir hdel hwrite
  refine ⟨hcall.complete_after hv, slot, hslot, ?_⟩
  intro serves path buf m hbefore hafter
  exact hcall.openRead_eq buf m hbefore hafter

end Paths

section Instances

/-- A volume without files is intact. -/
theorem intact_of_empty
    (hsync : Synced v) (hfree : ∀ c, IsCluster v.geom c → v.fat c = freeMark)
    (hroot : ∀ e, e < v.geom.rootDirEntryCount → firstByte (rootBytes v) e = 0) :
    Intact v := by
  have hempty : firstByte (rootBytes v) 0 = 0 :=
    hroot 0 v.geom.rootDirEntryCount_pos
  refine ⟨⟨hsync, ?_, ?_, ?_⟩, ?_⟩
  · intro c hc hused
    exact absurd (hfree c hc) hused
  · intro e e' hvis
    exact absurd hempty (hvis.not_ended 0 (Nat.zero_le e))
  · intro e e' _ _ hlt
    exact hroot e' hlt
  · intro d e ent htree
    exact absurd htree (no_treeEntry_of_empty hempty)

theorem intact_formatted : Intact formattedVolume := by
  have hsync : Synced formattedVolume :=
    synced_diskFat formattedGeometry ⟨formattedDisk, []⟩
  have hfree : ∀ c, c < 256 → diskFat formattedGeometry formattedDisk c = 0 := by
    decide +kernel
  have hroot : ∀ e, e < 16 → firstByte (rootBytes formattedVolume) e = 0 := by
    decide
  exact intact_of_empty hsync (fun c hc => hfree c hc.2) hroot

theorem complete_formatted : Complete formattedVolume := by
  have hempty : firstByte (rootBytes formattedVolume) 0 = 0 := by decide
  exact ⟨intact_formatted, fun d e ent htree =>
    absurd htree (no_treeEntry_of_empty hempty)⟩

/-- `B`. -/
def otherName : CString := ⟨[0x42], by decide⟩

/-- No entry has a name for which the search fails. -/
theorem not_directory_of_none
    (hnone : (scanSlots v name).1 = none)
    (hvis : Visible (rootBytes v) v.geom.rootDirEntryCount e)
    (hname : (readDirent (rootBytes v) e).name = format83 name.bytes) :
    ¬ (readDirent (rootBytes v) e).IsDirectory := by
  rw [scanSlots_fst] at hnone
  exact absurd hname (findFrom_zero_eq_none.mp hnone e hvis)

/--
Two files on the formatted volume: the second call keeps the first file, which
is there and reads as one byte.
-/
theorem write_preserves_others_formatted :
    ∃ v₁ v₂,
      fat16WriteFile (fun _ => true) formattedVolume sampleName (fun _ => 0x11) 1 =
          .ok v₁ ∧
        fat16WriteFile (fun _ => true) v₁ otherName (fun _ => 0x22) 1 = .ok v₂ ∧
        Complete v₂ ∧
        ResolvesTo (fun _ => true) v₁ sampleName 0 0 ∧
        openRead (fun _ => true) v₂ sampleName (fun _ => 0) 1 =
          openRead (fun _ => true) v₁ sampleName (fun _ => 0) 1 := by
  have heval :
      (fat16WriteFile (fun _ => true) formattedVolume sampleName (fun _ => 0x11)
          1).toOption.any (fun v₁ =>
        (fat16WriteFile (fun _ => true) v₁ otherName (fun _ => 0x22)
            1).toOption.any (fun v₂ =>
          (scanSlots v₁ otherName).1 = none ∧ chooseSlot v₁ otherName = some 1 ∧
            (resolveEntry (fun _ => true) v₁ sampleName).toOption =
              some (some (0, 0)) ∧
            (resolveEntry (fun _ => true) v₂ sampleName).toOption =
              some (some (0, 0)) ∧
            v₁.geom.fatCacheEntries = 256)) = true := by
    decide
  obtain ⟨v₁, hfirst, hrest⟩ := any_toOption.mp heval
  obtain ⟨v₂, hsecond, hfacts⟩ := any_toOption.mp hrest
  simp only [decide_eq_true_eq, toOption_eq_some] at hfacts
  obtain ⟨hnone, hslot, hpath₁, hpath₂, hentries⟩ := hfacts
  have hnone₀ : (scanSlots formattedVolume sampleName).1 = none := by
    decide
  obtain ⟨hcomplete, _⟩ :=
    write_preserves_others (by decide) complete_formatted
      (fun _ => not_directory_of_none hnone₀) (by decide) hfirst
  obtain ⟨hcomplete₂, slot, hslot', hkeep⟩ :=
    write_preserves_others (by rw [hentries]; decide) hcomplete
      (fun _ => not_directory_of_none hnone) (by decide) hsecond
  rw [hslot, Option.some.injEq] at hslot'
  subst hslot'
  refine ⟨v₁, v₂, hfirst, hsecond, hcomplete₂, hpath₁, hkeep _ _ _ _ ?_ ?_⟩
  · rw [ResolvesTo, hpath₁]
    decide
  · rw [ResolvesTo, hpath₂]
    decide

/-- A file `A` of one byte whose first cluster, 2, is marked free. -/
def danglingDisk : Store :=
  fun i =>
    if i < 1024 then formattedDisk i
    else writeDirent (fun _ => 0) 0 (format83 [0x41]) 2 1 (i - 1024)

/-- The volume on this disk. -/
def danglingVolume : Volume :=
  ⟨formattedGeometry, diskFat formattedGeometry danglingDisk, ⟨danglingDisk, []⟩⟩

/-- `A`. -/
def danglingName : CString := ⟨[0x41], by decide⟩

theorem wellFormed_dangling : WellFormed danglingVolume := by
  have hsync : Synced danglingVolume :=
    synced_diskFat formattedGeometry ⟨danglingDisk, []⟩
  have hfree : ∀ c, c < 256 → diskFat formattedGeometry danglingDisk c = 0 := by
    decide +kernel
  have htail : ∀ e, e < 16 → e ≠ 0 →
      firstByte (rootBytes danglingVolume) e = 0 := by
    decide
  have hfirst : firstByte (rootBytes danglingVolume) 0 ≠ 0 := by
    decide
  have honly : ∀ e, Visible (rootBytes danglingVolume) 16 e → e = 0 := by
    intro e hvis
    by_contra hne
    exact hvis.not_ended e (le_refl e) (htail e hvis.lt hne)
  refine ⟨hsync, ?_, ?_, ?_⟩
  · intro c hc hused
    exact absurd (hfree c hc.2) hused
  · intro e e' hvis hvis' _
    rw [honly e hvis, honly e' hvis']
  · intro e e' hzero hlt hcount
    exact htail e' hcount (by omega)

/--
The free first cluster of `A` is allocated to `B`: well-formedness is lost, and
`A` reads as the data of `B`.
-/
theorem dangling_entry_overwritten :
    WellFormed danglingVolume ∧
      danglingVolume.geom.fatCacheEntries ≤ 0xFFF0 ∧
      (∀ e, Visible (rootBytes danglingVolume)
          danglingVolume.geom.rootDirEntryCount e →
        (readDirent (rootBytes danglingVolume) e).name =
          format83 otherName.bytes →
        ¬ (readDirent (rootBytes danglingVolume) e).IsDirectory) ∧
      (format83 otherName.bytes).headD 0 ≠ 0xE5 ∧
      ∃ v',
        fat16WriteFile (fun _ => true) danglingVolume otherName (fun _ => 0x42) 1 =
            .ok v' ∧
          chooseSlot danglingVolume otherName = some 1 ∧
          ¬ WellFormed v' ∧
          ¬ ResolvesTo (fun _ => true) danglingVolume danglingName 0 1 ∧
          ¬ ResolvesTo (fun _ => true) v' danglingName 0 1 ∧
          openRead (fun _ => true) v' danglingName (fun _ => 0) 1 ≠
            openRead (fun _ => true) danglingVolume danglingName (fun _ => 0) 1 := by
  have hnone : (scanSlots danglingVolume otherName).1 = none := by
    decide
  have hpath : (resolveEntry (fun _ => true) danglingVolume
      danglingName).toOption = some (some (0, 0)) := by
    decide
  have hbefore : (openRead (fun _ => true) danglingVolume danglingName
      (fun _ => 0) 1).toOption.bind (fun r => r.map (fun r => r.2 0)) =
        some 0 := by
    decide
  have heval :
      (fat16WriteFile (fun _ => true) danglingVolume otherName (fun _ => 0x42)
          1).toOption.any (fun v' =>
        v'.geom.fatCacheEntries = 256 ∧ v'.fat 2 = 0xFFFF ∧
          (readDirent (rootBytes v') 0).firstCluster = 2 ∧
          (readDirent (rootBytes v') 1).firstCluster = 2 ∧
          findFrom (rootBytes v') (format83 danglingName.bytes)
            v'.geom.rootDirEntryCount 0 = some 0 ∧
          findFrom (rootBytes v') (format83 otherName.bytes)
            v'.geom.rootDirEntryCount 0 = some 1 ∧
          (resolveEntry (fun _ => true) v' danglingName).toOption =
            some (some (0, 0)) ∧
          (openRead (fun _ => true) v' danglingName (fun _ => 0)
            1).toOption.bind (fun r => r.map (fun r => r.2 0)) =
              some 0x42) = true := by
    decide
  obtain ⟨v', hwrite, hfacts⟩ := any_toOption.mp heval
  simp only [decide_eq_true_eq] at hfacts
  obtain ⟨hentries, hlink, hA, hB, hfindA, hfindB, hpath', hafter⟩ := hfacts
  refine ⟨wellFormed_dangling, by decide,
    fun _ => not_directory_of_none hnone, by decide, v', hwrite,
    by decide, ?_, ?_, ?_, ?_⟩
  · intro hv
    -- both entries start at cluster 2
    have hnode : IsCluster v'.geom 2 := ⟨le_refl 2, by rw [hentries]; decide⟩
    have hchain : ChainAt v'.geom v'.fat 2 [2] := by
      refine ⟨rfl, hnode, ?_⟩
      show eocMin ≤ v'.fat 2
      rw [hlink]
      decide
    obtain ⟨hvisA, hnameA, _⟩ := findFrom_zero_eq_some.mp hfindA
    obtain ⟨hvisB, hnameB, _⟩ := findFrom_zero_eq_some.mp hfindB
    have howns : ∀ e, TreeEntry v' 0 e (readDirent (rootBytes v') e) →
        (readDirent (rootBytes v') e).firstCluster = 2 → Owns v' (0, e) 2 := by
      intro e htree hfirst
      exact ⟨_, [2], htree, by rw [hfirst]; exact hchain, List.mem_cons_self⟩
    have hsame := hv.owner_unique (by rw [hentries]; decide)
      (howns 0 (treeEntry_of_root hvisA hnameA) hA)
      (howns 1 (treeEntry_of_root hvisB hnameB) hB)
    exact absurd hsame (by decide)
  · rw [ResolvesTo, toOption_eq_some.mp hpath]
    decide
  · rw [ResolvesTo, toOption_eq_some.mp hpath']
    decide
  · intro hsame
    rw [hsame, hbefore] at hafter
    exact absurd hafter (by decide)

end Instances

end Fat16
end RebornOS
