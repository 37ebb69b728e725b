import RebornOS.Fat16Crash
import RebornOS.Fat16Preservation

/-!
# A crash during a write leaves the other files alone

Whenever the machine stops during a call of `fat16_write_file`, mounting the disk
gives a volume on which every other file opens and reads as before the call.
The links of a cluster that the call does not touch are the same in the old and
in the new FAT, so it does not matter how much of the FAT was written.
-/

namespace RebornOS
namespace Fat16

open ByteStore TableChain Fallible

variable {c d e size slot : Nat} {new old : List Nat} {disk : Store}
  {heap serves : Nat → Bool} {name path : CString} {v v' : Volume} {data : Nat → UInt8}

/-- The volume that mounting a disk with the geometry of `v` gives. -/
def remounted (v : Volume) (disk : Store) : Volume :=
  ⟨v.geom, diskFat v.geom disk, ⟨disk, []⟩⟩

@[simp] theorem remounted_geom
    (v : Volume) (disk : Store) : (remounted v disk).geom = v.geom := by
  rfl

@[simp] theorem remounted_disk
    (v : Volume) (disk : Store) : (remounted v disk).device.disk = disk := by
  rfl

/-- A disk on which a stopped call left the untouched clusters alone. -/
structure TornDisk
    (v : Volume) (name : CString) (slot : Nat) (old new : List Nat)
    (disk : Store) : Prop where
  before_fat : ∀ x, x < v.geom.fatAddr → disk x = v.device.disk x
  links :
    ∀ c, c ∈ untouched old new → IsCluster v.geom c →
      diskFat v.geom disk c = v.fat c
  data :
    ∀ c, c ∈ untouched old new → 2 ≤ c → c < eocMin →
      ∀ j, j < v.geom.clusterSizeBytes →
        disk (v.geom.clusterAddr c + j) =
          v.device.disk (v.geom.clusterAddr c + j)
  root :
    (∀ i, i < v.geom.rootDirBytes →
        rootBytes (remounted v disk) i = rootBytes v i) ∨
      ∃ first size, RootWritten v (remounted v disk) name first size slot

section Disks

variable {j : Nat}

/-- A link whose two bytes are those of the old FAT. -/
theorem Touches.link_of_old
    (h : Touches v name slot old new) (hc : IsCluster v.geom c) (hbytes : ∀ i, i < 2 →
      disk (v.geom.fatAddr + (2 * c + i)) =
        v.device.disk (v.geom.fatAddr + (2 * c + i))) :
    diskFat v.geom disk c = v.fat c := by
  rw [h.intact.synced c hc.2]
  refine readLE_congr ?_
  intro x hx hx'
  change v.geom.fatAddr + 2 * c ≤ x at hx
  change x < v.geom.fatAddr + 2 * c + 2 at hx'
  have hbyte := hbytes (x - (v.geom.fatAddr + 2 * c)) (by omega)
  rwa [show v.geom.fatAddr + (2 * c + (x - (v.geom.fatAddr + 2 * c))) = x by omega]
    at hbyte

/-- A stop before the root directory's sector. -/
theorem Touches.tornDisk_data
    (h : Touches v name slot old new) (htorn : DataTorn v new disk) :
    TornDisk v name slot old new disk := by
  have hbefore := v.geom.fat_before_root
  have hdata := v.geom.dataAddr_eq
  have hsize := v.geom.fatCacheEntries_bytes
  have hframe : ∀ x, x < v.geom.dataAddr → disk x = v.device.disk x :=
    fun x => htorn.before_data (fun c hc => (h.allocated c hc).1.2)
  refine ⟨fun x hx => hframe x (by omega), ?_, ?_, Or.inl ?_⟩
  · intro c _ hnode
    have hlt := hnode.2
    exact h.link_of_old hnode (fun i hi => hframe _ (by omega))
  · intro c hc hlow hhigh i hi
    refine htorn _ ?_
    intro d hd
    have hne : c ≠ d := by
      rintro rfl
      exact hc.2 hd
    have hd' := (h.allocated d hd).1
    have hdisj := v.geom.clusterAddr_disjoint hlow hhigh hd'.1
      (lt_of_lt_of_le hd'.2 h.small) hne
    omega
  · intro i hi
    exact hframe _ (by rw [hdata]; exact Nat.add_lt_add_left hi _)

/-- With a torn FAT the new entry is on the disk. -/
theorem FatTorn.rootWritten
    {fat : Nat → Nat}
    (h : FatTorn v v' j disk)
    (heffect : WriteEffect v v' name data size slot fat new) :
    RootWritten v (remounted v disk) name (new.headD 0) size slot := by
  have hbefore := v.geom.fat_before_root
  refine ⟨rfl, heffect.slot_spec, ?_⟩
  intro i hi
  show disk (v.geom.rootAddr + i) = _
  rw [h.outside _ (Or.inr (by omega)), ← heffect.root i hi]
  unfold rootBytes
  rw [heffect.geom]
  rfl

/-- Its clusters are those of the finished call. -/
theorem FatTorn.cluster_eq
    (h : FatTorn v v' j disk) (hc : c < eocMin) (i : Nat) :
    disk (v.geom.clusterAddr c + i) =
      v'.device.disk (v.geom.clusterAddr c + i) := by
  have hbefore := v.geom.fat_before_root
  have hdata := v.geom.dataAddr_eq
  have hle := v.geom.dataAddr_le_clusterAddr hc
  exact h.outside _ (Or.inr (by omega))

/-- A stop after it, somewhere in the FAT. -/
theorem Touches.tornDisk_fat
    (h : Touches v name slot old new)
    (heffect : WriteEffect v v' name data size slot (cleared v.fat old) new)
    (htorn : FatTorn v v' j disk) : TornDisk v name slot old new disk := by
  have hsize := v.geom.fatCacheEntries_bytes
  refine ⟨?_, ?_, ?_, Or.inr ⟨new.headD 0, size, htorn.rootWritten heffect⟩⟩
  · intro x hx
    rw [htorn.outside x (Or.inl hx), heffect.before_fat x hx]
  · intro c hc hnode
    have hlt := hnode.2
    have hsame : v'.fat c = v.fat c := by
      rw [heffect.links c hc.2, cleared, if_neg hc.1]
    -- the two bytes of an entry lie in the same sector
    by_cases hnew : 2 * c < j * sectorSize
    · have hword : v'.fat c < 2 ^ 16 := by
        rw [hsame, h.intact.synced c hlt]
        exact readLE_lt _ _ 2
      rw [← hsame]
      refine readLE_fatImage ?_ hword
      intro i hi
      rw [Nat.add_assoc]
      show disk (v.geom.fatAddr + (2 * c + i)) = _
      rw [htorn.inside _ (by omega), if_pos (by unfold sectorSize at hnew ⊢; omega)]
    · refine h.link_of_old hnode ?_
      intro i hi
      rw [htorn.inside _ (by omega), if_neg (by omega)]
  · intro c hc hlow hhigh i hi
    rw [htorn.cluster_eq hhigh i, heffect.cluster_frame c hlow hhigh hc.2 i hi]

end Disks

section Reading

variable {w : Volume}

/-- Lookups in a root directory with the same bytes. -/
theorem findEntryInDir_root_agree
    (hgeom : w.geom = v.geom)
    (hbytes : ∀ i, i < v.geom.rootDirBytes → rootBytes w i = rootBytes v i)
    (want : List UInt8) :
    findEntryInDir serves w 0 want = findEntryInDir serves v 0 want := by
  by_cases hroot : kmallocOk serves v.geom.rootDirBytes
  · have hagree : AgreeOn (rootBytes v) (rootBytes w) 0
        (direntSize * v.geom.rootDirEntryCount) := by
      intro x _ hx
      have hin := v.geom.rootEntries_le
      exact hbytes x (by omega)
    rw [findEntryInDir_root hroot, findEntryInDir_root (by rwa [hgeom]), hgeom,
      lookup_congr want hagree]
  · rw [findEntryInDir_root_panic _ hroot, findEntryInDir_root_panic _ (by rwa [hgeom])]

/-- Mounting a disk whose boot sector is still there. -/
theorem fat16Init_remounted
    (hv : Mounted serves v) (hreserved : 0 < v.geom.reservedSectorCount)
    (hdisk : ∀ x, x < v.geom.fatAddr → disk x = v.device.disk x) :
    fat16Init serves disk = .ok (remounted v disk) := by
  obtain ⟨hboot, hserved, _⟩ := mounted_iff.mp hv
  refine fat16Init_of_boot (bootGeometry_congr hboot ?_) hserved
  intro x hx
  exact hdisk x (lt_of_lt_of_le hx (v.geom.boot_before_fat hreserved))

/-- What paths can see of a stopped call. -/
theorem TornDisk.pathFrame
    (h : TornDisk v name slot old new disk) (htouch : Touches v name slot old new) :
    PathFrame v (remounted v disk) name (untouched old new) := by
  refine ⟨⟨rfl, h.links, h.data, fun c hc hnode => htouch.closed hc hnode⟩,
    fun _ hd => htouch.reach_untouched hd, ?_⟩
  intro serves want
  rcases h.root with hsame | ⟨first, size, hroot⟩
  · exact Or.inl (findEntryInDir_root_agree (v := v) (w := remounted v disk) rfl hsame want)
  · exact hroot.lookup htouch.intact.toWellFormed htouch.not_directory serves want

/-- The last lookup of a path that resolves to an entry of the root. -/
theorem ResolvesTo.find_root
    {leaf : List UInt8} (h : ResolvesTo serves v path d e)
    (hparent : resolveParentDir serves v path.bytes = .ok (some (0, leaf))) :
    d = 0 ∧
      findFrom (rootBytes v) (format83 leaf) v.geom.rootDirEntryCount 0 =
        some e := by
  rw [ResolvesTo, resolveEntry, hparent] at h
  have hlookup : (readDirectory serves v 0 >>= fun r =>
      Except.ok ((findFrom r.1 (format83 leaf) r.2 0).map (fun e => (0, e)))) =
    .ok (some (d, e)) := h
  obtain ⟨r, hread, hfind⟩ := bind_eq_ok.mp hlookup
  rw [readDirectory, if_pos rfl] at hread
  obtain ⟨buf, hbuf, hr⟩ := bind_eq_ok.mp hread
  unfold readRootDir at hbuf
  split_ifs at hbuf
  cases hbuf
  cases hr
  simp only [Except.ok.injEq, Option.map_eq_some_iff, Prod.mk.injEq] at hfind
  obtain ⟨i, hfound, hd, rfl⟩ := hfind
  exact ⟨hd.symm, hfound⟩

/-- Every file but the written one opens and reads as before. -/
theorem TornDisk.openRead_eq
    (h : TornDisk v name slot old new disk) (htouch : Touches v name slot old new)
    (hpath : ResolvesTo serves v path d e)
    (hother : ¬ (d = 0 ∧ (readDirent (rootBytes v) e).name = format83 name.bytes))
    (buf : Store) (m : Nat) :
    openRead serves (remounted v disk) path buf m =
      openRead serves v path buf m := by
  refine (h.pathFrame htouch).openRead_eq buf m ?_ ?_
  · intro leaf hparent
    obtain ⟨hd, hfind⟩ := hpath.find_root hparent
    obtain ⟨_, hname, _⟩ := findFrom_zero_eq_some.mp hfind
    rcases h.root with hsame | ⟨first, size, hroot⟩
    · exact findEntryInDir_root_agree (v := v) (w := remounted v disk) rfl hsame _
    · refine hroot.findEntryInDir_other htouch.intact.toWellFormed ?_
      intro hwant
      exact hother ⟨hd, hname.trans hwant⟩
  · intro file hopen
    obtain ⟨d', e', ent, hpath', htree, rfl⟩ := entry_of_open hopen
    have hsame : (d', e') = (d, e) :=
      Option.some.inj (Except.ok.inj (hpath'.symm.trans hpath))
    obtain ⟨rfl, rfl⟩ := Prod.mk.injEq _ _ _ _ ▸ hsame
    refine htouch.first_untouched htree ?_
    rintro ⟨rfl, rfl⟩
    have hentry : EntryOf v 0 slot ent := htree.entry
    obtain ⟨hvis, _, _⟩ := entryOf_root_iff.mp hentry
    exact hother ⟨rfl, (htouch.slot_spec.found_of_visible hvis).2⟩

/-- The disk as it was: everything reads as before. -/
theorem openRead_remounted_same
    (hsync : Synced v) (path : CString) (buf : Store) (m : Nat) :
    openRead serves (remounted v v.device.disk) path buf m =
      openRead serves v path buf m := by
  have hroot : ∀ serves want,
      findEntryInDir serves (remounted v v.device.disk) 0 want =
        findEntryInDir serves v 0 want :=
    fun _ want => findEntryInDir_root_agree rfl (fun _ _ => rfl) want
  have hframe : PathFrame v (remounted v v.device.disk) ⟨[], by simp⟩ Set.univ :=
    ⟨⟨rfl, fun c _ hc => (hsync c hc.2).symm, fun _ _ _ _ _ _ => rfl,
        fun _ _ _ => Set.mem_univ _⟩,
      fun _ _ => Set.mem_univ _, fun serves want => Or.inl (hroot serves want)⟩
  exact hframe.openRead_eq buf m (fun _ _ => hroot serves _)
    (fun _ _ => Set.mem_univ _)

end Reading

/--
A mounted, intact volume on which all entries of the FAT are data clusters.  The
boot sector is a reserved sector, so it is not part of the FAT.
-/
structure IntactVolume (serves : Nat → Bool) (v : Volume) : Prop where
  mounted : Mounted serves v
  reserved : 0 < v.geom.reservedSectorCount
  indices : v.geom.fatCacheEntries ≤ 0xFFF0
  intact : Intact v

/-- Such a volume on which every chain ends inside the FAT. -/
structure CompleteVolume (serves : Nat → Bool) (v : Volume) : Prop
    extends IntactVolume serves v where
  complete : Complete v

section Crashes

/-- A call that returns keeps the volume mounted and intact. -/
theorem IntactVolume.after_write
    (hv : IntactVolume serves v)
    (hdir : NoDirectory v (format83 name.bytes))
    (hdel : (format83 name.bytes).headD 0 ≠ 0xE5)
    (hwrite : fat16WriteFile heap v name data size = .ok v') :
    IntactVolume serves v' := by
  obtain ⟨slot, old, new, _, hcall⟩ :=
    intactCall_of_ok hv.indices hv.intact hdir hdel hwrite
  have hgeom := hcall.effect.geom
  exact ⟨hcall.effect.mounted hv.reserved hv.mounted, hgeom ▸ hv.reserved,
    hgeom ▸ hv.indices, hcall.intact_after⟩

theorem CompleteVolume.after_write
    (hv : CompleteVolume serves v)
    (hdir : NoDirectory v (format83 name.bytes))
    (hdel : (format83 name.bytes).headD 0 ≠ 0xE5)
    (hwrite : fat16WriteFile heap v name data size = .ok v') :
    CompleteVolume serves v' := by
  obtain ⟨slot, old, new, _, hcall⟩ :=
    intactCall_of_ok hv.indices hv.intact hdir hdel hwrite
  exact ⟨hv.toIntactVolume.after_write hdir hdel hwrite,
    hcall.complete_after hv.complete⟩

/-- The disk when a call stops is untouched, or torn around the written file. -/
theorem IntactVolume.crash_cases
    (hv : IntactVolume serves v)
    (hdir : NoDirectory v (format83 name.bytes))
    (heap : Nat → Bool) (data : Nat → UInt8) (size k : Nat) :
    crashImage heap v name data size k = v.device.disk ∨
      ∃ slot old new, Touches v name slot old new ∧
        TornDisk v name slot old new (crashImage heap v name data size k) := by
  have hsmall : v.geom.fatCacheEntries ≤ eocMin :=
    le_trans hv.indices (by decide)
  rcases crashImage_cases heap name data size k hsmall with
    hsame | ⟨slot, fat, new, hslot, hfreed, hnew, htorn⟩ |
    ⟨v', slot, fat, new, j, hslot, heffect, htorn⟩
  · exact Or.inl hsame
  · right
    obtain ⟨old, hold, rfl⟩ := hv.intact.exists_cleared hv.indices hfreed
    have htouch : Touches v name slot old new :=
      ⟨hv.indices, hv.intact, hdir, slotSpec_of_chooseSlot hslot, hold, hnew⟩
    exact ⟨slot, old, new, htouch, htouch.tornDisk_data htorn⟩
  · right
    obtain ⟨old, hold, rfl⟩ := hv.intact.exists_cleared hv.indices heffect.freed
    have htouch : Touches v name slot old new :=
      ⟨hv.indices, hv.intact, hdir, heffect.slot_spec, hold, heffect.clusters⟩
    exact ⟨slot, old, new, htouch, htouch.tornDisk_fat heffect htorn⟩

/--
**Crash isolation.**  On a complete volume, stop a call of `fat16_write_file` after any
number of its sector writes.  The disk can be mounted again, and every path to an entry
other than the written one opens and reads as before the call.
-/
theorem crash_preserves_others
    (hv : CompleteVolume serves v)
    (hdir : ∀ e, Visible (rootBytes v) v.geom.rootDirEntryCount e →
      (readDirent (rootBytes v) e).name = format83 name.bytes →
      ¬ (readDirent (rootBytes v) e).IsDirectory)
    (heap : Nat → Bool) (data : Nat → UInt8) (size k : Nat) :
    ∃ w,
      fat16Init serves (crashImage heap v name data size k) = .ok w ∧
        ∀ (path : CString) (d e : Nat),
          ResolvesTo serves v path d e →
          ¬ (d = 0 ∧
            (readDirent (rootBytes v) e).name = format83 name.bytes) →
          ∀ (buf : Store) (m : Nat),
            openRead serves w path buf m = openRead serves v path buf m := by
  refine ⟨remounted v (crashImage heap v name data size k), ?_⟩
  rcases hv.toIntactVolume.crash_cases hdir heap data size k with
    hsame | ⟨slot, old, new, htouch, htorn⟩
  · rw [hsame]
    refine ⟨fat16Init_remounted hv.mounted hv.reserved (fun _ _ => rfl), ?_⟩
    intro path d e _ _ buf m
    exact openRead_remounted_same hv.intact.synced path buf m
  · refine ⟨fat16Init_remounted hv.mounted hv.reserved htorn.before_fat, ?_⟩
    intro path d e hpath hother buf m
    exact htorn.openRead_eq htouch hpath hother buf m

end Crashes

section Instances

theorem intactVolume_formatted : IntactVolume (fun _ => true) formattedVolume :=
  ⟨soundVolume_formatted.mounted, by decide, by decide, intact_formatted⟩

theorem completeVolume_formatted : CompleteVolume (fun _ => true) formattedVolume :=
  ⟨intactVolume_formatted, complete_formatted⟩

/--
One file of one byte; the machine stops when the second file's data and entry
are on the disk, but not its FAT.
-/
theorem crash_preserves_others_formatted :
    ∃ v w,
      fat16WriteFile (fun _ => true) formattedVolume sampleName (fun _ => 0x11) 1 =
          .ok v ∧
        fat16Init (fun _ => true)
            (crashImage (fun _ => true) v otherName (fun _ => 0x22) 1 2) = .ok w ∧
        ResolvesTo (fun _ => true) v sampleName 0 0 ∧
        openRead (fun _ => true) w sampleName (fun _ => 0) 1 =
          openRead (fun _ => true) v sampleName (fun _ => 0) 1 := by
  have heval :
      (fat16WriteFile (fun _ => true) formattedVolume sampleName (fun _ => 0x11)
          1).toOption.any (fun v =>
        (scanSlots v otherName).1 = none ∧
          (resolveEntry (fun _ => true) v sampleName).toOption =
            some (some (0, 0)) ∧
          (readDirent (rootBytes v) 0).name = format83 sampleName.bytes) = true := by
    decide
  obtain ⟨v, hwrite, hfacts⟩ := any_toOption.mp heval
  simp only [decide_eq_true_eq, toOption_eq_some] at hfacts
  obtain ⟨hnone, hpath, hname⟩ := hfacts
  have hnone₀ : (scanSlots formattedVolume sampleName).1 = none := by
    decide
  have hv := completeVolume_formatted.after_write
    (fun _ => not_directory_of_none hnone₀) (by decide) hwrite
  obtain ⟨w, hinit, hkeep⟩ :=
    crash_preserves_others hv (fun _ => not_directory_of_none hnone)
      (fun _ => true) (fun _ => 0x22) 1 2
  refine ⟨v, w, hwrite, hinit, hpath, hkeep sampleName 0 0 hpath ?_ _ _⟩
  rw [hname]
  decide

/--
On the volume with the file `A` at a free cluster the first sector of `B` is written to
that cluster: whatever comes then, `A` reads as the data of `B`.
-/
theorem dangling_entry_torn :
    WellFormed danglingVolume ∧
      fat16Init (fun _ => true) danglingDisk = .ok danglingVolume ∧
      0 < danglingVolume.geom.reservedSectorCount ∧
      danglingVolume.geom.fatCacheEntries ≤ 0xFFF0 ∧
      (∀ e, Visible (rootBytes danglingVolume)
          danglingVolume.geom.rootDirEntryCount e →
        (readDirent (rootBytes danglingVolume) e).name = format83 otherName.bytes →
        ¬ (readDirent (rootBytes danglingVolume) e).IsDirectory) ∧
      ResolvesTo (fun _ => true) danglingVolume danglingName 0 0 ∧
      (readDirent (rootBytes danglingVolume) 0).name ≠ format83 otherName.bytes ∧
      ∃ w,
        fat16Init (fun _ => true)
            (crashImage (fun _ => true) danglingVolume otherName (fun _ => 0x42) 1 1) =
          .ok w ∧
        openRead (fun _ => true) w danglingName (fun _ => 0) 1 ≠
          openRead (fun _ => true) danglingVolume danglingName (fun _ => 0) 1 := by
  have hnone : (scanSlots danglingVolume otherName).1 = none := by
    decide
  have hpath : ResolvesTo (fun _ => true) danglingVolume danglingName 0 0 :=
    toOption_eq_some.mp (by decide)
  have hbefore : (openRead (fun _ => true) danglingVolume danglingName
      (fun _ => 0) 1).toOption.bind (fun r => r.map (fun r => r.2 0)) =
        some 0 := by
    decide
  have heval : (fat16Init (fun _ => true)
      (crashImage (fun _ => true) danglingVolume otherName (fun _ => 0x42) 1
        1)).toOption.any (fun w =>
      (openRead (fun _ => true) w danglingName (fun _ => 0) 1).toOption.bind
        (fun r => r.map (fun r => r.2 0)) = some 0x42) = true := by
    decide
  obtain ⟨w, hinit, hafter⟩ := any_toOption.mp heval
  rw [decide_eq_true_eq] at hafter
  refine ⟨wellFormed_dangling,
    fat16Init_of_boot (bootGeometry_of_bpb (by decide) (by decide)) (by decide),
    by decide, by decide, fun _ => not_directory_of_none hnone, hpath,
    by decide, w, hinit, ?_⟩
  intro hsame
  rw [hsame, hbefore] at hafter
  exact absurd hafter (by decide)

end Instances

end Fat16
end RebornOS
