import RebornOS.Fat16Write
import RebornOS.Fat16Tree

/-!
# Writing a file and reading it back

The encoder of `fat16_write_file` and the decoder of `fat16_open` and
`fat16_read` agree: what was written under a name is read back under every case
variant of it, for every size and every fragmentation of the free clusters, and
also after the disk has been mounted again.
-/

namespace RebornOS
namespace Fat16

open ByteStore TableChain

variable {cs new : List Nat} {f n size slot stored : Nat} {v v' w : Volume}
  {disk disk' : Store} {name : List UInt8} {fat : Nat → Nat} {serves : Nat → Bool}
  {data : Nat → UInt8} {g : Geometry}

section Reading

/-- Nothing left to copy. -/
theorem readLoop_zero
    (fuel cluster dst : Nat) (buf : Store) :
    readLoop w fuel cluster 0 dst buf = .ok (0, buf) := by
  cases fuel with
  | zero =>
      rfl
  | succ fuel =>
      rw [readLoop, if_neg (by omega)]

/-- The reading loop copies what the clusters of the chain hold. -/
theorem readLoop_stored
    {fuel offset remaining : Nat} (dst : Nat) (buf : Store)
    (hsmall : w.geom.fatCacheEntries ≤ eocMin)
    (hchain : remaining = 0 ∨ ChainAt w.geom w.fat f cs)
    (hstored : Stored w.geom w.device.disk data cs offset stored)
    (hle : remaining ≤ stored)
    (henough : remaining ≤ cs.length * w.geom.clusterSizeBytes)
    (hfuel : remaining ≤ fuel) :
    ∃ buf', readLoop w fuel f remaining dst buf = .ok (0, buf') ∧
      ∀ x, buf' x =
        if dst ≤ x ∧ x < dst + remaining then data (offset + (x - dst))
        else buf x := by
  induction cs generalizing f fuel offset stored remaining dst buf with
  | nil =>
      have hzero : remaining = 0 := by simpa using henough
      subst hzero
      refine ⟨buf, readLoop_zero fuel f dst buf, ?_⟩
      intro x
      rw [if_neg (by omega)]
  | cons c cs ih =>
      by_cases hzero : remaining = 0
      · subst hzero
        refine ⟨buf, readLoop_zero fuel f dst buf, ?_⟩
        intro x
        rw [if_neg (by omega)]
      · obtain ⟨fuel, rfl⟩ := Nat.exists_eq_succ_of_ne_zero (by omega : fuel ≠ 0)
        obtain ⟨rfl, ⟨hlow, hlt⟩, hrest⟩ := hchain.resolve_left hzero
        obtain ⟨himage, hstored'⟩ := hstored
        have hsize := w.geom.clusterSizeBytes_pos
        have hnext : fatNextCluster w f = .ok (w.fat f) := if_pos hlt
        have hlen : (f :: cs).length * w.geom.clusterSizeBytes =
            cs.length * w.geom.clusterSizeBytes + w.geom.clusterSizeBytes := by
          rw [List.length_cons, Nat.succ_mul]
        rw [hlen] at henough
        obtain ⟨buf', hloop, hbuf'⟩ := ih
          (dst + min w.geom.clusterSizeBytes remaining)
          (copyIn buf dst (min w.geom.clusterSizeBytes remaining)
            (fun i => w.device.disk (w.geom.clusterAddr f + i)))
          (Or.inr hrest) hstored' (by omega) (by omega)
          (show remaining - min w.geom.clusterSizeBytes remaining ≤ fuel by omega)
        refine ⟨buf', ?_, ?_⟩
        · rw [readLoop, if_pos (by omega), hnext]
          exact hloop
        · intro x
          rw [hbuf' x]
          unfold copyIn
          by_cases hin : dst ≤ x ∧ x < dst + min w.geom.clusterSizeBytes remaining
          · rw [if_neg (by omega), if_pos hin, if_pos (by omega)]
            show w.device.disk (w.geom.clusterAddr f + (x - dst)) = _
            rw [himage (x - dst) (by omega), clusterImage, if_pos (by omega)]
          · by_cases hlater : dst + min w.geom.clusterSizeBytes remaining ≤ x ∧
                x < dst + min w.geom.clusterSizeBytes remaining +
                  (remaining - min w.geom.clusterSizeBytes remaining)
            · rw [if_pos hlater, if_pos (by omega)]
              congr 1
              omega
            · rw [if_neg hlater, if_neg hin, if_neg (by omega)]

/-- A file whose clusters hold the data is read as the data. -/
theorem fat16Read_stored
    (m : Nat) (buf : Store) (hsmall : w.geom.fatCacheEntries ≤ eocMin)
    (hbuf : kmallocOk serves w.geom.clusterSizeBytes)
    (hchain : size = 0 ∨ ChainAt w.geom w.fat f cs)
    (hstored : Stored w.geom w.device.disk data cs 0 stored) (hle : size ≤ stored)
    (hlen : size ≤ cs.length * w.geom.clusterSizeBytes) :
    ∃ buf', fat16Read serves w ⟨f, size⟩ buf m = .ok (min m size, buf') ∧
      ∀ i, buf' i = if i < min m size then data i else buf i := by
  have hstart : min size m = 0 ∨ ChainAt w.geom w.fat f cs :=
    hchain.imp_left (fun hzero => by rw [hzero, Nat.zero_min])
  obtain ⟨buf', hloop, hspec⟩ :=
    readLoop_stored 0 buf hsmall hstart hstored (by omega) (by omega)
      (le_refl (min size m))
  refine ⟨buf', ?_, ?_⟩
  · rw [fat16Read, if_pos hbuf]
    simp only [hloop]
    show Except.ok (min size m - 0, buf') = _
    rw [Nat.sub_zero, Nat.min_comm]
  · intro i
    rw [hspec i, Nat.min_comm size m]
    by_cases hi : i < min m size
    · rw [if_pos ⟨Nat.zero_le i, by omega⟩, if_pos hi, Nat.zero_add, Nat.sub_zero]
    · rw [if_neg (by omega), if_neg hi]

end Reading

/-- A volume that reads the same as another one. -/
structure SameVolume (v w : Volume) : Prop where
  geom : w.geom = v.geom
  disk : w.device.disk = v.device.disk
  fat : ∀ c, c < v.geom.fatCacheEntries → w.fat c = v.fat c

theorem SameVolume.refl
    (v : Volume) : SameVolume v v :=
  ⟨rfl, rfl, fun _ _ => rfl⟩

section Mounts

/-- Mounting the disk now would give this volume. -/
def Mounted (serves : Nat → Bool) (v : Volume) : Prop :=
  ∃ w, fat16Init serves v.device.disk = .ok w ∧ SameVolume v w

/-- A volume that starts at LBA 0. -/
theorem bootGeometry_of_bpb
    (hsig : bootSector disk 0 510 = 0x55 ∧ bootSector disk 0 511 = 0xAA)
    (hbpb : looksLikeFat16Bpb (readBpb (bootSector disk 0))) :
    bootGeometry disk = .ok (geometryOf 0 (bootSector disk 0) hbpb) := by
  unfold bootGeometry
  simp only
  rw [if_neg (by simp [hsig]), dif_pos hbpb]

theorem fat16Init_of_boot
    (hboot : bootGeometry disk = .ok g) (hserved : kmallocOk serves g.fatBytes) :
    fat16Init serves disk = .ok ⟨g, diskFat g disk, ⟨disk, []⟩⟩ := by
  rw [fat16Init, hboot]
  exact if_pos hserved

/-- What mounting reads: the boot sector and the first FAT. -/
theorem mounted_iff :
    Mounted serves v ↔
      bootGeometry v.device.disk = .ok v.geom ∧
        kmallocOk serves v.geom.fatBytes ∧ Synced v := by
  unfold Mounted fat16Init
  constructor
  · rintro ⟨w, hinit, hsame⟩
    obtain ⟨g, hboot, hmount⟩ := Fallible.bind_eq_ok.mp hinit
    unfold mountFat at hmount
    split_ifs at hmount with hserved
    cases hmount
    obtain rfl : g = v.geom := hsame.geom
    exact ⟨hboot, hserved, fun c hc => (hsame.fat c hc).symm⟩
  · rintro ⟨hboot, hserved, hsync⟩
    exact ⟨_, fat16Init_of_boot hboot hserved, rfl, rfl,
      fun c hc => (hsync c hc).symm⟩

theorem bootSector_congr
    {lba : Nat} (hsame : ∀ x, x < n → disk' x = disk x)
    (hn : lba * sectorSize + sectorSize ≤ n) :
    bootSector disk' lba = bootSector disk lba := by
  funext i
  unfold bootSector
  by_cases hi : i < sectorSize
  · rw [if_pos hi, if_pos hi, hsame _ (by omega)]
  · rw [if_neg hi, if_neg hi]

/-- The geometry depends only on the sectors up to the boot sector. -/
theorem bootGeometry_congr
    (h : bootGeometry disk = .ok g)
    (hsame : ∀ x, x < g.partitionLba * sectorSize + sectorSize →
      disk' x = disk x) : bootGeometry disk' = .ok g := by
  have hfirst : bootSector disk' 0 = bootSector disk 0 :=
    bootSector_congr hsame (by omega)
  unfold bootGeometry at h ⊢
  simp only [hfirst]
  simp only at h
  split_ifs at h with hsig hbpb hlba hbpb'
  · rw [if_neg hsig, dif_pos hbpb, h]
  · cases h
    have hsecond : bootSector disk' (readLE (bootSector disk 0) (0x1BE + 8) 4) =
        bootSector disk (readLE (bootSector disk 0) (0x1BE + 8) 4) :=
      bootSector_congr hsame (le_refl _)
    simp only [hsecond]
    rw [if_neg hsig, dif_neg hbpb, if_neg hlba, dif_pos hbpb']

/-- A call keeps the volume mountable: it writes no boot sector. -/
theorem WriteEffect.mounted
    {name : CString} (h : WriteEffect v v' name data size slot fat new)
    (hreserved : 0 < v.geom.reservedSectorCount) (hv : Mounted serves v) :
    Mounted serves v' := by
  rw [mounted_iff] at hv ⊢
  obtain ⟨hboot, hserved, hsync⟩ := hv
  rw [h.geom]
  refine ⟨bootGeometry_congr hboot ?_, hserved, h.synced hsync⟩
  intro x hx
  exact h.before_fat x (lt_of_lt_of_le hx (v.geom.boot_before_fat hreserved))

end Mounts

section Opening

/-- Looking a name up in the root directory. -/
theorem findEntryInDir_root
    (hroot : kmallocOk serves w.geom.rootDirBytes) (want : List UInt8) :
    findEntryInDir serves w 0 want =
      .ok ((findFrom (rootBytes w) want w.geom.rootDirEntryCount 0).map
        (readDirent (rootBytes w))) := by
  have hread : readDirectory serves w 0 =
      .ok (rootBytes w, w.geom.rootDirEntryCount) := by
    rw [readDirectory, if_pos rfl, readRootDir_ok hroot]
    rfl
  rw [findEntryInDir, hread]
  rfl

/-- Opening a path of one component. -/
theorem fat16Open_of_plain
    {path : CString}
    (hroot : kmallocOk serves w.geom.rootDirBytes)
    (hslash : 0x2F ∉ path.bytes) (hlen : path.bytes.length ≤ 12) :
    fat16Open serves w path =
      .ok ((findFrom (rootBytes w) (format83 path.bytes)
        w.geom.rootDirEntryCount 0).map (fun e =>
          ⟨(readDirent (rootBytes w) e).firstCluster,
            (readDirent (rootBytes w) e).fileSize⟩)) := by
  rw [fat16Open, resolveParentDir_of_plain hslash hlen]
  show (findEntryInDir serves w 0 (format83 path.bytes)).bind _ = _
  rw [findEntryInDir_root hroot]
  simp only [Except.bind, Option.map_map]
  rfl

end Opening

/-- A valid 8.3 name. -/
def Valid83 (name : List UInt8) : Prop :=
  ∃ base ext : List UInt8,
    1 ≤ base.length ∧ base.length ≤ 8 ∧ 0x2E ∉ base ∧ 0x2F ∉ base ∧
      (name = base ∨
        (1 ≤ ext.length ∧ ext.length ≤ 3 ∧ 0x2E ∉ ext ∧ 0x2F ∉ ext ∧
          name = base ++ 0x2E :: ext))

theorem Valid83.plain
    (h : Valid83 name) : 0x2F ∉ name ∧ name.length ≤ 12 := by
  obtain ⟨base, ext, _, hbase, _, hslash, rfl | ⟨_, hext, _, hslash', rfl⟩⟩ := h
  · exact ⟨hslash, by omega⟩
  · constructor
    · simp [hslash, hslash']
    · simp only [List.length_append, List.length_cons]
      omega

/-- The short name of a valid name starts with its first byte. -/
theorem Valid83.head
    (h : Valid83 name) : (format83 name).headD 0 = upper (name.headD 0) := by
  obtain ⟨base, ext, hpos, _, hdot, _, hname⟩ := h
  obtain ⟨c, cs, rfl⟩ := List.exists_cons_of_length_pos hpos
  have hc : c ≠ 0x2E := fun heq => hdot (by rw [heq]; exact List.mem_cons_self)
  have hhead : ∃ rest, name = c :: rest := by
    rcases hname with rfl | ⟨_, _, _, _, rfl⟩
    · exact ⟨cs, rfl⟩
    · exact ⟨cs ++ 0x2E :: ext, rfl⟩
  obtain ⟨rest, rfl⟩ := hhead
  rw [format83_head, List.takeWhile_cons_of_pos (by simpa using hc)]
  rfl

/--
Every case variant of the name opens with this size, and reading it delivers
the data and touches nothing behind it.
-/
def ReadsBack
    (serves : Nat → Bool) (w : Volume) (name : CString) (data : Nat → UInt8)
    (size : Nat) : Prop :=
  ∀ other : CString, CaseVariant name.bytes other.bytes →
    ∃ file,
      fat16Open serves w other = .ok (some file) ∧
        file.size = size ∧
        ∀ m buf, ∃ buf',
          fat16Read serves w file buf m = .ok (min m size, buf') ∧
            ∀ i, buf' i = if i < min m size then data i else buf i

section Encoding

/-- The clusters hold the whole file. -/
theorem size_le_clustersNeeded
    (hsize : size + g.clusterSizeBytes ≤ 2 ^ 32) :
    size ≤ clustersNeeded g size * g.clusterSizeBytes := by
  have hpos := g.clusterSizeBytes_pos
  unfold clustersNeeded
  split_ifs with hzero
  · omega
  · rw [Nat.mod_eq_of_lt (by omega)]
    have hdiv := Nat.div_add_mod (size + g.clusterSizeBytes - 1) g.clusterSizeBytes
    have hmod := Nat.mod_lt (size + g.clusterSizeBytes - 1) hpos
    rw [Nat.mul_comm]
    omega

/-- A file that fits `n` clusters needs no more than `n`. -/
theorem clustersNeeded_le
    (hsize : size + g.clusterSizeBytes ≤ 2 ^ 32) (hfits : size ≤ n * g.clusterSizeBytes) :
    clustersNeeded g size ≤ n := by
  have hpos := g.clusterSizeBytes_pos
  unfold clustersNeeded
  split_ifs with hzero
  · exact Nat.zero_le n
  · rw [Nat.mod_eq_of_lt (by omega)]
    refine Nat.lt_succ_iff.mp ((Nat.div_lt_iff_lt_mul hpos).mpr ?_)
    rw [Nat.succ_mul]
    omega

end Encoding

section Written

variable {name : CString}

/-- A written file is read back from every volume that reads the same. -/
theorem WriteEffect.readsBack
    (h : WriteEffect v v' name data size slot fat new)
    (hw : SameVolume v' w)
    (hsmall : v.geom.fatCacheEntries ≤ eocMin)
    (hname : Valid83 name.bytes) (hfirst : name.bytes.headD 0 ≠ 0xE5)
    (hsize : size + v.geom.clusterSizeBytes ≤ 2 ^ 32)
    (hroot : kmallocOk serves v.geom.rootDirBytes)
    (hbuf : kmallocOk serves v.geom.clusterSizeBytes) :
    ReadsBack serves w name data size := by
  have hgeom : w.geom = v.geom := hw.geom.trans h.geom
  have hpos := v.geom.clusterSizeBytes_pos
  have hrootBytes : rootBytes w = rootBytes v' := by
    unfold rootBytes
    rw [hw.geom, hw.disk]
  have hdel : (format83 name.bytes).headD 0 ≠ 0xE5 := by
    rw [hname.head]
    intro heq
    exact hfirst ((upper_eq_iff (Or.inr (by decide))).mp heq)
  have hchain : new ≠ [] → ChainAt w.geom w.fat (new.headD 0) new := by
    intro hne
    rw [hgeom]
    refine (h.chain hne).congr ?_
    intro c hc
    exact hw.fat c (by rw [h.geom]; exact (h.clusters c hc).1.2)
  intro other hother
  obtain ⟨hslash, hlen⟩ := hname.plain
  have hslash' : 0x2F ∉ other.bytes :=
    fun hin => hslash ((hother.mem_iff (Or.inl (by decide))).mpr hin)
  have hfind : findFrom (rootBytes w) (format83 other.bytes)
      w.geom.rootDirEntryCount 0 = some slot := by
    rw [hrootBytes, hgeom, ← hother.format83_eq]
    exact h.rootWritten.find_slot hdel
  refine ⟨⟨new.headD 0, size⟩, ?_, rfl, ?_⟩
  · rw [fat16Open_of_plain (by rwa [hgeom]) hslash'
      (by rw [← hother.length_eq]; exact hlen), hfind, hrootBytes]
    simp only [Option.map_some]
    rw [h.firstCluster_slot hsmall, h.rootWritten.readDirent_slot]
    simp only
    rw [Nat.mod_eq_of_lt (by omega)]
  · intro m buf
    have hlen : size ≤ new.length * w.geom.clusterSizeBytes := by
      rw [hgeom, h.length]
      exact size_le_clustersNeeded hsize
    have hstart : size = 0 ∨ ChainAt w.geom w.fat (new.headD 0) new := by
      by_cases hnil : new = []
      · rw [hnil, List.length_nil, Nat.zero_mul] at hlen
        exact Or.inl (Nat.le_zero.mp hlen)
      · exact Or.inr (hchain hnil)
    refine fat16Read_stored m buf (by rwa [hgeom]) (by rwa [hgeom]) hstart ?_
      (le_refl _) hlen
    rw [hgeom, hw.disk]
    exact h.stored

/--
A mounted volume with proper, disjoint chains and data clusters below `0xFFF0`.
The boot sector is a reserved sector, so it is not part of the FAT.
-/
structure SoundVolume (serves : Nat → Bool) (v : Volume) : Prop where
  mounted : Mounted serves v
  reserved : 0 < v.geom.reservedSectorCount
  indices : v.geom.fatCacheEntries ≤ 0xFFF0
  chains : DisjointChains v

/--
**Write and read back.**  A file that fits the free clusters and those of the
file it replaces is stored, unless the root directory is full; it then opens
under every case variant of its name and reads as the data, and it still does
after the disk has been mounted again.
-/
theorem write_then_read_back
    (data : Nat → UInt8)
    (hv : SoundVolume serves v)
    (hroot : kmallocOk serves v.geom.rootDirBytes)
    (hbuf : kmallocOk serves v.geom.clusterSizeBytes)
    (hname : Valid83 name.bytes) (hfirst : name.bytes.headD 0 ≠ 0xE5)
    (hsize : size + v.geom.clusterSizeBytes ≤ 2 ^ 32)
    (hfits : size ≤
      (freeCount v.geom v.fat + replacedClusters v name) *
        v.geom.clusterSizeBytes) :
    (chooseSlot v name = none ∧
        fat16WriteFile serves v name data size = .error (.rootFull, v)) ∨
      ∃ v',
        fat16WriteFile serves v name data size = .ok v' ∧
          ReadsBack serves v' name data size ∧
          ∃ v'', fat16Init serves v'.device.disk = .ok v'' ∧
            ReadsBack serves v'' name data size := by
  have hsmall : v.geom.fatCacheEntries ≤ eocMin :=
    le_trans hv.indices (by decide)
  cases hslot : chooseSlot v name with
  | none =>
      exact Or.inl ⟨rfl, fat16WriteFile_rootFull hroot hslot⟩
  | some slot =>
      right
      obtain ⟨old, hold⟩ := hv.chains.exists_replaced name
      have hspace : clustersNeeded v.geom size ≤
          freeCount v.geom (cleared v.fat old) := by
        rw [hold.freeCount_eq hsmall]
        exact clustersNeeded_le hsize hfits
      obtain ⟨v', hwrite⟩ :=
        fat16WriteFile_returns data hsmall hroot hslot
          (hold.freeExisting_eq hsmall) hspace
      obtain ⟨slot', fat, new, _, heffect⟩ := writeEffect_of_ok hsmall hwrite
      obtain ⟨v'', hinit, hsame⟩ := heffect.mounted hv.reserved hv.mounted
      refine ⟨v', hwrite, ?_, v'', hinit, ?_⟩
      · exact heffect.readsBack (SameVolume.refl v') hsmall hname hfirst hsize
          hroot hbuf
      · exact heffect.readsBack hsame hsmall hname hfirst hsize hroot hbuf

end Written

section Formatted

/-- A freshly formatted disk: one FAT sector, sixteen root entries, no files. -/
def formattedDisk : Store :=
  fun i =>
    ([(12, 2), (13, 1), (14, 1), (16, 1), (17, 16), (22, 1), (510, 0x55),
      (511, 0xAA)] : List (Nat × UInt8)).lookup i |>.getD 0

/-- Its geometry. -/
def formattedGeometry : Geometry :=
  geometryOf 0 (bootSector formattedDisk 0) (by decide)

/-- The volume that mounting it gives. -/
def formattedVolume : Volume :=
  ⟨formattedGeometry, diskFat formattedGeometry formattedDisk,
    ⟨formattedDisk, []⟩⟩

theorem formattedVolume_empty : firstByte (rootBytes formattedVolume) 0 = 0 := by
  decide

theorem soundVolume_formatted : SoundVolume (fun _ => true) formattedVolume := by
  have hno : ∀ {d e : Nat} {ent : Dirent}, ¬ TreeEntry formattedVolume d e ent :=
    no_treeEntry_of_empty formattedVolume_empty
  have hsync : Synced formattedVolume :=
    synced_diskFat formattedGeometry ⟨formattedDisk, []⟩
  refine ⟨mounted_iff.mpr ⟨?_, by decide, hsync⟩, by decide, by decide, ?_, ?_⟩
  · exact bootGeometry_of_bpb (by decide) (by decide)
  · intro d e ent h
    exact absurd h hno
  · intro d e ent d' e' ent' cs cs' h
    exact absurd h hno

/-- `a.b`. -/
def sampleName : CString := ⟨[0x61, 0x2E, 0x62], by decide⟩

theorem valid83_sampleName : Valid83 sampleName.bytes :=
  ⟨[0x61], [0x62], by decide, by decide, by decide, by decide,
    Or.inr ⟨by decide, by decide, by decide, by decide, rfl⟩⟩

/-- Six hundred bytes in two clusters, on the formatted volume. -/
theorem write_then_read_back_formatted :
    SoundVolume (fun _ => true) formattedVolume ∧
      ∃ v',
        fat16WriteFile (fun _ => true) formattedVolume sampleName UInt8.ofNat
            600 = .ok v' ∧
          ReadsBack (fun _ => true) v' sampleName UInt8.ofNat 600 ∧
          ∃ v'', fat16Init (fun _ => true) v'.device.disk = .ok v'' ∧
            ReadsBack (fun _ => true) v'' sampleName UInt8.ofNat 600 := by
  refine ⟨soundVolume_formatted, ?_⟩
  have hsize : 600 + formattedGeometry.clusterSizeBytes ≤ 2 ^ 32 := by decide
  rcases write_then_read_back UInt8.ofNat soundVolume_formatted (by decide)
      (by decide) valid83_sampleName (by decide) hsize (by decide +kernel)
      with hfull | hstored
  · exact absurd hfull.1 (by decide)
  · exact hstored

end Formatted

end Fat16
end RebornOS
