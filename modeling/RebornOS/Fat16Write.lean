import RebornOS.Fat16Clusters
import RebornOS.Fat16Directory
import RebornOS.Fat16Names

/-!
# The effect of `fat16_write_file`

After the loops, the driver writes back one sector of the root directory and
the whole FAT cache.  `WriteEffect` collects what a successful call has done to
the FAT, the root directory, the data clusters and the rest of the disk; it is
all that later results use about the call.
-/

namespace RebornOS
namespace Fat16

open ByteStore TableChain

variable {e first i size slot x : Nat} {serves : Nat → Bool} {r : Volume × Progress}
  {v v' : Volume} {name : CString} {data : Nat → UInt8} {fat : Nat → Nat}

/-- What a successful call has done. -/
structure WriteEffect
    (v v' : Volume) (name : CString) (data : Nat → UInt8) (size slot : Nat)
    (fat : Nat → Nat) (new : List Nat) : Prop where
  slot_spec : SlotSpec v name slot
  /-- `fat` is the FAT after the replaced file's clusters were freed. -/
  freed : freeExisting v (scanSlots v name).1 = .ok fat
  geom : v'.geom = v.geom
  length : new.length = clustersNeeded v.geom size
  clusters : ∀ c, c ∈ new → IsCluster v.geom c ∧ fat c = freeMark
  nodup : new.Nodup
  links : ∀ c, c ∉ new → v'.fat c = fat c
  words : ∀ c, c ∈ new → v'.fat c < 2 ^ 16
  chain : new ≠ [] → ChainAt v.geom v'.fat (new.headD 0) new
  stored : Stored v.geom v'.device.disk data new 0 size
  root :
    ∀ i, i < v.geom.rootDirBytes →
      rootBytes v' i =
        writeDirent (rootBytes v) slot (format83 name.bytes) (new.headD 0) size i
  fat_image :
    ∀ i, i < v.geom.fatBytes →
      v'.device.disk (v.geom.fatAddr + i) = fatImage v'.fat i
  before_fat : ∀ x, x < v.geom.fatAddr → v'.device.disk x = v.device.disk x
  cluster_frame :
    ∀ c, 2 ≤ c → c < eocMin → c ∉ new → ∀ j, j < v.geom.clusterSizeBytes →
      v'.device.disk (v.geom.clusterAddr c + j) =
        v.device.disk (v.geom.clusterAddr c + j)

section WriteBack

variable {root : Store}

/-- The two requests that end a call. -/
def writeBack (v : Volume) (root : Store) (slot : Nat) : Volume :=
  writeFatCacheToDisk (writeRootSector v root slot)

theorem fatSectors_eq
    (g : Geometry) : g.fatCacheEntries * 2 / sectorSize * sectorSize = g.fatBytes := by
  rw [g.fatCacheEntries_eq]
  unfold Geometry.fatBytes sectorSize
  omega

/-- The FAT on the disk is the cache. -/
theorem writeBack_fat_image
    (hi : i < v.geom.fatBytes) :
    (writeBack v root slot).device.disk (v.geom.fatAddr + i) =
      fatImage v.fat i := by
  refine writeSectors_inside (v := writeRootSector v root slot) ?_
  show i < v.geom.fatCacheEntries * 2 / sectorSize * sectorSize
  rwa [fatSectors_eq]

/-- Outside the FAT only the root sector is written. -/
theorem writeBack_outside_fat
    (hx : x < v.geom.fatAddr ∨ v.geom.fatAddr + v.geom.fatBytes ≤ x) :
    (writeBack v root slot).device.disk x =
      (writeRootSector v root slot).device.disk x := by
  refine writeSectors_outside (v := writeRootSector v root slot) ?_
  show x < v.geom.fatAddr ∨
    v.geom.fatAddr + v.geom.fatCacheEntries * 2 / sectorSize * sectorSize ≤ x
  rwa [fatSectors_eq]

/-- The address of the root directory's sector `index`. -/
theorem rootSector_addr
    (g : Geometry) (index : Nat) :
    g.sectorAddr (g.rootDirStartSector + index) =
      g.rootAddr + index * sectorSize := by
  unfold Geometry.rootAddr Geometry.sectorAddr Geometry.lba
  ring

/-- The root directory after the write-back, when `root` differs in one entry. -/
theorem writeBack_root
    (hi : i < v.geom.rootDirBytes) (hslot : slot < v.geom.rootDirEntryCount)
    (hsame : ∀ x, x < v.geom.rootDirBytes →
      x < direntSize * slot ∨ direntSize * slot + direntSize ≤ x →
      root x = rootBytes v x) : rootBytes (writeBack v root slot) i = root i := by
  have hbefore := v.geom.fat_before_root
  have hsector := v.geom.slot_sector hslot
  simp only at hsector
  show (writeBack v root slot).device.disk (v.geom.rootAddr + i) = root i
  rw [writeBack_outside_fat (Or.inr (by omega))]
  unfold writeRootSector
  simp only
  by_cases hin : slot / (sectorSize / direntSize) * sectorSize ≤ i ∧
      i < slot / (sectorSize / direntSize) * sectorSize + sectorSize
  · rw [writeSectors_disk, rootSector_addr, if_pos (by omega)]
    congr 1
    omega
  · rw [writeSectors_outside (by rw [rootSector_addr]; omega), hsame i hi (by omega)]
    rfl

/-- The data area and everything before the FAT stay. -/
theorem writeBack_elsewhere
    (hslot : slot < v.geom.rootDirEntryCount)
    (hx : x < v.geom.fatAddr ∨ v.geom.dataAddr ≤ x) :
    (writeBack v root slot).device.disk x = v.device.disk x := by
  have hbefore := v.geom.fat_before_root
  have hdata := v.geom.dataAddr_eq
  have hsector := v.geom.slot_sector hslot
  simp only at hsector
  rw [writeBack_outside_fat (by omega)]
  unfold writeRootSector
  simp only
  exact writeSectors_outside (by rw [rootSector_addr]; omega)

end WriteBack

/-- The request for the root directory's sector with the new entry. -/
def rootRequest (v : Volume) (name : CString) (first size slot : Nat) :
    Request where
  lba :=
    v.geom.lba (v.geom.rootDirStartSector + slot / (sectorSize / direntSize))
  count := 1
  data := fun i =>
    writeDirent (rootBytes v) slot (format83 name.bytes) first size
      (slot / (sectorSize / direntSize) * sectorSize + i)

/-- The request for the FAT. -/
def fatRequest (g : Geometry) (fat : Nat → Nat) : Request where
  lba := g.lba g.fatStartSector
  count := g.fatCacheEntries * 2 / sectorSize
  data := fatImage fat

/-- A call that stops because the disk is full. -/
structure FullCall
    (v u : Volume) (name : CString) (data : Nat → UInt8) (size slot : Nat)
    (fat : Nat → Nat) (new : List Nat) : Prop where
  chosen : chooseSlot v name = some slot
  freed : freeExisting v (scanSlots v name).1 = .ok fat
  written : Written data { v with fat := fat } u 0 new 0 size
  device :
    u.device = (dataRequests v.geom data new 0 size).foldl Device.write v.device
  short : new.length < clustersNeeded v.geom size
  full : allocCluster u = none

/-- A call that returns, with its requests. -/
structure FinishedCall
    (v v' : Volume) (name : CString) (data : Nat → UInt8) (size slot : Nat)
    (fat : Nat → Nat) (new : List Nat) : Prop where
  chosen : chooseSlot v name = some slot
  effect : WriteEffect v v' name data size slot fat new
  first :
    0 < clustersNeeded v.geom size →
      allocCluster { v with fat := fat } = some (new.headD 0)
  device :
    v'.device =
      (dataRequests v.geom data new 0 size ++
        [rootRequest v name (new.headD 0) size slot,
          fatRequest v.geom v'.fat]).foldl Device.write v.device

/-- The two requests of the write-back, for an entry of the old root. -/
theorem writeBack_device
    {u : Volume} (hgeom : u.geom = v.geom) :
    (writeBack u
        (writeDirent (rootBytes v) slot (format83 name.bytes) first size)
        slot).device =
      (u.device.write (rootRequest v name first size slot)).write
        (fatRequest v.geom u.fat) := by
  rw [rootRequest, ← hgeom]
  rfl

section Call

/-- The loops and the write-back together. -/
theorem writeEffect_of_loop
    (hsmall : v.geom.fatCacheEntries ≤ eocMin) (hslot : chooseSlot v name = some slot)
    (hfreed : freeExisting v (scanSlots v name).1 = .ok fat)
    (hloop : writeClusters data (clustersNeeded v.geom size)
      { v with fat := fat } ⟨0, 0, 0, size⟩ = .ok r) :
    ∃ new,
      WriteEffect v
          (writeBack r.1
            (writeDirent (rootBytes v) slot (format83 name.bytes)
              r.2.firstCluster size) slot)
          name data size slot fat new ∧
        r.2.firstCluster = new.headD 0 ∧
        r.1.device =
          (dataRequests v.geom data new 0 size).foldl Device.write v.device := by
  have hspec := slotSpec_of_chooseSlot hslot
  obtain ⟨new, hw, hdevice, hlen, hfirst⟩ :=
    writeClusters_spec (v := { v with fat := fat }) (p := ⟨0, 0, 0, size⟩)
      hsmall (fun h => absurd rfl h) hloop
  simp only [if_true] at hfirst
  have hgeom : r.1.geom = v.geom := hw.geom
  have hslotLt : slot < r.1.geom.rootDirEntryCount := by
    rw [hgeom]
    exact hspec.lt
  have hbefore := v.geom.fat_before_root
  have hdata := v.geom.dataAddr_eq
  have hhigh : ∀ c, c ∈ new → c < eocMin :=
    fun c hc => lt_of_lt_of_le (hw.clusters c hc).1.2 hsmall
  -- the loop stays inside the data area
  have hloopFrame : ∀ x, x < v.geom.dataAddr →
      r.1.device.disk x = v.device.disk x := by
    have hframe := (writeClusters_before_data data (clustersNeeded v.geom size)
      { v with fat := fat } ⟨0, 0, 0, size⟩).2
    rwa [hloop] at hframe
  have hback : ∀ c, c < eocMin → ∀ j,
      (writeBack r.1
        (writeDirent (rootBytes v) slot (format83 name.bytes)
          r.2.firstCluster size) slot).device.disk (v.geom.clusterAddr c + j) =
        r.1.device.disk (v.geom.clusterAddr c + j) := by
    intro c hc j
    have hle := v.geom.dataAddr_le_clusterAddr hc
    refine writeBack_elsewhere hslotLt (Or.inr ?_)
    rw [hgeom]
    omega
  have hrootSame : ∀ x, x < v.geom.rootDirBytes →
      rootBytes r.1 x = rootBytes v x := by
    intro x hx
    unfold rootBytes
    rw [hgeom]
    exact hloopFrame _ (by rw [hdata]; exact Nat.add_lt_add_left hx _)
  refine ⟨new, ⟨hspec, hfreed, hgeom, hlen, hw.clusters, hw.nodup, ?_, hw.words,
    hw.chain, ?_, ?_, ?_, ?_, ?_⟩, hfirst, hdevice⟩
  · intro c hc
    exact hw.links c hc (fun h => absurd rfl h)
  · refine hw.stored.congr ?_
    intro c hc j _
    exact hback c (hhigh c hc) j
  · intro i hi
    rw [← hgeom] at hi
    rw [writeBack_root hi hslotLt, hfirst]
    intro x hx hout
    rw [writeDirent_outside hout, hrootSame x (by rwa [← hgeom])]
  · intro i hi
    rw [← hgeom] at hi ⊢
    exact writeBack_fat_image hi
  · intro x hx
    rw [writeBack_elsewhere hslotLt (Or.inl (by rwa [hgeom]))]
    exact hloopFrame x (by omega)
  · intro c hlow hc hnot j hj
    rw [hback c hc j]
    refine hw.frame _ ?_
    intro d hd
    have hne : c ≠ d := by
      rintro rfl
      exact hnot hd
    have hdisj := v.geom.clusterAddr_disjoint hlow hc (hw.clusters d hd).1.1
      (hhigh d hd) hne
    show _ < v.geom.clusterAddr d ∨
      v.geom.clusterAddr d + v.geom.clusterSizeBytes ≤ _
    omega

theorem readRootDir_ok
    (h : kmallocOk serves v.geom.rootDirBytes) :
    readRootDir serves v = .ok (rootBytes v) :=
  if_pos h

/-- The call after its checks: the loop and the write-back. -/
theorem fat16WriteFile_eq
    (hroot : kmallocOk serves v.geom.rootDirBytes)
    (hslot : chooseSlot v name = some slot)
    (hfreed : freeExisting v (scanSlots v name).1 = .ok fat) :
    fat16WriteFile serves v name data size =
      (writeClusters data (clustersNeeded v.geom size) { v with fat := fat }
        ⟨0, 0, 0, size⟩).map (fun r =>
          writeBack r.1
            (writeDirent (rootBytes v) slot (format83 name.bytes)
              r.2.firstCluster size) slot) := by
  simp only [fat16WriteFile, readRootDir_ok hroot, hslot, hfreed]
  rfl

/-- Without a slot the call panics and changes nothing. -/
theorem fat16WriteFile_rootFull
    (hroot : kmallocOk serves v.geom.rootDirBytes)
    (hslot : chooseSlot v name = none) :
    fat16WriteFile serves v name data size = .error (.rootFull, v) := by
  simp only [fat16WriteFile, readRootDir_ok hroot, hslot]

/-- A call that reaches its loop fills the disk or returns. -/
theorem loop_cases
    (data : Nat → UInt8)
    (hsmall : v.geom.fatCacheEntries ≤ eocMin)
    (hroot : kmallocOk serves v.geom.rootDirBytes)
    (hslot : chooseSlot v name = some slot)
    (hfreed : freeExisting v (scanSlots v name).1 = .ok fat) :
    (∃ u new,
        fat16WriteFile serves v name data size = .error (.diskFull, u) ∧
          FullCall v u name data size slot fat new) ∨
      ∃ v' new,
        fat16WriteFile serves v name data size = .ok v' ∧
          FinishedCall v v' name data size slot fat new := by
  rw [fat16WriteFile_eq hroot hslot hfreed]
  obtain ⟨new, hwritten, hdevice, hend⟩ :=
    writeClusters_trace data (clustersNeeded v.geom size)
      (v := { v with fat := fat }) (p := ⟨0, 0, 0, size⟩) hsmall
      (fun h => absurd rfl h)
  rcases hend with ⟨r, hloop, _⟩ | ⟨u, hloop, hlen, hfull⟩
  · right
    obtain ⟨new', heffect, hfirst, hdevice'⟩ :=
      writeEffect_of_loop hsmall hslot hfreed hloop
    rw [hloop]
    refine ⟨_, new', rfl, hslot, heffect, ?_, ?_⟩
    · intro hpos
      rw [← hfirst]
      exact writeClusters_first (v := { v with fat := fat }) hsmall rfl hpos hloop
    · rw [List.foldl_append, ← hdevice', ← hfirst]
      exact writeBack_device heffect.geom
  · left
    rw [hloop] at hwritten hdevice ⊢
    exact ⟨u, new, rfl, hslot, hfreed, hwritten, hdevice, hlen, hfull⟩

/-- A call stops before it writes anything, or it reaches its loop. -/
theorem fat16WriteFile_cases
    (serves : Nat → Bool) (v : Volume) (name : CString) (data : Nat → UInt8)
    (size : Nat) :
    (∃ e u, fat16WriteFile serves v name data size = .error (e, u) ∧
        u.geom = v.geom ∧ u.device = v.device) ∨
      ∃ slot fat, kmallocOk serves v.geom.rootDirBytes ∧
        chooseSlot v name = some slot ∧
        freeExisting v (scanSlots v name).1 = .ok fat := by
  by_cases hroot : kmallocOk serves v.geom.rootDirBytes
  · cases hslot : chooseSlot v name with
    | none =>
        exact Or.inl ⟨_, v, fat16WriteFile_rootFull hroot hslot, rfl, rfl⟩
    | some slot =>
        cases hfreed : freeExisting v (scanSlots v name).1 with
        | error e =>
            refine Or.inl ⟨e, v, ?_, rfl, rfl⟩
            simp [fat16WriteFile, readRootDir_ok hroot, hslot, hfreed]
        | ok fat =>
            exact Or.inr ⟨slot, fat, hroot, rfl, rfl⟩
  · refine Or.inl ⟨.rootAlloc, v, ?_, rfl, rfl⟩
    have hfail : readRootDir serves v = .error .rootAlloc := if_neg hroot
    simp [fat16WriteFile, hfail]

/-- The three ways in which a call ends, with what it asked of the disk. -/
theorem call_cases
    (serves : Nat → Bool) (name : CString) (data : Nat → UInt8) (size : Nat)
    (hsmall : v.geom.fatCacheEntries ≤ eocMin) :
    (∃ e u, fat16WriteFile serves v name data size = .error (e, u) ∧
        u.device = v.device) ∨
      (∃ u slot fat new,
        fat16WriteFile serves v name data size = .error (.diskFull, u) ∧
          FullCall v u name data size slot fat new) ∨
      ∃ v' slot fat new,
        fat16WriteFile serves v name data size = .ok v' ∧
          FinishedCall v v' name data size slot fat new := by
  rcases fat16WriteFile_cases serves v name data size with
    ⟨e, u, hpanic, _, hdevice⟩ | ⟨slot, fat, hroot, hslot, hfreed⟩
  · exact Or.inl ⟨e, u, hpanic, hdevice⟩
  · right
    rcases loop_cases data hsmall hroot hslot hfreed with
      ⟨u, new, hpanic, hcall⟩ | ⟨v', new, hok, hcall⟩
    · exact Or.inl ⟨u, slot, fat, new, hpanic, hcall⟩
    · exact Or.inr ⟨v', slot, fat, new, hok, hcall⟩

/-- A call that returns has done what `WriteEffect` says. -/
theorem writeEffect_of_ok
    (hsmall : v.geom.fatCacheEntries ≤ eocMin)
    (h : fat16WriteFile serves v name data size = .ok v') :
    ∃ slot fat new, chooseSlot v name = some slot ∧
      WriteEffect v v' name data size slot fat new := by
  have hcases := call_cases serves name data size hsmall
  rw [h] at hcases
  rcases hcases with ⟨e, u, hpanic, _⟩ | ⟨u, slot, fat, new, hpanic, _⟩ |
    ⟨u, slot, fat, new, hok, hcall⟩
  · cases hpanic
  · cases hpanic
  · cases hok
    exact ⟨slot, fat, new, hcall.chosen, hcall.effect⟩

/-- With a slot, a buffer for the root and enough free clusters the call returns. -/
theorem fat16WriteFile_returns
    (data : Nat → UInt8)
    (hsmall : v.geom.fatCacheEntries ≤ eocMin)
    (hroot : kmallocOk serves v.geom.rootDirBytes)
    (hslot : chooseSlot v name = some slot)
    (hfreed : freeExisting v (scanSlots v name).1 = .ok fat)
    (hspace : clustersNeeded v.geom size ≤ freeCount v.geom fat) :
    ∃ v', fat16WriteFile serves v name data size = .ok v' := by
  obtain ⟨r, hloop⟩ := writeClusters_ok data
    (v := { v with fat := fat }) (p := ⟨0, 0, 0, size⟩) hsmall
    (fun h => absurd rfl h) hspace
  rw [fat16WriteFile_eq hroot hslot hfreed, hloop]
  exact ⟨_, rfl⟩

end Call

/-- The root directory of `w` is that of `v` with the entry of a file written. -/
structure RootWritten
    (v w : Volume) (name : CString) (first size slot : Nat) : Prop where
  geom : w.geom = v.geom
  slot_spec : SlotSpec v name slot
  root :
    ∀ i, i < v.geom.rootDirBytes →
      rootBytes w i =
        writeDirent (rootBytes v) slot (format83 name.bytes) first size i

/-- The root directory after the loop has ended and its results are written back. -/
theorem rootWritten_of_loop
    {n : Nat} {p : Progress} (hslot : chooseSlot v name = some slot)
    (hloop : writeClusters data n { v with fat := fat } p = .ok r) :
    RootWritten v
      (writeBack r.1
        (writeDirent (rootBytes v) slot (format83 name.bytes) r.2.firstCluster size)
        slot) name r.2.firstCluster size slot := by
  obtain ⟨hgeom, hframe⟩ :=
    writeClusters_before_data data n { v with fat := fat } p
  rw [hloop] at hgeom hframe
  have hspec := slotSpec_of_chooseSlot hslot
  have hdata := v.geom.dataAddr_eq
  refine ⟨hgeom, hspec, ?_⟩
  intro i hi
  have hgeom' : r.1.geom = v.geom := hgeom
  rw [writeBack_root (by rwa [hgeom']) (by rw [hgeom']; exact hspec.lt)]
  intro x hx hout
  rw [writeDirent_outside hout]
  rw [hgeom'] at hx
  unfold rootBytes
  rw [hgeom']
  exact (hframe _ (by rw [hdata]; exact Nat.add_lt_add_left hx _)).symm

/-- However large the FAT is, a call that returns has written one root entry. -/
theorem rootWritten_of_ok
    (h : fat16WriteFile serves v name data size = .ok v') :
    ∃ slot first, chooseSlot v name = some slot ∧
      RootWritten v v' name first size slot := by
  rcases fat16WriteFile_cases serves v name data size with
    ⟨e, u, hpanic, _⟩ | ⟨slot, fat, hroot, hslot, hfreed⟩
  · rw [h] at hpanic
    cases hpanic
  · rw [fat16WriteFile_eq hroot hslot hfreed] at h
    obtain ⟨r, hloop, rfl⟩ := Fallible.map_eq_ok.mp h
    exact ⟨slot, r.2.firstCluster, hslot, rootWritten_of_loop hslot hloop⟩

section RootEffects

variable {w : Volume}

section

variable (h : RootWritten v w name first size slot)
include h

/-- The root directory before and after agree with the written buffer. -/
theorem RootWritten.root_agree
    (he : e < v.geom.rootDirEntryCount) :
    AgreeOn
      (writeDirent (rootBytes v) slot (format83 name.bytes) (first) size)
      (rootBytes w) (direntSize * e) (direntSize * e + direntSize) := by
  intro x _ hx
  have hin := v.geom.direntSize_mul_le he
  exact h.root x (by omega)

/-- The written entry. -/
theorem RootWritten.readDirent_slot :
    readDirent (rootBytes w) slot =
      ⟨format83 name.bytes, attrArchive, first / 2 ^ 16 % 2 ^ 16,
        first % 2 ^ 16, size % 2 ^ 32⟩ := by
  rw [readDirent_congr (h.root_agree h.slot_spec.lt),
    readDirent_writeDirent (format83_length _)]

/-- Every other root entry stays. -/
theorem RootWritten.readDirent_other
    (he : e < v.geom.rootDirEntryCount) (hne : e ≠ slot) :
    readDirent (rootBytes w) e = readDirent (rootBytes v) e := by
  rw [readDirent_congr (h.root_agree he), readDirent_congr (agreeOn_writeDirent hne)]

theorem RootWritten.firstByte_other
    (he : e < v.geom.rootDirEntryCount) (hne : e ≠ slot) :
    firstByte (rootBytes w) e = firstByte (rootBytes v) e := by
  rw [firstByte_eq_head, firstByte_eq_head, h.readDirent_other he hne]

theorem RootWritten.firstByte_slot :
    firstByte (rootBytes w) slot = (format83 name.bytes).headD 0 := by
  rw [firstByte_eq_head, h.readDirent_slot]

/-- The new entry is visible, unless its name marks it as deleted. -/
theorem RootWritten.visible_slot
    (hname : (format83 name.bytes).headD 0 ≠ 0xE5) :
    Visible (rootBytes w) v.geom.rootDirEntryCount slot := by
  have hlt := h.slot_spec.lt
  refine ⟨hlt, ?_, ?_, ?_⟩
  · intro j hj
    by_cases hjs : j = slot
    · rw [hjs, h.firstByte_slot]
      exact format83_head_ne_zero name
    · rw [h.firstByte_other (by omega) hjs]
      exact h.slot_spec.before j (by omega)
  · rw [h.firstByte_slot]
    exact hname
  · rw [h.readDirent_slot]
    show ¬ (attrArchive = attrLongName ∨ attrArchive &&& attrVolumeId ≠ 0)
    decide

/-- Other entries are visible exactly if they were. -/
theorem RootWritten.visible_other
    (hne : e ≠ slot) (htail : slot < e → e < v.geom.rootDirEntryCount →
      firstByte (rootBytes v) slot = 0 → firstByte (rootBytes v) e = 0) :
    Visible (rootBytes w) v.geom.rootDirEntryCount e ↔
      Visible (rootBytes v) v.geom.rootDirEntryCount e := by
  constructor
  · rintro ⟨hlt, hend, hdel, hskip⟩
    have hbyte := h.firstByte_other hlt hne
    refine ⟨hlt, fun j hj => ?_, ?_, ?_⟩
    · by_cases hjs : j = slot
      · subst hjs
        -- the slot did not end the directory, or entry `e` would be hidden
        intro hzero
        refine hend e (le_refl e) ?_
        rw [hbyte]
        exact htail (by omega) hlt hzero
      · rw [← h.firstByte_other (by omega) hjs]
        exact hend j hj
    · rwa [← hbyte]
    · rwa [← h.readDirent_other hlt hne]
  · rintro ⟨hlt, hend, hdel, hskip⟩
    refine ⟨hlt, fun j hj => ?_, ?_, ?_⟩
    · by_cases hjs : j = slot
      · rw [hjs, h.firstByte_slot]
        exact format83_head_ne_zero name
      · rw [h.firstByte_other (by omega) hjs]
        exact hend j hj
    · rwa [h.firstByte_other hlt hne]
    · rwa [h.readDirent_other hlt hne]

end

/-- No visible entry before the slot has the name. -/
theorem SlotSpec.name_ne
    (h : SlotSpec v name slot) (he : e < slot)
    (hvis : Visible (rootBytes v) v.geom.rootDirEntryCount e) :
    (readDirent (rootBytes v) e).name ≠ format83 name.bytes := by
  rcases h.kind with ⟨hfound, _, _⟩ | ⟨hnone, _⟩
  · rw [scanSlots_fst] at hfound
    exact (findFrom_zero_eq_some.mp hfound).2.2 e he hvis
  · rw [scanSlots_fst] at hnone
    exact findFrom_zero_eq_none.mp hnone e hvis

/-- Searching the root for the name finds the written entry. -/
theorem RootWritten.find_slot
    (h : RootWritten v w name first size slot)
    (hname : (format83 name.bytes).headD 0 ≠ 0xE5) :
    findFrom (rootBytes w) (format83 name.bytes) v.geom.rootDirEntryCount 0 =
      some slot := by
  refine findFrom_zero_eq_some.mpr ⟨h.visible_slot hname, ?_, ?_⟩
  · rw [h.readDirent_slot]
  · intro j hj hvis
    have hlt := h.slot_spec.lt
    rw [h.readDirent_other (by omega) (by omega)]
    exact h.slot_spec.name_ne hj
      ((h.visible_other (by omega) (by omega)).mp hvis)

end RootEffects

section Effects

variable {new : List Nat}

theorem WriteEffect.rootWritten
    (h : WriteEffect v v' name data size slot fat new) :
    RootWritten v v' name (new.headD 0) size slot :=
  ⟨h.geom, h.slot_spec, h.root⟩

/-- The first cluster fits the 16-bit field. -/
theorem WriteEffect.first_lt
    (hsmall : v.geom.fatCacheEntries ≤ eocMin)
    (h : WriteEffect v v' name data size slot fat new) : new.headD 0 < 2 ^ 16 := by
  cases hnew : new with
  | nil =>
      exact Nat.zero_lt_succ _
  | cons c cs =>
      have hlt := (h.clusters c (by rw [hnew]; simp)).1.2
      show c < 2 ^ 16
      unfold eocMin at hsmall
      omega

theorem WriteEffect.firstCluster_slot
    (hsmall : v.geom.fatCacheEntries ≤ eocMin)
    (h : WriteEffect v v' name data size slot fat new) :
    (readDirent (rootBytes v') slot).firstCluster = new.headD 0 := by
  have hlt := h.first_lt hsmall
  rw [h.rootWritten.readDirent_slot, Dirent.firstCluster]
  simp only
  omega

theorem freeExisting_le
    {existing : Option Nat}
    (h : freeExisting v existing = .ok fat) (c : Nat) : fat c ≤ v.fat c := by
  cases existing with
  | none =>
      cases h
      exact le_refl _
  | some e =>
      exact freeChain_le h c

/-- The bytes of the cache, read back as an entry. -/
theorem readLE_fatImage
    {disk : Store} {a c : Nat}
    (hbytes : ∀ i, i < 2 → disk (a + 2 * c + i) = fatImage fat (2 * c + i))
    (hword : fat c < 2 ^ 16) : readLE disk (a + 2 * c) 2 = fat c := by
  have hlow := hbytes 0 (by omega)
  have hhigh := hbytes 1 (by omega)
  have hindex : (2 * c + 1) / 2 = c := by omega
  have hodd : (2 * c + 1) % 2 = 1 := by omega
  simp only [fatImage, Nat.add_zero, Nat.mul_div_cancel_left c Nat.two_pos,
    Nat.mul_mod_right, hindex, hodd, pow_zero, pow_one, Nat.div_one] at hlow hhigh
  simp only [readLE, hlow, hhigh, UInt8.toNat_ofNat']
  omega

/-- The cache equals the first FAT on the disk. -/
def Synced (v : Volume) : Prop :=
  ∀ c, c < v.geom.fatCacheEntries → v.fat c = diskFat v.geom v.device.disk c

/-- The cache as it was read from the disk. -/
theorem synced_diskFat
    (g : Geometry) (d : Device) : Synced ⟨g, diskFat g d.disk, d⟩ :=
  fun _ _ => rfl

/-- After a call the cache and the disk agree again. -/
theorem WriteEffect.synced
    (h : WriteEffect v v' name data size slot fat new)
    (hsync : Synced v) : Synced v' := by
  intro c hc
  have hfatBytes := v.geom.fatCacheEntries_bytes
  rw [h.geom] at hc ⊢
  have hword : v'.fat c < 2 ^ 16 := by
    by_cases hnew : c ∈ new
    · exact h.words c hnew
    · rw [h.links c hnew]
      refine lt_of_le_of_lt (freeExisting_le h.freed c) ?_
      rw [hsync c hc]
      exact readLE_lt _ _ 2
  refine (readLE_fatImage ?_ hword).symm
  intro i hi
  rw [Nat.add_assoc]
  exact h.fat_image (2 * c + i) (by omega)

end Effects

end Fat16
end RebornOS
