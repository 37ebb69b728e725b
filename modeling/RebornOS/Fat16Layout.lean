import RebornOS.Fat16
import RebornOS.TableChain

/-!
# Where things are on a FAT16 volume

The FAT, the root directory and the data clusters lie one after the other, and
different clusters do not overlap.  The arithmetic of `cluster_to_sector` does
not wrap for any cluster number that a chain walk accepts.
-/

namespace RebornOS
namespace Fat16

open ByteStore TableChain

namespace Geometry

variable (g : Geometry)

/-- The disk address of the first FAT. -/
def fatAddr : Nat := g.sectorAddr g.fatStartSector

/-- The disk address of the root directory. -/
def rootAddr : Nat := g.sectorAddr g.rootDirStartSector

/-- The disk address of cluster 2. -/
def dataAddr : Nat := g.sectorAddr g.firstDataSector

/-- The size of the root directory's sectors in bytes. -/
def rootDirBytes : Nat := g.rootDirSectors * sectorSize

theorem clusterSizeBytes_pos : 0 < g.clusterSizeBytes :=
  Nat.mul_pos (by decide) g.sectorsPerCluster_pos

theorem clusterSizeBytes_le : g.clusterSizeBytes ≤ 512 * 255 := by
  have hspc := g.sectorsPerCluster_lt
  unfold clusterSizeBytes sectorSize
  omega

theorem rootDirSectors_le : g.rootDirSectors ≤ 4096 := by
  have hcount := g.rootDirEntryCount_lt
  unfold rootDirSectors sectorSize direntSize
  omega

theorem rootDirSectors_pos : 0 < g.rootDirSectors := by
  have hcount := g.rootDirEntryCount_pos
  unfold rootDirSectors sectorSize direntSize
  omega

theorem fatCacheEntries_eq : g.fatCacheEntries = g.fatSize16 * 256 := by
  unfold fatCacheEntries fatBytes sectorSize
  omega

/-- The cache has the size of the FAT. -/
theorem fatCacheEntries_bytes : 2 * g.fatCacheEntries = g.fatBytes := by
  rw [fatCacheEntries_eq]
  unfold fatBytes sectorSize
  omega

/-- The FAT follows the boot sector. -/
theorem boot_before_fat
    (h : 0 < g.reservedSectorCount) :
    g.partitionLba * sectorSize + sectorSize ≤ g.fatAddr := by
  unfold fatAddr sectorAddr lba fatStartSector
  rw [Nat.add_mul]
  exact Nat.add_le_add_left (Nat.le_mul_of_pos_left _ h) _

/-- The FAT ends where the root directory starts, or before. -/
theorem fat_before_root : g.fatAddr + g.fatBytes ≤ g.rootAddr := by
  have hmul : g.fatSize16 ≤ g.numFats * g.fatSize16 :=
    Nat.le_mul_of_pos_left _ g.numFats_pos
  unfold fatAddr rootAddr sectorAddr lba fatStartSector rootDirStartSector
    fatBytes sectorSize
  omega

/-- The data follow the root directory. -/
theorem dataAddr_eq : g.dataAddr = g.rootAddr + g.rootDirBytes := by
  unfold dataAddr rootAddr rootDirBytes sectorAddr lba firstDataSector
    sectorSize
  omega

theorem firstDataSector_lt : g.firstDataSector < 2 ^ 25 := by
  have hmul : g.numFats * g.fatSize16 ≤ 255 * 65535 :=
    Nat.mul_le_mul (by have h := g.numFats_lt; omega)
      (by have h := g.fatSize16_lt; omega)
  have hroot := g.rootDirSectors_le
  have hres := g.reservedSectorCount_lt
  unfold firstDataSector rootDirStartSector
  omega

/-- Clusters follow each other from `dataAddr` on. -/
theorem clusterAddr_eq
    {c : Nat} (hc : c < eocMin) :
    g.clusterAddr c = g.dataAddr + (c - 2) * g.clusterSizeBytes := by
  have hmul : (c - 2) * g.sectorsPerCluster ≤ 65535 * 255 :=
    Nat.mul_le_mul (by unfold eocMin at hc; omega)
      (by have h := g.sectorsPerCluster_lt; omega)
  have hfirst := g.firstDataSector_lt
  have hcomm : (c - 2) * (sectorSize * g.sectorsPerCluster) =
      (c - 2) * g.sectorsPerCluster * sectorSize := by
    ring
  unfold clusterAddr clusterToSector dataAddr sectorAddr lba clusterSizeBytes
  rw [Nat.mod_eq_of_lt (by omega), hcomm]
  ring

/--
`cluster_to_sector` does not wrap for any entry of the FAT, however large the
FAT is: its size is a 16-bit number.
-/
theorem clusterToSector_of_entry
    {c : Nat} (hc : c < g.fatCacheEntries) :
    g.clusterToSector c = g.firstDataSector + (c - 2) * g.sectorsPerCluster := by
  rw [fatCacheEntries_eq] at hc
  have hfat := g.fatSize16_lt
  have hspc := g.sectorsPerCluster_lt
  have hmul : (c - 2) * g.sectorsPerCluster ≤ (65535 * 256 - 2) * 255 :=
    Nat.mul_le_mul (by omega) (by omega)
  have hfats : g.numFats * g.fatSize16 ≤ 255 * 65535 :=
    Nat.mul_le_mul (by have h := g.numFats_lt; omega) (by omega)
  have hroot := g.rootDirSectors_le
  have hres := g.reservedSectorCount_lt
  refine Nat.mod_eq_of_lt ?_
  unfold firstDataSector rootDirStartSector
  omega

/-- So every cluster of the FAT lies behind the root directory. -/
theorem dataAddr_le_of_entry
    {c : Nat} (hc : c < g.fatCacheEntries) : g.dataAddr ≤ g.clusterAddr c := by
  unfold dataAddr clusterAddr sectorAddr lba
  rw [g.clusterToSector_of_entry hc]
  exact Nat.mul_le_mul_right _ (by omega)

/-- Clusters lie behind the root directory. -/
theorem dataAddr_le_clusterAddr
    {c : Nat} (hc : c < eocMin) : g.dataAddr ≤ g.clusterAddr c := by
  rw [g.clusterAddr_eq hc]
  omega

/-- Different clusters do not overlap. -/
theorem clusterAddr_disjoint
    {c d : Nat} (hc : 2 ≤ c) (hc' : c < eocMin) (hd : 2 ≤ d) (hd' : d < eocMin)
    (hne : c ≠ d) :
    g.clusterAddr c + g.clusterSizeBytes ≤ g.clusterAddr d ∨
      g.clusterAddr d + g.clusterSizeBytes ≤ g.clusterAddr c := by
  rw [g.clusterAddr_eq hc', g.clusterAddr_eq hd']
  rcases Nat.lt_or_gt_of_ne hne with hlt | hlt
  · left
    have hmul : (c - 2 + 1) * g.clusterSizeBytes ≤
        (d - 2) * g.clusterSizeBytes :=
      Nat.mul_le_mul_right _ (by omega)
    rw [Nat.add_mul] at hmul
    omega
  · right
    have hmul : (d - 2 + 1) * g.clusterSizeBytes ≤
        (c - 2) * g.clusterSizeBytes :=
      Nat.mul_le_mul_right _ (by omega)
    rw [Nat.add_mul] at hmul
    omega

/-- Every entry of the root directory lies inside its sectors. -/
theorem direntSize_mul_le
    {e : Nat} (he : e < g.rootDirEntryCount) :
    direntSize * e + direntSize ≤ g.rootDirBytes := by
  unfold rootDirBytes rootDirSectors sectorSize direntSize
  omega

/-- The entries fill the root directory's sectors, except perhaps the last one. -/
theorem rootEntries_le : direntSize * g.rootDirEntryCount ≤ g.rootDirBytes := by
  unfold rootDirBytes rootDirSectors sectorSize direntSize
  omega

/-- The bytes of an entry lie in the sector that is written back for it. -/
theorem slot_sector
    {e : Nat} (he : e < g.rootDirEntryCount) :
    let index := e / (sectorSize / direntSize)
    index * sectorSize ≤ direntSize * e ∧
      direntSize * e + direntSize ≤ index * sectorSize + sectorSize ∧
      index * sectorSize + sectorSize ≤ g.rootDirBytes := by
  unfold rootDirBytes rootDirSectors sectorSize direntSize
  simp only
  omega

end Geometry

/-- A cluster of the FAT that can hold data. -/
def IsCluster (g : Geometry) (c : Nat) : Prop :=
  2 ≤ c ∧ c < g.fatCacheEntries

/-- A proper chain: it ends in an end-of-chain value. -/
def ChainAt (g : Geometry) (fat : Nat → Nat) (f : Nat) (cs : List Nat) : Prop :=
  Chain fat (IsCluster g) (fun c => eocMin ≤ c) f cs

/-- The clusters of a directory entry; files without data have none. -/
def EntryChain (g : Geometry) (fat : Nat → Nat) (f : Nat) (cs : List Nat) :
    Prop :=
  (f < 2 ∧ cs = []) ∨ ChainAt g fat f cs

/-- No cluster number is an end-of-chain value. -/
theorem isCluster_not_stop
    {g : Geometry} (hsmall : g.fatCacheEntries ≤ eocMin) :
    ∀ c, IsCluster g c → ¬ eocMin ≤ c := by
  intro c hc
  have hlt := hc.2
  omega

section Requests

variable {v : Volume} {sector count : Nat} {data : Nat → UInt8}

/-- The disk after a write request. -/
theorem writeSectors_disk
    (x : Nat) :
    (writeSectors v sector count data).device.disk x =
      if v.geom.sectorAddr sector ≤ x ∧
          x < v.geom.sectorAddr sector + count * sectorSize then
        data (x - v.geom.sectorAddr sector)
      else
        v.device.disk x := by
  rfl

/-- Bytes outside the written sectors stay. -/
theorem writeSectors_outside
    {x : Nat}
    (h : x < v.geom.sectorAddr sector ∨
      v.geom.sectorAddr sector + count * sectorSize ≤ x) :
    (writeSectors v sector count data).device.disk x = v.device.disk x := by
  rw [writeSectors_disk, if_neg (by omega)]

/-- Bytes inside the written sectors are those of the buffer. -/
theorem writeSectors_inside
    {i : Nat} (h : i < count * sectorSize) :
    (writeSectors v sector count data).device.disk
        (v.geom.sectorAddr sector + i) = data i := by
  rw [writeSectors_disk, if_pos (by omega), Nat.add_sub_cancel_left]

end Requests

end Fat16
end RebornOS
