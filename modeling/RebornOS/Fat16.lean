import RebornOS.ByteStore
import RebornOS.Fallible

/-!
# The FAT16 driver

A shallow embedding of `kernel/src/fat16.c`: mounting, name formatting,
directory scans, path resolution, reading, listing, and the creation or
replacement of a file in the root directory.

The block device is a store of bytes together with the write requests it has
received.  Buffers from `kmalloc` are modelled as stores of their own; whether
a request for `size` bytes is served is a parameter, `serves size`.  A `Panic` ends
a call: a panic of the driver; a loop that does not end, since a walk that visits more
clusters than the FAT has entries has met a cycle; or an access behind the end of a
buffer.  The code does not stop at such an access.  What it does to the memory there,
and afterwards, is not part of the model, so results about calls say which accesses
they exclude (`FreesInside`).

A C string is the list of its bytes before the terminating `NUL`.
-/

namespace RebornOS
namespace Fat16

open ByteStore Function

/-- `BLOCKDEV_SECTOR_SIZE`. -/
def sectorSize : Nat := 512

/-- `sizeof(fat16_dirent_t)`. -/
def direntSize : Nat := 32

/-- `FAT16_EOC_MIN`. -/
def eocMin : Nat := 0xFFF8

/-- `FAT16_EOC_MARK`. -/
def eocMark : Nat := 0xFFFF

/-- `FAT16_FREE_MARK`. -/
def freeMark : Nat := 0

/-- `ATTR_LONG_NAME`. -/
def attrLongName : UInt8 := 0x0F

/-- `ATTR_VOLUME_ID`. -/
def attrVolumeId : UInt8 := 0x08

/-- `ATTR_DIRECTORY`. -/
def attrDirectory : UInt8 := 0x10

/-- `ATTR_ARCHIVE`. -/
def attrArchive : UInt8 := 0x20

/-- Why a call does not return. -/
inductive Panic where
  /-- `missing 0x55AA signature on LBA 0`. -/
  | missingSignature
  /-- `LBA 0 is neither a FAT16 boot sector nor an MBR with a usable partition`. -/
  | noPartition
  /-- `MBR partition 0 doesn't look like FAT16 either`. -/
  | notFat16
  /-- `kmalloc failed for the FAT cache`. -/
  | fatCacheAlloc
  /-- `kmalloc failed for the root directory buffer`. -/
  | rootAlloc
  /-- `kmalloc failed for a directory buffer`. -/
  | directoryAlloc
  /-- `fat16_read: kmalloc failed for a cluster buffer`. -/
  | clusterAlloc
  /-- `cluster chain walked off the end of the FAT`. -/
  | walkedOff (cluster : Nat)
  /-- `disk full (no free clusters)`. -/
  | diskFull
  /-- `root directory is full`. -/
  | rootFull
  /-- Not followed further: `fs.fat_cache[cluster]` behind the cache. -/
  | fatIndex (cluster : Nat)
  /-- Not followed further: a directory whose size does not fit `uint32_t`. -/
  | bufferOverrun
  /-- A loop over a cyclic chain. -/
  | endless
deriving DecidableEq

/-- A C string. -/
structure CString where
  bytes : List UInt8
  noNul : 0 ∉ bytes

section Device

/-- `blockdev_write_sectors(lba, count, data)`. -/
structure Request where
  lba : Nat
  count : Nat
  data : Nat → UInt8

/-- The disk's bytes and the write requests it has received, oldest first. -/
structure Device where
  disk : Store
  requests : List Request

/-- `blockdev_write_sectors`. -/
def Device.write (d : Device) (r : Request) : Device where
  disk := copyIn d.disk (r.lba * sectorSize) (r.count * sectorSize) r.data
  requests := d.requests ++ [r]

/-- The buffer `boot_sector` after sector `lba` was read into it. -/
def bootSector (disk : Store) (lba : Nat) : Store :=
  fun i => if i < sectorSize then disk (lba * sectorSize + i) else 0

end Device

section Mounting

/-- The fields of `fat16_bpb_t` that the driver reads. -/
structure Bpb where
  bytesPerSector : Nat
  sectorsPerCluster : Nat
  reservedSectorCount : Nat
  numFats : Nat
  rootEntryCount : Nat
  fatSize16 : Nat

/-- The boot sector at its real offsets. -/
def readBpb (sector : Store) : Bpb where
  bytesPerSector := readLE sector 11 2
  sectorsPerCluster := readLE sector 13 1
  reservedSectorCount := readLE sector 14 2
  numFats := readLE sector 16 1
  rootEntryCount := readLE sector 17 2
  fatSize16 := readLE sector 22 2

/-- `looks_like_fat16_bpb`. -/
def looksLikeFat16Bpb (b : Bpb) : Prop :=
  b.bytesPerSector = sectorSize ∧ b.sectorsPerCluster ≠ 0 ∧ b.numFats ≠ 0 ∧
    b.fatSize16 ≠ 0 ∧ b.rootEntryCount ≠ 0

instance (b : Bpb) : Decidable (looksLikeFat16Bpb b) :=
  inferInstanceAs (Decidable (_ ∧ _ ∧ _ ∧ _ ∧ _))

/--
The numbers that `fat16_init` takes from an accepted boot sector.  The bounds
come from the widths of the on-disk fields.
-/
structure Geometry where
  partitionLba : Nat
  sectorsPerCluster : Nat
  reservedSectorCount : Nat
  numFats : Nat
  rootDirEntryCount : Nat
  fatSize16 : Nat
  sectorsPerCluster_pos : 0 < sectorsPerCluster
  sectorsPerCluster_lt : sectorsPerCluster < 2 ^ 8
  reservedSectorCount_lt : reservedSectorCount < 2 ^ 16
  numFats_pos : 0 < numFats
  numFats_lt : numFats < 2 ^ 8
  rootDirEntryCount_pos : 0 < rootDirEntryCount
  rootDirEntryCount_lt : rootDirEntryCount < 2 ^ 16
  fatSize16_pos : 0 < fatSize16
  fatSize16_lt : fatSize16 < 2 ^ 16

/-- The geometry of the volume with the boot sector `sector`. -/
def geometryOf
    (partitionLba : Nat) (sector : Store)
    (h : looksLikeFat16Bpb (readBpb sector)) : Geometry where
  partitionLba := partitionLba
  sectorsPerCluster := (readBpb sector).sectorsPerCluster
  reservedSectorCount := (readBpb sector).reservedSectorCount
  numFats := (readBpb sector).numFats
  rootDirEntryCount := (readBpb sector).rootEntryCount
  fatSize16 := (readBpb sector).fatSize16
  sectorsPerCluster_pos := Nat.pos_of_ne_zero h.2.1
  sectorsPerCluster_lt := readLE_lt sector 13 1
  reservedSectorCount_lt := readLE_lt sector 14 2
  numFats_pos := Nat.pos_of_ne_zero h.2.2.1
  numFats_lt := readLE_lt sector 16 1
  rootDirEntryCount_pos := Nat.pos_of_ne_zero h.2.2.2.2
  rootDirEntryCount_lt := readLE_lt sector 17 2
  fatSize16_pos := Nat.pos_of_ne_zero h.2.2.2.1
  fatSize16_lt := readLE_lt sector 22 2

namespace Geometry

variable (g : Geometry)

/-- `fs.cluster_size_bytes`. -/
def clusterSizeBytes : Nat := sectorSize * g.sectorsPerCluster

/-- `fs.fat_start_sector`. -/
def fatStartSector : Nat := g.reservedSectorCount

/-- `fs.root_dir_start_sector`. -/
def rootDirStartSector : Nat :=
  g.reservedSectorCount + g.numFats * g.fatSize16

/-- `fs.root_dir_sectors`. -/
def rootDirSectors : Nat :=
  (g.rootDirEntryCount * direntSize + sectorSize - 1) / sectorSize

/-- `fs.first_data_sector`. -/
def firstDataSector : Nat := g.rootDirStartSector + g.rootDirSectors

/-- `fat_bytes`. -/
def fatBytes : Nat := g.fatSize16 * sectorSize

/-- `fs.fat_cache_entries`. -/
def fatCacheEntries : Nat := g.fatBytes / 2

/-- `cluster_to_sector`. -/
def clusterToSector (cluster : Nat) : Nat :=
  (g.firstDataSector + (cluster - 2) * g.sectorsPerCluster) % 2 ^ 32

/-- The LBA of a sector of the volume. -/
def lba (sector : Nat) : Nat := g.partitionLba + sector

/-- The disk address of a sector of the volume. -/
def sectorAddr (sector : Nat) : Nat := g.lba sector * sectorSize

/-- The disk address of a cluster. -/
def clusterAddr (cluster : Nat) : Nat := g.sectorAddr (g.clusterToSector cluster)

end Geometry

/-- A mounted volume: `fs` with its FAT cache, and the device under it. -/
structure Volume where
  geom : Geometry
  fat : Nat → Nat
  device : Device

/-- Whether `kmalloc(size)` returns a block. -/
def kmallocOk (serves : Nat → Bool) (size : Nat) : Prop :=
  size ≠ 0 ∧ serves size = true

instance (serves : Nat → Bool) (size : Nat) :
    Decidable (kmallocOk serves size) :=
  inferInstanceAs (Decidable (_ ∧ _))

/-- The first FAT on the disk, as `uint16_t` entries. -/
def diskFat (g : Geometry) (disk : Store) (c : Nat) : Nat :=
  readLE disk (g.sectorAddr g.fatStartSector + 2 * c) 2

/-- The end of `fat16_init`: read and cache the first FAT. -/
def mountFat
    (serves : Nat → Bool) (g : Geometry) (disk : Store) :
    Except Panic Volume :=
  if kmallocOk serves g.fatBytes then
    .ok ⟨g, diskFat g disk, ⟨disk, []⟩⟩
  else
    .error .fatCacheAlloc

/--
The first part of `fat16_init`, at boot, when `fs` is still zeroed: find the
volume's boot sector at LBA 0 or behind an MBR.
-/
def bootGeometry (disk : Store) : Except Panic Geometry :=
  let sector := bootSector disk 0
  if sector 510 ≠ 0x55 ∨ sector 511 ≠ 0xAA then
    .error .missingSignature
  else if h : looksLikeFat16Bpb (readBpb sector) then
    .ok (geometryOf 0 sector h)
  else
    let partitionLba := readLE sector (0x1BE + 8) 4
    if partitionLba = 0 then
      .error .noPartition
    else
      let sector := bootSector disk partitionLba
      if h : looksLikeFat16Bpb (readBpb sector) then
        .ok (geometryOf partitionLba sector h)
      else
        .error .notFat16

/-- `fat16_init`. -/
def fat16Init (serves : Nat → Bool) (disk : Store) : Except Panic Volume := do
  let g ← bootGeometry disk
  mountFat serves g disk

end Mounting

section Names

/-- ASCII lower case letters become upper case. -/
def upper (c : UInt8) : UInt8 :=
  if 0x61 ≤ c ∧ c ≤ 0x7A then c - 0x20 else c

/-- `bytes`, cut or filled with spaces to `n` bytes. -/
def padded (n : Nat) (bytes : List UInt8) : List UInt8 :=
  bytes.take n ++ List.replicate (n - bytes.length) 0x20

/-- `format_83`: the eleven bytes of a short name. -/
def format83 (name : List UInt8) : List UInt8 :=
  let base := name.takeWhile (fun c => c ≠ 0x2E)
  let ext := (name.dropWhile (fun c => c ≠ 0x2E)).drop 1
  padded 8 (base.map upper) ++ padded 3 (ext.map upper)

end Names

section Directories

/-- The fields of `fat16_dirent_t` that the driver reads. -/
structure Dirent where
  name : List UInt8
  attr : UInt8
  firstClusterHi : Nat
  firstClusterLo : Nat
  fileSize : Nat
deriving DecidableEq

/-- Entry `e` of a directory buffer. -/
def readDirent (buf : Store) (e : Nat) : Dirent where
  name := (List.range 11).map (fun i => buf (direntSize * e + i))
  attr := buf (direntSize * e + 11)
  firstClusterHi := readLE buf (direntSize * e + 20) 2
  firstClusterLo := readLE buf (direntSize * e + 26) 2
  fileSize := readLE buf (direntSize * e + 28) 4

/-- `name[0]` of entry `e`. -/
def firstByte (buf : Store) (e : Nat) : UInt8 := buf (direntSize * e)

/-- `((uint32_t)hi << 16) | lo`. -/
def Dirent.firstCluster (d : Dirent) : Nat :=
  d.firstClusterHi * 2 ^ 16 + d.firstClusterLo

/-- `attr & ATTR_DIRECTORY`. -/
def Dirent.IsDirectory (d : Dirent) : Prop := d.attr &&& attrDirectory ≠ 0

instance (d : Dirent) : Decidable d.IsDirectory :=
  inferInstanceAs (Decidable (_ ≠ _))

/-- Long-name fragments and the volume label. -/
def Dirent.Skipped (d : Dirent) : Prop :=
  d.attr = attrLongName ∨ d.attr &&& attrVolumeId ≠ 0

instance (d : Dirent) : Decidable d.Skipped :=
  inferInstanceAs (Decidable (_ ∨ _))

/-- The loop of `find_entry_in_dir`, with `n` entries left from `e` on. -/
def findFrom (buf : Store) (want : List UInt8) : Nat → Nat → Option Nat
  | 0, _ => none
  | n + 1, e =>
      if firstByte buf e = 0 then
        none
      else if firstByte buf e = 0xE5 ∨ (readDirent buf e).Skipped then
        findFrom buf want n (e + 1)
      else if (readDirent buf e).name = want then
        some e
      else
        findFrom buf want n (e + 1)

end Directories

section Reading

variable (serves : Nat → Bool) (v : Volume)

/-- `fat_next_cluster`. -/
def fatNextCluster (cluster : Nat) : Except Panic Nat :=
  if cluster < v.geom.fatCacheEntries then
    .ok (v.fat cluster)
  else
    .error (.walkedOff cluster)

/-- The clusters that a walk from `c` visits. -/
def walkFrom : Nat → Nat → Except Panic (List Nat)
  | 0, _ => .error .endless
  | fuel + 1, c =>
      if 2 ≤ c ∧ c < eocMin then do
        let next ← fatNextCluster v c
        let rest ← walkFrom fuel next
        .ok (c :: rest)
      else
        .ok []

/-- A walk that visits more clusters than the FAT has entries is endless. -/
def walkChain (c : Nat) : Except Panic (List Nat) :=
  walkFrom v (v.geom.fatCacheEntries + 1) c

/-- The root directory's bytes. -/
def rootBytes : Store :=
  fun i => v.device.disk (v.geom.sectorAddr v.geom.rootDirStartSector + i)

/-- The bytes of a list of clusters, one after the other. -/
def clusterBytes (clusters : List Nat) : Store :=
  fun i =>
    v.device.disk
      (v.geom.clusterAddr (clusters.getD (i / v.geom.clusterSizeBytes) 0) +
        i % v.geom.clusterSizeBytes)

/-- `read_root_dir`. -/
def readRootDir : Except Panic Store :=
  if kmallocOk serves (v.geom.rootDirSectors * sectorSize) then
    .ok (rootBytes v)
  else
    .error .rootAlloc

/-- `read_subdir_clusters`. -/
def readSubdirClusters (firstCluster : Nat) : Except Panic (Store × Nat) := do
  let clusters ← walkChain v firstCluster
  let total := clusters.length * v.geom.clusterSizeBytes % 2 ^ 32
  if kmallocOk serves total then
    if total < clusters.length * v.geom.clusterSizeBytes then
      .error .bufferOverrun
    else
      .ok (clusterBytes v clusters, total)
  else
    .error .directoryAlloc

/-- `read_directory`: a buffer and the number of its entries. -/
def readDirectory (dirCluster : Nat) : Except Panic (Store × Nat) :=
  if dirCluster = 0 then do
    let buf ← readRootDir serves v
    .ok (buf, v.geom.rootDirEntryCount)
  else do
    let r ← readSubdirClusters serves v dirCluster
    .ok (r.1, r.2 / direntSize)

/-- `find_entry_in_dir`. -/
def findEntryInDir (dirCluster : Nat) (want : List UInt8) :
    Except Panic (Option Dirent) := do
  let r ← readDirectory serves v dirCluster
  .ok ((findFrom r.1 want r.2 0).map (readDirent r.1))

/-- The component that starts a path: at most 12 bytes up to a slash. -/
def component (path : List UInt8) : List UInt8 :=
  (path.takeWhile (fun c => c ≠ 0x2F)).take 12

/-- The path after its first component and the slashes behind it. -/
def pathRest (path : List UInt8) : List UInt8 :=
  (path.drop (component path).length).dropWhile (fun c => c = 0x2F)

/-- The loop of `resolve_parent_dir`; each round consumes a byte. -/
def resolveFrom : Nat → Nat → List UInt8 →
    Except Panic (Option (Nat × List UInt8))
  | 0, _, _ => .error .endless
  | fuel + 1, dir, path =>
      if pathRest path = [] then
        .ok (some (dir, component path))
      else do
        match ← findEntryInDir serves v dir (format83 (component path)) with
        | none => .ok none
        | some entry =>
            if entry.IsDirectory then
              resolveFrom fuel entry.firstCluster (pathRest path)
            else
              .ok none

/-- `resolve_parent_dir`: the directory and the last component. -/
def resolveParentDir (path : List UInt8) :
    Except Panic (Option (Nat × List UInt8)) :=
  resolveFrom serves v (path.length + 1) 0 path

/-- `fat16_file_t`. -/
structure File where
  firstCluster : Nat
  size : Nat
deriving DecidableEq

/-- `fat16_open`. -/
def fat16Open (path : CString) : Except Panic (Option File) := do
  match ← resolveParentDir serves v path.bytes with
  | none => .ok none
  | some (dir, leaf) =>
      let entry ← findEntryInDir serves v dir (format83 leaf)
      .ok (entry.map (fun d => ⟨d.firstCluster, d.fileSize⟩))

/--
The loop of `fat16_read`: `remaining` bytes are still to be copied to offset
`dst` of the caller's buffer.  Every round copies at least one byte.
-/
def readLoop : Nat → Nat → Nat → Nat → Store → Except Panic (Nat × Store)
  | 0, _, remaining, _, buf => .ok (remaining, buf)
  | fuel + 1, cluster, remaining, dst, buf =>
      if 0 < remaining ∧ 2 ≤ cluster ∧ cluster < eocMin then do
        let chunk := min v.geom.clusterSizeBytes remaining
        let buf :=
          copyIn buf dst chunk (fun i =>
            v.device.disk (v.geom.clusterAddr cluster + i))
        let next ← fatNextCluster v cluster
        readLoop fuel next (remaining - chunk) (dst + chunk) buf
      else
        .ok (remaining, buf)

/-- `fat16_read`: the count it returns and the caller's buffer afterwards. -/
def fat16Read (file : File) (buf : Store) (maxLen : Nat) :
    Except Panic (Nat × Store) :=
  if kmallocOk serves v.geom.clusterSizeBytes then do
    let total := min file.size maxLen
    let r ← readLoop v total file.firstCluster total 0 buf
    .ok (total - r.1, r.2)
  else
    .error .clusterAlloc

end Reading

section Listing

variable (serves : Nat → Bool) (v : Volume)

/-- The loop of `resolve_directory`; a round with a component consumes a byte. -/
def resolveDirectoryFrom : Nat → Nat → List UInt8 → Except Panic (Option Nat)
  | 0, _, _ => .error .endless
  | fuel + 1, dir, path =>
      if component path = [] then
        .ok (some dir)
      else do
        match ← findEntryInDir serves v dir (format83 (component path)) with
        | none => .ok none
        | some entry =>
            if entry.IsDirectory then
              if pathRest path = [] then
                .ok (some entry.firstCluster)
              else
                resolveDirectoryFrom fuel entry.firstCluster (pathRest path)
            else
              .ok none

/-- `resolve_directory`, which treats `NULL` like the empty path. -/
def resolveDirectory (path : List UInt8) : Except Panic (Option Nat) :=
  if path = [] then
    .ok (some 0)
  else
    resolveDirectoryFrom serves v (path.length + 1) 0 path

/-- `line`: the parts of the name up to their first space, and a newline. -/
def listLine (d : Dirent) : List UInt8 :=
  let base := (d.name.take 8).takeWhile (fun c => c ≠ 0x20)
  let ext := (d.name.drop 8).takeWhile (fun c => c ≠ 0x20)
  if d.name.getD 8 0x20 ≠ 0x20 then
    base ++ 0x2E :: ext ++ [0x0A]
  else
    base ++ [0x0A]

/-- The loop of `fat16_list_dir`, with `n` entries left from `e` on. -/
def listFrom (dir : Store) (maxLen : Nat) :
    Nat → Nat → Nat → Store → Nat × Store
  | 0, _, written, buf => (written, buf)
  | n + 1, e, written, buf =>
      if firstByte dir e = 0 then
        (written, buf)
      else if firstByte dir e = 0xE5 ∨ (readDirent dir e).Skipped then
        listFrom dir maxLen n (e + 1) written buf
      else
        let line := listLine (readDirent dir e)
        let next := (written + line.length) % 2 ^ 32
        if maxLen ≤ next then
          (written, buf)
        else
          listFrom dir maxLen n (e + 1) next
            (copyIn buf written line.length (fun i => line.getD i 0))

/-- `fat16_list_dir`: the value it returns and the caller's buffer afterwards. -/
def fat16ListDir (path : CString) (buf : Store) (maxLen : Nat) :
    Except Panic (Int × Store) := do
  match ← resolveDirectory serves v path.bytes with
  | none => .ok (-1, buf)
  | some dir =>
      let r ← readDirectory serves v dir
      let (written, buf) := listFrom r.1 maxLen r.2 0 0 buf
      let buf :=
        if 0 < maxLen then
          fill buf (if written < maxLen then written else maxLen - 1) 1 0
        else
          buf
      .ok (Int.bmod written (2 ^ 32), buf)

end Listing

section Writing

/-- `write_sectors`. -/
def writeSectors (v : Volume) (sector count : Nat) (data : Nat → UInt8) :
    Volume :=
  { v with device := v.device.write ⟨v.geom.lba sector, count, data⟩ }

/--
The scan of `fat16_write_file`, with `n` entries left from `e` on: the existing
entry of this name, and the first reusable slot.
-/
def scanRoot (buf : Store) (want : List UInt8) :
    Nat → Nat → Option Nat → Option Nat × Option Nat
  | 0, _, free => (none, free)
  | n + 1, e, free =>
      if firstByte buf e = 0 then
        (none, free.or (some e))
      else if firstByte buf e = 0xE5 then
        scanRoot buf want n (e + 1) (free.or (some e))
      else if (readDirent buf e).Skipped then
        scanRoot buf want n (e + 1) free
      else if (readDirent buf e).name = want then
        (some e, free)
      else
        scanRoot buf want n (e + 1) free

/--
The loop that frees the replaced file's clusters.  It has no bounds check; the model
follows it up to the first index behind the cache.
-/
def freeChain (entries : Nat) :
    Nat → (Nat → Nat) → Nat → Except Panic (Nat → Nat)
  | 0, _, _ => .error .endless
  | fuel + 1, fat, c =>
      if 2 ≤ c ∧ c < eocMin then
        if c < entries then
          freeChain entries fuel (update fat c freeMark) (fat c)
        else
          .error (.fatIndex c)
      else
        .ok fat

/-- `alloc_cluster`. -/
def allocCluster (v : Volume) : Option Nat :=
  (List.range v.geom.fatCacheEntries).find?
    (fun c => 2 ≤ c ∧ v.fat c = freeMark)

/-- `clusters_needed`, in 32-bit arithmetic. -/
def clustersNeeded (g : Geometry) (size : Nat) : Nat :=
  if size = 0 then 0
  else (size + g.clusterSizeBytes - 1) % 2 ^ 32 / g.clusterSizeBytes

/-- The variables of the loop that writes the data. -/
structure Progress where
  firstCluster : Nat
  prevCluster : Nat
  offset : Nat
  remaining : Nat

/-- The links for the newly allocated cluster `c`. -/
def linkCluster (fat : Nat → Nat) (prev c : Nat) : Nat → Nat :=
  let fat := update fat c eocMark
  if prev = 0 then fat else update fat prev (c % 2 ^ 16)

/-- `cluster_buf`: zeroes with the next chunk of the data copied over them. -/
def clusterImage (data : Nat → UInt8) (offset chunk : Nat) : Nat → UInt8 :=
  fun i => if i < chunk then data (offset + i) else 0

/-- The loop that allocates and writes `n` clusters. -/
def writeClusters (data : Nat → UInt8) :
    Nat → Volume → Progress → Except (Panic × Volume) (Volume × Progress)
  | 0, v, p => .ok (v, p)
  | n + 1, v, p =>
      match allocCluster v with
      | none => .error (.diskFull, v)
      | some c =>
          let linked := { v with fat := linkCluster v.fat p.prevCluster c }
          let chunk := min v.geom.clusterSizeBytes p.remaining
          let written :=
            writeSectors linked (v.geom.clusterToSector c)
              v.geom.sectorsPerCluster (clusterImage data p.offset chunk)
          writeClusters data n written
            { firstCluster := if p.prevCluster = 0 then c else p.firstCluster
              prevCluster := c
              offset := p.offset + chunk
              remaining := p.remaining - chunk }

/-- The directory entry that `fat16_write_file` stores. -/
def writeDirent (buf : Store) (e : Nat) (name : List UInt8)
    (firstCluster size : Nat) : Store :=
  let m := fill buf (direntSize * e) direntSize 0
  let m := copyIn m (direntSize * e) 11 (fun i => name.getD i 0)
  let m := fill m (direntSize * e + 11) 1 attrArchive
  let m := writeLE m (direntSize * e + 20) 2 (firstCluster / 2 ^ 16)
  let m := writeLE m (direntSize * e + 26) 2 (firstCluster % 2 ^ 16)
  writeLE m (direntSize * e + 28) 4 size

/-- The FAT cache as bytes. -/
def fatImage (fat : Nat → Nat) : Nat → UInt8 :=
  fun i => UInt8.ofNat (fat (i / 2) / 256 ^ (i % 2))

/-- `write_fat_cache_to_disk`. -/
def writeFatCacheToDisk (v : Volume) : Volume :=
  writeSectors v v.geom.fatStartSector
    (v.geom.fatCacheEntries * 2 / sectorSize) (fatImage v.fat)

/-- The sector of the root directory that holds entry `slot`, written back. -/
def writeRootSector (v : Volume) (root : Store) (slot : Nat) : Volume :=
  let index := slot / (sectorSize / direntSize)
  writeSectors v (v.geom.rootDirStartSector + index) 1
    (fun i => root (index * sectorSize + i))

/-- `existing_index` and `free_index`. -/
def scanSlots (v : Volume) (name : CString) : Option Nat × Option Nat :=
  scanRoot (rootBytes v) (format83 name.bytes) v.geom.rootDirEntryCount 0 none

/-- `slot`. -/
def chooseSlot (v : Volume) (name : CString) : Option Nat :=
  (scanSlots v name).1.or (scanSlots v name).2

/-- The FAT after the clusters of an existing file were freed. -/
def freeExisting (v : Volume) (existing : Option Nat) :
    Except Panic (Nat → Nat) :=
  match existing with
  | none => .ok v.fat
  | some e =>
      freeChain v.geom.fatCacheEntries (v.geom.fatCacheEntries + 2) v.fat
        (readDirent (rootBytes v) e).firstCluster

/--
`fat16_write_file`, for data of `size` bytes.  A panic comes with the volume as
it is then.  `cluster_buf` is not checked: if it is `NULL`, the call goes on with the
memory at address 0 in its place, which is mapped and writable.
-/
def fat16WriteFile
    (serves : Nat → Bool) (v : Volume) (name : CString)
    (data : Nat → UInt8) (size : Nat) :
    Except (Panic × Volume) Volume :=
  match readRootDir serves v with
  | .error e => .error (e, v)
  | .ok root =>
      match chooseSlot v name with
      | none => .error (.rootFull, v)
      | some slot =>
          match freeExisting v (scanSlots v name).1 with
          | .error e => .error (e, v)
          | .ok fat => do
              let r ←
                writeClusters data (clustersNeeded v.geom size) { v with fat := fat }
                  ⟨0, 0, 0, size⟩
              let root :=
                writeDirent root slot (format83 name.bytes) r.2.firstCluster size
              .ok (writeFatCacheToDisk (writeRootSector r.1 root slot))

end Writing

end Fat16
end RebornOS
