import RebornOS.Fat16Mirror
import RebornOS.Fat16Paths

/-!
# Stopping in the middle of a write

The disk takes the requests of a call of `fat16_write_file` one sector after the
other.  The machine can stop after any number of them; the disk then holds the
image that those sectors leave behind.

Up to the root directory's sector only clusters that the call allocates have
changed.  From then on everything but the FAT is as after the whole call, and the
FAT is new up to some sector and old behind it.
-/

namespace RebornOS
namespace Fat16

open ByteStore TableChain

variable {disk : Store} {x : Nat} {data : Nat → UInt8} {v : Volume} {new : List Nat}

/-- One sector as the disk takes it. -/
structure SectorWrite where
  lba : Nat
  bytes : Nat → UInt8

/-- The disk after one sector was written. -/
def SectorWrite.apply (disk : Store) (w : SectorWrite) : Store :=
  copyIn disk (w.lba * sectorSize) sectorSize w.bytes

/-- The disk after a list of sectors was written. -/
def applySectors (disk : Store) (ws : List SectorWrite) : Store :=
  ws.foldl SectorWrite.apply disk

/-- The sectors of a request, in order. -/
def Request.sectors (r : Request) : List SectorWrite :=
  (List.range r.count).map (fun i =>
    ⟨r.lba + i, fun j => r.data (i * sectorSize + j)⟩)

section Sectors

theorem applySectors_append
    (ws ws' : List SectorWrite) :
    applySectors disk (ws ++ ws') = applySectors (applySectors disk ws) ws' :=
  List.foldl_append

/-- Bytes outside the written sectors stay. -/
theorem applySectors_outside
    {ws : List SectorWrite} (h : ∀ w, w ∈ ws →
      x < w.lba * sectorSize ∨ w.lba * sectorSize + sectorSize ≤ x) :
    applySectors disk ws x = disk x := by
  induction ws generalizing disk with
  | nil =>
      rfl
  | cons w ws ih =>
      show applySectors (w.apply disk) ws x = disk x
      rw [ih (fun u hu => h u (List.mem_cons_of_mem _ hu))]
      exact copyIn_outside (h w List.mem_cons_self)

/-- The first sectors of a request. -/
theorem applySectors_take
    (r : Request) (j : Nat) :
    applySectors disk (r.sectors.take j) =
      copyIn disk (r.lba * sectorSize) (min j r.count * sectorSize) r.data := by
  have hprefix : ∀ n, applySectors disk ((List.range n).map (fun i =>
        ⟨r.lba + i, fun j => r.data (i * sectorSize + j)⟩)) =
      copyIn disk (r.lba * sectorSize) (n * sectorSize) r.data := by
    intro n
    induction n with
    | zero =>
        funext x
        simp [applySectors, copyIn]
    | succ n ih =>
        have haddr : (r.lba + n) * sectorSize =
            r.lba * sectorSize + n * sectorSize := by ring
        rw [List.range_succ, List.map_append, applySectors_append, ih]
        show copyIn (copyIn disk _ _ _) ((r.lba + n) * sectorSize) sectorSize _ = _
        rw [haddr, copyIn_copyIn, Nat.succ_mul]
  unfold Request.sectors
  rw [← List.map_take, List.take_range, hprefix]

/-- All sectors of a request. -/
theorem applySectors_request
    (r : Request) :
    applySectors disk r.sectors =
      copyIn disk (r.lba * sectorSize) (r.count * sectorSize) r.data := by
  have hall : r.sectors.take r.count = r.sectors :=
    List.take_of_length_le (by simp [Request.sectors])
  rw [← hall, applySectors_take, Nat.min_self]

theorem foldl_write_requests
    (d : Device) (rs : List Request) :
    (rs.foldl Device.write d).requests = d.requests ++ rs := by
  induction rs generalizing d with
  | nil =>
      simp
  | cons r rs ih =>
      rw [List.foldl_cons, ih]
      show d.requests ++ [r] ++ rs = _
      rw [List.append_assoc]
      rfl

/-- A device that has taken requests has taken their sectors. -/
theorem foldl_write_disk
    (d : Device) (rs : List Request) :
    (rs.foldl Device.write d).disk =
      applySectors d.disk (rs.flatMap Request.sectors) := by
  induction rs generalizing d with
  | nil =>
      rfl
  | cons r rs ih =>
      rw [List.foldl_cons, ih, List.flatMap_cons, applySectors_append,
        applySectors_request]
      rfl

/-- The sectors of the data requests lie in the clusters. -/
theorem mem_dataSectors
    {g : Geometry} {cs : List Nat} {offset remaining : Nat} {w : SectorWrite}
    (h : w ∈ (dataRequests g data cs offset remaining).flatMap Request.sectors) :
    ∃ c, c ∈ cs ∧ g.clusterAddr c ≤ w.lba * sectorSize ∧
      w.lba * sectorSize + sectorSize ≤ g.clusterAddr c + g.clusterSizeBytes := by
  induction cs generalizing offset remaining with
  | nil =>
      cases h
  | cons c cs ih =>
      rw [dataRequests, List.flatMap_cons, List.mem_append] at h
      rcases h with hfirst | hrest
      · obtain ⟨i, hi, rfl⟩ := List.mem_map.mp hfirst
        have hlt := List.mem_range.mp hi
        have hmul : (i + 1) * sectorSize ≤ g.sectorsPerCluster * sectorSize :=
          Nat.mul_le_mul_right _ hlt
        refine ⟨c, List.mem_cons_self, ?_⟩
        unfold Geometry.clusterAddr Geometry.sectorAddr Geometry.clusterSizeBytes
        rw [Nat.mul_comm sectorSize g.sectorsPerCluster]
        simp only [Nat.add_mul, Nat.one_mul] at hmul ⊢
        omega
      · obtain ⟨d, hd, hrange⟩ := ih hrest
        exact ⟨d, List.mem_cons_of_mem _ hd, hrange⟩

end Sectors

/-- The single-sector writes that a call issues, in order. -/
def issuedSectors
    (serves : Nat → Bool) (v : Volume) (name : CString) (data : Nat → UInt8)
    (size : Nat) : List SectorWrite :=
  ((lastVolume (fat16WriteFile serves v name data size)).device.requests.drop
    v.device.requests.length).flatMap Request.sectors

/-- The disk when the machine stops after `k` of these writes. -/
def crashImage
    (serves : Nat → Bool) (v : Volume) (name : CString) (data : Nat → UInt8)
    (size k : Nat) : Store :=
  applySectors v.device.disk ((issuedSectors serves v name data size).take k)

/-- Only clusters of the list differ from the volume's disk. -/
def DataTorn (v : Volume) (new : List Nat) (disk : Store) : Prop :=
  ∀ x, (∀ c, c ∈ new →
      x < v.geom.clusterAddr c ∨
        v.geom.clusterAddr c + v.geom.clusterSizeBytes ≤ x) →
    disk x = v.device.disk x

/-- Then nothing before the data area differs. -/
theorem DataTorn.before_data
    (h : DataTorn v new disk) (hnew : ∀ c, c ∈ new → c < v.geom.fatCacheEntries)
    (hx : x < v.geom.dataAddr) : disk x = v.device.disk x := by
  refine h x ?_
  intro c hc
  exact Or.inl (lt_of_lt_of_le hx (v.geom.dataAddr_le_of_entry (hnew c hc)))

/-- The first `j` sectors of the FAT are those of `v'`, the others those of `v`. -/
structure FatTorn (v v' : Volume) (j : Nat) (disk : Store) : Prop where
  outside :
    ∀ x, x < v.geom.fatAddr ∨ v.geom.fatAddr + v.geom.fatBytes ≤ x →
      disk x = v'.device.disk x
  inside :
    ∀ i, i < v.geom.fatBytes →
      disk (v.geom.fatAddr + i) =
        if i < j * sectorSize then fatImage v'.fat i
        else v.device.disk (v.geom.fatAddr + i)

section Images

variable {serves : Nat → Bool} {u v' : Volume} {name : CString} {size slot : Nat}
  {fat : Nat → Nat}

/-- The sectors of a call whose requests are known. -/
theorem issuedSectors_of_device
    (rs : List Request)
    (h : (lastVolume (fat16WriteFile serves v name data size)).device =
      rs.foldl Device.write v.device) :
    issuedSectors serves v name data size = rs.flatMap Request.sectors := by
  rw [issuedSectors, h, foldl_write_requests, List.drop_left]

/-- The sectors of the data requests. -/
def dataSectors (g : Geometry) (data : Nat → UInt8) (size : Nat)
    (new : List Nat) : List SectorWrite :=
  (dataRequests g data new 0 size).flatMap Request.sectors

/-- A call that panics before its loop writes nothing. -/
theorem crashImage_of_untouched
    (h : (lastVolume (fat16WriteFile serves v name data size)).device = v.device)
    (k : Nat) : crashImage serves v name data size k = v.device.disk := by
  have hissued : issuedSectors serves v name data size = [] :=
    issuedSectors_of_device [] h
  rw [crashImage, hissued, List.take_nil]
  rfl

/-- What lies before the data area stays. -/
theorem FullCall.before_data
    (h : FullCall v u name data size slot fat new) (hx : x < v.geom.dataAddr) :
    u.device.disk x = v.device.disk x := by
  refine h.written.frame x ?_
  intro c hc
  exact Or.inl (lt_of_lt_of_le hx
    (v.geom.dataAddr_le_of_entry (h.written.clusters c hc).1.2))

/-- When the disk is full, every cluster that was free has been written to. -/
theorem FullCall.mem_of_free
    {c : Nat} (h : FullCall v u name data size slot fat new)
    (hc : c < v.geom.fatCacheEntries) (hfree : IsFree fat c) : c ∈ new := by
  by_contra hnot
  have hlink : u.fat c = fat c := h.written.links c hnot (fun hne => absurd rfl hne)
  have hgeom : u.geom = v.geom := h.written.geom
  exact allocCluster_eq_none.mp h.full c (by rwa [hgeom])
    ⟨hfree.1, hlink.trans hfree.2⟩

/-- A call that fills the disk writes data only. -/
theorem FullCall.crashImage_eq
    (h : FullCall v u name data size slot fat new)
    (hpanic : fat16WriteFile serves v name data size = .error (.diskFull, u))
    (k : Nat) :
    crashImage serves v name data size k =
      applySectors v.device.disk ((dataSectors v.geom data size new).take k) := by
  have hdevice : (lastVolume (fat16WriteFile serves v name data size)).device =
      (dataRequests v.geom data new 0 size).foldl Device.write v.device := by
    rw [hpanic]
    exact h.device
  rw [crashImage, issuedSectors_of_device _ hdevice]
  rfl

section

variable (h : FinishedCall v v' name data size slot fat new)
  (hok : fat16WriteFile serves v name data size = .ok v')
include h hok

/-- The sectors of a call that returns: data, root directory, FAT. -/
theorem FinishedCall.issuedSectors_eq :
    issuedSectors serves v name data size =
      dataSectors v.geom data size new ++
        ((rootRequest v name (new.headD 0) size slot).sectors ++
          (fatRequest v.geom v'.fat).sectors) := by
  have hdevice : (lastVolume (fat16WriteFile serves v name data size)).device =
      (dataRequests v.geom data new 0 size ++
        [rootRequest v name (new.headD 0) size slot,
          fatRequest v.geom v'.fat]).foldl Device.write v.device := by
    rw [hok]
    exact h.device
  rw [issuedSectors_of_device _ hdevice, List.flatMap_append]
  simp [dataSectors]

/-- A stop before the root directory's sector was written. -/
theorem FinishedCall.crashImage_data
    {k : Nat} (hk : k ≤ (dataSectors v.geom data size new).length) :
    crashImage serves v name data size k =
      applySectors v.device.disk ((dataSectors v.geom data size new).take k) := by
  rw [crashImage, h.issuedSectors_eq hok, List.take_append_of_le_length hk]

/-- A stop after it, with `j` sectors of the FAT written. -/
theorem FinishedCall.crashImage_fat
    (j : Nat) :
    crashImage serves v name data size
        ((dataSectors v.geom data size new).length + (1 + j)) =
      applySectors
        (applySectors v.device.disk
          (dataSectors v.geom data size new ++
            (rootRequest v name (new.headD 0) size slot).sectors))
        ((fatRequest v.geom v'.fat).sectors.take j) := by
  have hone : (rootRequest v name (new.headD 0) size slot).sectors.length = 1 := by
    simp [Request.sectors, rootRequest]
  rw [crashImage, h.issuedSectors_eq hok, List.take_length_add_append, ← hone,
    List.take_length_add_append, ← List.append_assoc, applySectors_append]

end

/-- The clusters of the data sectors. -/
theorem dataTorn_take
    (k : Nat) :
    DataTorn v new
      (applySectors v.device.disk ((dataSectors v.geom data size new).take k)) := by
  intro x hx
  refine applySectors_outside ?_
  intro w hw
  obtain ⟨c, hc, hlow, hhigh⟩ := mem_dataSectors (List.mem_of_mem_take hw)
  have hout := hx c hc
  omega

/-- The disk after the data and the root directory's sector were written. -/
def rootWrittenDisk
    (v : Volume) (name : CString) (data : Nat → UInt8) (size slot : Nat)
    (new : List Nat) : Store :=
  applySectors v.device.disk
    (dataSectors v.geom data size new ++
      (rootRequest v name (new.headD 0) size slot).sectors)

/-- The FAT is not among these sectors. -/
theorem rootWrittenDisk_fat
    (name : CString) (data : Nat → UInt8) (size slot : Nat)
    (hnew : ∀ c, c ∈ new → c < v.geom.fatCacheEntries)
    {i : Nat} (hi : i < v.geom.fatBytes) :
    rootWrittenDisk v name data size slot new (v.geom.fatAddr + i) =
      v.device.disk (v.geom.fatAddr + i) := by
  have hbefore := v.geom.fat_before_root
  have hdata := v.geom.dataAddr_eq
  refine applySectors_outside ?_
  intro w hw
  left
  rcases List.mem_append.mp hw with hw | hw
  · obtain ⟨c, hc, hlow, _⟩ := mem_dataSectors hw
    have hle := v.geom.dataAddr_le_of_entry (hnew c hc)
    omega
  · obtain ⟨t, _, rfl⟩ := List.mem_map.mp hw
    have haddr := rootSector_addr v.geom (slot / (sectorSize / direntSize))
    have hmono := Nat.mul_le_mul_right sectorSize
      (Nat.le_add_right (rootRequest v name (new.headD 0) size slot).lba t)
    change (rootRequest v name (new.headD 0) size slot).lba * sectorSize = _
      at haddr
    simp only
    omega

/-- The disk after the whole call. -/
theorem FinishedCall.disk_eq
    (h : FinishedCall v v' name data size slot fat new) :
    v'.device.disk =
      copyIn (rootWrittenDisk v name data size slot new) v.geom.fatAddr
        v.geom.fatBytes (fatImage v'.fat) := by
  rw [h.device, foldl_write_disk, List.flatMap_append, List.flatMap_cons,
    List.flatMap_cons, List.flatMap_nil, List.append_nil, ← List.append_assoc,
    applySectors_append, applySectors_request]
  show copyIn _ _ (v.geom.fatCacheEntries * 2 / sectorSize * sectorSize) _ = _
  rw [fatSectors_eq]
  rfl

/-- A stop after the root directory's sector was written. -/
theorem FinishedCall.fatTorn
    (h : FinishedCall v v' name data size slot fat new)
    (hok : fat16WriteFile serves v name data size = .ok v') (j : Nat) :
    FatTorn v v' j
      (crashImage serves v name data size
        ((dataSectors v.geom data size new).length + (1 + j))) := by
  have hsectors : (fatRequest v.geom v'.fat).count * sectorSize =
      v.geom.fatBytes := fatSectors_eq v.geom
  have himage : crashImage serves v name data size
        ((dataSectors v.geom data size new).length + (1 + j)) =
      copyIn (rootWrittenDisk v name data size slot new) v.geom.fatAddr
        (min j (fatRequest v.geom v'.fat).count * sectorSize)
        (fatImage v'.fat) := by
    rw [h.crashImage_fat hok, applySectors_take]
    rfl
  have hlt : min j (fatRequest v.geom v'.fat).count * sectorSize =
      min (j * sectorSize) v.geom.fatBytes := by
    rw [← hsectors, Nat.mul_min_mul_right]
  rw [himage, hlt]
  constructor
  · intro x hx
    rw [h.disk_eq, copyIn_outside (by omega), copyIn_outside (by omega)]
  · intro i hi
    have hframe := rootWrittenDisk_fat name data size slot
      (fun c hc => (h.effect.clusters c hc).1.2) hi
    unfold copyIn
    by_cases hold : i < j * sectorSize
    · rw [if_pos (by omega), if_pos hold, Nat.add_sub_cancel_left]
    · rw [if_neg (by omega), if_neg hold, hframe]

/--
The disk when the machine stops during a call: it is as before, or only
allocated clusters differ, or the FAT is torn.
-/
theorem crashImage_cases
    (serves : Nat → Bool) (name : CString) (data : Nat → UInt8) (size k : Nat)
    (hsmall : v.geom.fatCacheEntries ≤ eocMin) :
    crashImage serves v name data size k = v.device.disk ∨
      (∃ slot fat new,
        chooseSlot v name = some slot ∧
          freeExisting v (scanSlots v name).1 = .ok fat ∧
          (∀ c, c ∈ new → IsCluster v.geom c ∧ fat c = freeMark) ∧
          DataTorn v new (crashImage serves v name data size k)) ∨
      ∃ v' slot fat new j,
        chooseSlot v name = some slot ∧
          WriteEffect v v' name data size slot fat new ∧
          FatTorn v v' j (crashImage serves v name data size k) := by
  rcases call_cases serves name data size hsmall with
    ⟨e, u, hpanic, hsame⟩ | ⟨u, slot, fat, new, hpanic, hcall⟩ |
    ⟨v', slot, fat, new, hok, hcall⟩
  · refine Or.inl (crashImage_of_untouched ?_ k)
    rw [hpanic]
    exact hsame
  · right
    left
    refine ⟨slot, fat, new, hcall.chosen, hcall.freed, hcall.written.clusters, ?_⟩
    rw [hcall.crashImage_eq hpanic]
    exact dataTorn_take k
  · right
    by_cases hk : k ≤ (dataSectors v.geom data size new).length
    · left
      refine ⟨slot, fat, new, hcall.chosen, hcall.effect.freed,
        hcall.effect.clusters, ?_⟩
      rw [hcall.crashImage_data hok hk]
      exact dataTorn_take k
    · right
      obtain ⟨j, rfl⟩ : ∃ j,
          k = (dataSectors v.geom data size new).length + (1 + j) :=
        ⟨k - (dataSectors v.geom data size new).length - 1, by omega⟩
      exact ⟨v', slot, fat, new, j, hcall.chosen, hcall.effect,
        hcall.fatTorn hok j⟩

end Images

end Fat16
end RebornOS
