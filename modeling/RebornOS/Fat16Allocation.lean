import RebornOS.Fat16Freeing
import RebornOS.Fat16Listing
import RebornOS.Fat16WellFormed

/-!
# Which clusters are allocated

`alloc_cluster` takes the first free entry of the FAT.  The FAT may have more
entries than the volume has clusters, and more than a 16-bit link can name.  The
driver does not look at the volume's total sector count, so the clusters stay on
the volume exactly as long as the free entries below that limit last.
-/

namespace RebornOS
namespace Fat16

open ByteStore FiniteCount Fallible

variable {v : Volume} {c n prev : Nat}

section Allocations

variable {data : Nat → UInt8}

/-- The clusters that the writing loop allocates in `n` rounds. -/
def allocations : Nat → Volume → Nat → List Nat
  | 0, _, _ => []
  | n + 1, v, prev =>
      match allocCluster v with
      | none => []
      | some c =>
          c :: allocations n { v with fat := linkCluster v.fat prev c } c

@[simp] theorem allocations_zero
    (v : Volume) (prev : Nat) : allocations 0 v prev = [] := by
  rfl

theorem allocations_none
    (h : allocCluster v = none) : allocations (n + 1) v prev = [] := by
  simp [allocations, h]

theorem allocations_some
    (h : allocCluster v = some c) :
    allocations (n + 1) v prev =
      c :: allocations n { v with fat := linkCluster v.fat prev c } c := by
  simp [allocations, h]

/-- They depend on the FAT only. -/
@[simp] theorem allocations_device
    (n : Nat) (v : Volume) (d : Device) (prev : Nat) :
    allocations n { v with device := d } prev = allocations n v prev := by
  induction n generalizing v prev with
  | zero =>
      rfl
  | succ n ih =>
      have hsame : allocCluster { v with device := d } = allocCluster v := rfl
      cases halloc : allocCluster v with
      | none =>
          rw [allocations_none halloc, allocations_none (hsame.trans halloc)]
      | some c =>
          rw [allocations_some halloc, allocations_some (hsame.trans halloc)]
          congr 1
          exact ih { v with fat := linkCluster v.fat prev c } c

/-- However the loop ends, it has written exactly these clusters. -/
theorem writeClusters_allocations
    (data : Nat → UInt8) (n : Nat) (v : Volume) (p : Progress) :
    (loopVolume (writeClusters data n v p)).device =
      (dataRequests v.geom data (allocations n v p.prevCluster) p.offset
        p.remaining).foldl Device.write v.device := by
  induction n generalizing v p with
  | zero =>
      rfl
  | succ n ih =>
      cases halloc : allocCluster v with
      | none =>
          rw [allocations_none halloc]
          simp [writeClusters, halloc, loopVolume, dataRequests]
      | some c =>
          have hrest : allocations n (writeCluster data v p c) c =
              allocations n { v with fat := linkCluster v.fat p.prevCluster c } c :=
            allocations_device n { v with fat := linkCluster v.fat p.prevCluster c }
              (writeCluster data v p c).device c
          rw [writeClusters_succ halloc, ih, allocations_some halloc, ← hrest]
          rfl

/-- `alloc_cluster` returns the first free cluster. -/
theorem allocCluster_first
    {d : Nat} (h : allocCluster v = some c) (hd : d < c) : ¬ IsFree v.fat d := by
  have hbefore := (List.find?_range_eq_some.mp h).2.2 d hd
  simpa only [IsFree, Bool.not_eq_true', decide_eq_false_iff_not] using hbefore

/--
The first `n` allocations stay below a limit exactly if there are as many free
entries below it, or none from it on.
-/
theorem allocations_below_iff
    {limit : Nat} (hlimit : limit ≤ 2 ^ 16) (n : Nat) (prev : Nat)
    (hprev : prev ≠ 0 → v.fat prev ≠ freeMark) :
    (∀ c ∈ allocations n v prev, c < limit) ↔
      n ≤ Nat.count (IsFree v.fat) (min limit v.geom.fatCacheEntries) ∨
        ∀ c, c < v.geom.fatCacheEntries → IsFree v.fat c → c < limit := by
  induction n generalizing v prev with
  | zero =>
      simp
  | succ n ih =>
      cases halloc : allocCluster v with
      | none =>
          have hnone := allocCluster_eq_none.mp halloc
          rw [allocations_none halloc]
          simp only [List.not_mem_nil, false_imp_iff, implies_true, true_iff]
          exact Or.inr (fun c hc hfree => absurd hfree (hnone c hc))
      | some c =>
          obtain ⟨⟨hlow, hlt⟩, hfree⟩ := allocCluster_eq_some halloc
          rw [allocations_some halloc]
          simp only [List.forall_mem_cons]
          by_cases hc : c < limit
          · have hword : c < 2 ^ 16 := lt_of_lt_of_le hc hlimit
            have hne : prev ≠ c := by
              rintro rfl
              exact hprev (by omega) hfree
            have hnext : c ≠ 0 → linkCluster v.fat prev c c ≠ freeMark := by
              intro _
              rw [linkCluster_new hne]
              decide
            rw [ih (v := { v with fat := linkCluster v.fat prev c }) c hnext,
              count_linkCluster (lt_min hc hlt) hlow hfree hprev hword]
            simp only [hc, true_and, Nat.add_le_add_iff_right]
            refine or_congr_right (forall_congr' fun d => ?_)
            by_cases hdc : d = c
            · subst hdc
              simp [hc]
            · simp [isFree_linkCluster hlow hword hprev hdc]
          · have hzero : Nat.count (IsFree v.fat)
                (min limit v.geom.fatCacheEntries) = 0 := by
              by_contra hpos
              obtain ⟨d, hd, hdfree⟩ := count_pos_iff.mp (Nat.pos_of_ne_zero hpos)
              exact allocCluster_first halloc (by omega) hdfree
            rw [hzero]
            simp only [hc, false_and, false_iff, not_or]
            refine ⟨by omega, fun hall => hc (hall c hlt ⟨hlow, hfree⟩)⟩

end Allocations

section Calls

variable (serves : Nat → Bool) (v : Volume) (name : CString) (size : Nat)

/-- The clusters that a call of `fat16_write_file` allocates. -/
def callAllocations : List Nat :=
  if kmallocOk serves v.geom.rootDirBytes ∧ (chooseSlot v name).isSome then
    match freeExisting v (scanSlots v name).1 with
    | .ok fat => allocations (clustersNeeded v.geom size) { v with fat := fat } 0
    | .error _ => []
  else
    []

variable {serves v name size} {slot : Nat} {fat : Nat → Nat}

theorem callAllocations_eq
    (hroot : kmallocOk serves v.geom.rootDirBytes)
    (hslot : chooseSlot v name = some slot)
    (hfreed : freeExisting v (scanSlots v name).1 = .ok fat) :
    callAllocations serves v name size =
      allocations (clustersNeeded v.geom size) { v with fat := fat } 0 := by
  simp [callAllocations, hroot, hslot, hfreed]

/-- A call that returns has written these clusters, a root sector and the FAT. -/
theorem fat16WriteFile_allocations
    {data : Nat → UInt8} {v' : Volume}
    (hok : fat16WriteFile serves v name data size = .ok v') :
    ∃ slot first,
      v'.device =
        (dataRequests v.geom data (callAllocations serves v name size) 0 size ++
          [rootRequest v name first size slot,
            fatRequest v.geom v'.fat]).foldl Device.write v.device := by
  rcases fat16WriteFile_cases serves v name data size with
    ⟨e, u, hpanic, _⟩ | ⟨slot, fat, hroot, hslot, hfreed⟩
  · rw [hok] at hpanic
    cases hpanic
  · rw [fat16WriteFile_eq hroot hslot hfreed] at hok
    obtain ⟨r, hloop, rfl⟩ := map_eq_ok.mp hok
    have hdevice := writeClusters_allocations data (clustersNeeded v.geom size)
      { v with fat := fat } ⟨0, 0, 0, size⟩
    have hbefore := (writeClusters_before_data data (clustersNeeded v.geom size)
      { v with fat := fat } ⟨0, 0, 0, size⟩).1
    rw [hloop] at hdevice hbefore
    have hgeom : r.1.geom = v.geom := hbefore
    refine ⟨slot, r.2.firstCluster, ?_⟩
    rw [writeBack_device hgeom, callAllocations_eq hroot hslot hfreed,
      List.foldl_append]
    exact congrArg
      (fun d => (Device.write d (rootRequest v name r.2.firstCluster size slot)).write
        (fatRequest v.geom r.1.fat)) hdevice

theorem fat16WriteFile_allocations_formatted :
    ∃ v' slot first,
      fat16WriteFile (fun _ => true) formattedVolume sampleName UInt8.ofNat 3 = .ok v' ∧
      v'.device = (dataRequests formattedGeometry UInt8.ofNat
        (callAllocations (fun _ => true) formattedVolume sampleName 3) 0 3 ++
        [rootRequest formattedVolume sampleName first 3 slot,
          fatRequest formattedGeometry v'.fat]).foldl Device.write formattedVolume.device := by
  have hrun : (fat16WriteFile (fun _ => true) formattedVolume sampleName UInt8.ofNat
      3).toOption.isSome = true := by
    decide
  obtain ⟨v', hok⟩ := Option.isSome_iff_exists.mp hrun
  have hok := toOption_eq_some.mp hok
  obtain ⟨slot, first, hdevice⟩ := fat16WriteFile_allocations hok
  exact ⟨v', slot, first, hok, hdevice⟩

end Calls

section OnVolume

/-- The total sector count: `total_sectors_16`, or `total_sectors_32` if that is 0. -/
def totalSectors (sector : Store) : Nat :=
  if readLE sector 19 2 ≠ 0 then readLE sector 19 2 else readLE sector 32 4

/-- The number of whole clusters in the data area. -/
def dataClusters (g : Geometry) (sector : Store) : Nat :=
  (totalSectors sector - g.firstDataSector) / g.sectorsPerCluster

/--
Cluster `c` is on the volume with this boot sector, and its number can be stored
in a link.
-/
structure OnVolume (g : Geometry) (sector : Store) (c : Nat) : Prop where
  low : 2 ≤ c
  inside : c < 2 + dataClusters g sector
  link : c < badMark

/-- The first number that is not. -/
def clusterLimit (g : Geometry) (sector : Store) : Nat :=
  min (2 + dataClusters g sector) badMark

variable {serves : Nat → Bool} {name : CString} {size : Nat} {g : Geometry}
  {sector : Store}

theorem onVolume_iff : OnVolume g sector c ↔ 2 ≤ c ∧ c < clusterLimit g sector := by
  constructor
  · rintro ⟨hlow, hin, hlink⟩
    exact ⟨hlow, lt_min hin hlink⟩
  · rintro ⟨hlow, hlt⟩
    exact ⟨hlow, (lt_min_iff.mp hlt).1, (lt_min_iff.mp hlt).2⟩

/-- The sectors of such a cluster lie inside the volume. -/
theorem OnVolume.sectors
    (h : OnVolume g sector c) :
    g.firstDataSector + (c - 2) * g.sectorsPerCluster + g.sectorsPerCluster ≤
      totalSectors sector := by
  have hindex : c - 2 + 1 ≤ dataClusters g sector := by
    have hlow := h.low
    have hin := h.inside
    omega
  have hmul := (Nat.le_div_iff_mul_le g.sectorsPerCluster_pos).mp hindex
  rw [Nat.add_mul, Nat.one_mul] at hmul
  have hpos := g.sectorsPerCluster_pos
  omega

/-- Its number is read back from a link as the same cluster. -/
theorem OnVolume.stored
    (h : OnVolume g sector c) :
    c % 2 ^ 16 = c ∧ c ≠ freeMark ∧ c ≠ badMark ∧ c < eocMin := by
  have hlow := h.low
  have hlink := h.link
  unfold badMark at hlink
  refine ⟨Nat.mod_eq_of_lt (by omega), ?_, ?_, ?_⟩
  · unfold freeMark
    omega
  · unfold badMark
    omega
  · unfold eocMin
    omega

theorem two_le_of_mem_allocations
    (hc : c ∈ allocations n v prev) : 2 ≤ c := by
  induction n generalizing v prev with
  | zero =>
      cases hc
  | succ n ih =>
      cases halloc : allocCluster v with
      | none =>
          rw [allocations_none halloc] at hc
          cases hc
      | some d =>
          rw [allocations_some halloc] at hc
          rcases List.mem_cons.mp hc with rfl | hc
          · exact (allocCluster_eq_some halloc).1.1
          · exact ih hc

open Classical in
/-- Of the entries that are `Free`, those on the volume last, or there are no others. -/
def FreeOnVolume (g : Geometry) (sector : Store) (Free : Nat → Prop) (n : Nat) : Prop :=
  n ≤ Nat.count Free (min (clusterLimit g sector) g.fatCacheEntries) ∨
    ∀ c, c < g.fatCacheEntries → Free c → c < clusterLimit g sector

/-- The allocations of a call that has freed the old clusters. -/
theorem allocations_onVolume_iff
    {fat : Nat → Nat} (n : Nat)
    (hfreed : freeExisting v (scanSlots v name).1 = .ok fat) :
    (∀ c ∈ allocations n { v with fat := fat } 0, OnVolume v.geom sector c) ↔
      FreeOnVolume v.geom sector (Freeable v name) n := by
  have hword : clusterLimit v.geom sector ≤ 2 ^ 16 :=
    le_trans (min_le_right _ _) (by decide)
  have hbelow : (∀ c ∈ allocations n { v with fat := fat } 0,
      OnVolume v.geom sector c) ↔
      ∀ c ∈ allocations n { v with fat := fat } 0, c < clusterLimit v.geom sector := by
    refine forall₂_congr fun c hc => ?_
    rw [onVolume_iff]
    exact and_iff_right (two_le_of_mem_allocations hc)
  rw [hbelow, allocations_below_iff hword n 0 (fun h => absurd rfl h), FreeOnVolume]
  simp only [isFree_freeExisting hfreed]
  classical
  exact or_congr_left (by rw [count_congr (fun c _ => isFree_freeExisting hfreed c)])

/--
**Allocation.**  The chain of the file that is replaced does not leave the FAT.  Then
all clusters that the call allocates are on the volume exactly if the entries on the
volume that are free, or belong to this file, suffice for the call, or the FAT has no
other such entries.
-/
theorem allocations_on_volume_iff
    (serves : Nat → Bool) (v : Volume) (disk : Store) (name : CString) (size : Nat)
    (hfrees : FreesInside v name) :
    (∀ c ∈ callAllocations serves v name size,
        OnVolume v.geom (bootSector disk v.geom.partitionLba) c) ↔
      (kmallocOk serves v.geom.rootDirBytes → chooseSlot v name ≠ none →
        FreeOnVolume v.geom (bootSector disk v.geom.partitionLba) (Freeable v name)
          (clustersNeeded v.geom size)) := by
  obtain ⟨fat, hfreed⟩ := freesInside_iff.mp hfrees
  constructor
  · intro hall hroot hslot
    obtain ⟨slot, hslot⟩ := Option.ne_none_iff_exists'.mp hslot
    rw [callAllocations_eq hroot hslot hfreed] at hall
    exact (allocations_onVolume_iff _ hfreed).mp hall
  · intro hfree c hc
    unfold callAllocations at hc
    split_ifs at hc with hcond
    · rw [hfreed] at hc
      have hon := hfree hcond.1 (Option.isSome_iff_ne_none.mp hcond.2)
      exact (allocations_onVolume_iff _ hfreed).mpr hon c hc
    · cases hc

/-- The formatted disk as a volume of five sectors: two clusters of data. -/
def shortDisk : Store := writeText formattedDisk 19 [5]

/-- Its geometry. -/
def shortGeometry : Geometry :=
  geometryOf 0 (bootSector shortDisk 0) (by decide)

/-- The volume that mounting it gives. -/
def shortVolume : Volume :=
  ⟨shortGeometry, diskFat shortGeometry shortDisk, ⟨shortDisk, []⟩⟩

/-- A file of 1024 bytes fits on it. -/
theorem allocations_on_volume_short :
    callAllocations (fun _ => true) shortVolume sampleName 1024 = [2, 3] ∧
      ∀ c ∈ callAllocations (fun _ => true) shortVolume sampleName 1024,
        OnVolume shortVolume.geom
          (bootSector shortDisk shortVolume.geom.partitionLba) c := by
  refine ⟨by decide, ?_⟩
  have hnone : (scanSlots shortVolume sampleName).1 = none := by
    decide
  have hfrees : FreesInside shortVolume sampleName := by
    rw [freesInside_iff, hnone]
    exact ⟨_, rfl⟩
  refine (allocations_on_volume_iff _ _ shortDisk _ _ hfrees).mpr (fun _ _ => Or.inl ?_)
  have hlimit : min (clusterLimit shortVolume.geom
      (bootSector shortDisk shortVolume.geom.partitionLba))
      shortVolume.geom.fatCacheEntries = 4 := by decide
  have hneed : clustersNeeded shortVolume.geom 1024 = 2 := by decide
  have htwo : Freeable shortVolume sampleName 2 :=
    ⟨le_refl 2, Or.inl (by decide)⟩
  have hthree : Freeable shortVolume sampleName 3 :=
    ⟨by decide, Or.inl (by decide)⟩
  rw [hlimit, hneed]
  simp [Nat.count_succ, htwo, hthree]

/--
**Allocation behind the volume.**  The volume has the clusters 2 and 3.  A file of
1025 bytes also gets cluster 4, and its data goes to sector 5.
-/
theorem allocates_behind_volume :
    fat16Init (fun _ => true) shortDisk = .ok shortVolume ∧
      totalSectors (bootSector shortDisk shortVolume.geom.partitionLba) = 5 ∧
      callAllocations (fun _ => true) shortVolume sampleName 1025 = [2, 3, 4] ∧
      ¬ OnVolume shortVolume.geom
        (bootSector shortDisk shortVolume.geom.partitionLba) 4 ∧
      ∃ v', fat16WriteFile (fun _ => true) shortVolume sampleName UInt8.ofNat 1025 =
          .ok v' ∧
        v'.device.requests.map Request.lba = [3, 4, 5, 2, 1] := by
  have hrun : (fat16WriteFile (fun _ => true) shortVolume sampleName UInt8.ofNat
      1025).toOption.any (fun v' =>
        v'.device.requests.map Request.lba = [3, 4, 5, 2, 1]) = true := by
    decide
  obtain ⟨v', hok, hlbas⟩ := any_toOption.mp hrun
  refine ⟨fat16Init_of_boot (bootGeometry_of_bpb (by decide) (by decide)) (by decide),
    by decide, by decide, ?_, v', hok, of_decide_eq_true hlbas⟩
  intro hon
  exact absurd hon.inside (by decide)

end OnVolume

end Fat16
end RebornOS
