import RebornOS.Fat16CrashIsolation

/-!
# A crash while a file is overwritten

`fat16_write_file` frees the clusters of the file that it replaces in the cached
FAT before it allocates new ones, so the new data can go to the old clusters
while the disk still has the old entry and the old FAT.  It writes the entry
before the FAT, so the new entry can meet the old links.  And it finds out that
the disk is full only after it has written data.

This module says for which sizes and layouts a stopped call nevertheless leaves
either the complete old file or the complete new one.
-/

namespace RebornOS
namespace Fat16

open ByteStore TableChain Fallible

variable {serves : Nat → Bool} {f j size slot : Nat} {u v v' : Volume} {name : CString}
  {data : Nat → UInt8} {new old : List Nat} {disk : Store} {g : Geometry}

section Contents

variable {w : Volume} {path : CString}

/-- The whole file that `fat16_open` and `fat16_read` deliver. -/
def fileContents (serves : Nat → Bool) (w : Volume) (path : CString) :
    Except Panic (Option (List UInt8)) := do
  match ← fat16Open serves w path with
  | none => .ok none
  | some file =>
      let r ← fat16Read serves w file (fun _ => 0) file.size
      .ok (some ((List.range r.1).map r.2))

/-- The bytes that reading a whole file delivers. -/
def readWhole (serves : Nat → Bool) (w : Volume) (file : File) :
    Except Panic (Option (List UInt8)) :=
  (fat16Read serves w file (fun _ => 0) file.size).map (fun r =>
    some ((List.range r.1).map r.2))

/-- The first `n` bytes of a list of clusters. -/
def clusterContents (w : Volume) (cs : List Nat) (n : Nat) : List UInt8 :=
  (List.range n).map (clusterBytes w cs)

/-- The contents of a file in the root directory. -/
theorem fileContents_root
    {file : File}
    (hroot : kmallocOk serves w.geom.rootDirBytes)
    (hslash : 0x2F ∉ path.bytes) (hlen : path.bytes.length ≤ 12)
    (hfind : (findFrom (rootBytes w) (format83 path.bytes)
        w.geom.rootDirEntryCount 0).map (fun e =>
          (⟨(readDirent (rootBytes w) e).firstCluster,
            (readDirent (rootBytes w) e).fileSize⟩ : File)) = some file) :
    fileContents serves w path = readWhole serves w file := by
  rw [fileContents, fat16Open_of_plain hroot hslash hlen, hfind, readWhole]
  show (fat16Read serves w file (fun _ => 0) file.size).bind _ = _
  cases fat16Read serves w file (fun _ => 0) file.size with
  | error e =>
      rfl
  | ok r =>
      rfl

/-- A byte of the cluster at position `a` of a list. -/
theorem clusterBytes_at
    (w : Volume) (cs : List Nat) (a : Nat) (hj : j < w.geom.clusterSizeBytes) :
    clusterBytes w cs (a * w.geom.clusterSizeBytes + j) =
      w.device.disk (w.geom.clusterAddr (cs.getD a 0) + j) := by
  have hpos := w.geom.clusterSizeBytes_pos
  have hdiv : (a * w.geom.clusterSizeBytes + j) / w.geom.clusterSizeBytes = a := by
    rw [Nat.mul_comm, Nat.mul_add_div hpos, Nat.div_eq_of_lt hj, Nat.add_zero]
  have hmod : (a * w.geom.clusterSizeBytes + j) % w.geom.clusterSizeBytes = j := by
    rw [Nat.mul_comm, Nat.mul_add_mod, Nat.mod_eq_of_lt hj]
  rw [clusterBytes, hdiv, hmod]

theorem clusterBytes_remounted
    (v : Volume) (disk : Store) (cs : List Nat) (a : Nat)
    (hj : j < v.geom.clusterSizeBytes) :
    clusterBytes (remounted v disk) cs (a * v.geom.clusterSizeBytes + j) =
      disk (v.geom.clusterAddr (cs.getD a 0) + j) :=
  clusterBytes_at (remounted v disk) cs a hj

/-- Any clusters hold what they hold. -/
theorem stored_clusterBytes
    (w : Volume) (pre cs : List Nat) :
    Stored w.geom w.device.disk (clusterBytes w (pre ++ cs)) cs
      (pre.length * w.geom.clusterSizeBytes)
      (cs.length * w.geom.clusterSizeBytes) := by
  induction cs generalizing pre with
  | nil =>
      trivial
  | cons c cs ih =>
      have hchunk : min w.geom.clusterSizeBytes
          ((c :: cs).length * w.geom.clusterSizeBytes) =
            w.geom.clusterSizeBytes := by
        rw [List.length_cons, Nat.succ_mul]
        omega
      have hrest : (c :: cs).length * w.geom.clusterSizeBytes -
          w.geom.clusterSizeBytes = cs.length * w.geom.clusterSizeBytes := by
        rw [List.length_cons, Nat.succ_mul]
        omega
      have hnext := ih (pre ++ [c])
      rw [List.append_assoc, List.singleton_append, List.length_append,
        List.length_singleton, Nat.succ_mul] at hnext
      rw [Stored, hchunk, hrest]
      refine ⟨?_, hnext⟩
      intro j hj
      rw [clusterImage, if_pos hj, clusterBytes_at w _ _ hj, List.getD,
        List.getElem?_append_right (le_refl _), Nat.sub_self]
      rfl

/-- Reading a whole file with a proper chain. -/
theorem fat16Read_chain
    {cs : List Nat} (hsmall : w.geom.fatCacheEntries ≤ eocMin)
    (hbuf : kmallocOk serves w.geom.clusterSizeBytes)
    (hchain : EntryChain w.geom w.fat f cs)
    (hfits : size ≤ cs.length * w.geom.clusterSizeBytes) :
    readWhole serves w ⟨f, size⟩ = .ok (some (clusterContents w cs size)) := by
  have hstart : size = 0 ∨ ChainAt w.geom w.fat f cs := by
    rcases hchain with ⟨_, rfl⟩ | hchain
    · rw [List.length_nil, Nat.zero_mul] at hfits
      exact Or.inl (Nat.le_zero.mp hfits)
    · exact Or.inr hchain
  have hstored := stored_clusterBytes w [] cs
  rw [List.nil_append, List.length_nil, Nat.zero_mul] at hstored
  obtain ⟨buf, hread, hbytes⟩ :=
    fat16Read_stored size (fun _ => 0) hsmall hbuf hstart hstored hfits hfits
  rw [readWhole, hread, Nat.min_self]
  show Except.ok (some ((List.range size).map buf)) = _
  congr 2
  refine List.map_congr_left ?_
  intro i hi
  rw [hbytes i, Nat.min_self, if_pos (List.mem_range.mp hi)]

/-- Reading a file whose first cluster is not followed by another one. -/
theorem fat16Read_first
    (hbuf : kmallocOk serves w.geom.clusterSizeBytes) (hf : IsCluster w.geom f)
    (hhigh : f < eocMin) (hpos : 0 < size)
    (hstop : size ≤ w.geom.clusterSizeBytes ∨ w.fat f = freeMark) :
    readWhole serves w ⟨f, size⟩ =
      .ok (some ((List.range (min w.geom.clusterSizeBytes size)).map (fun i =>
        w.device.disk (w.geom.clusterAddr f + i)))) := by
  obtain ⟨fuel, rfl⟩ := Nat.exists_eq_succ_of_ne_zero (by omega : size ≠ 0)
  have hnext : fatNextCluster w f = .ok (w.fat f) := if_pos hf.2
  have hlast : ∀ buf,
      readLoop w fuel (w.fat f)
          (fuel.succ - min w.geom.clusterSizeBytes fuel.succ)
          (0 + min w.geom.clusterSizeBytes fuel.succ) buf =
        .ok (fuel.succ - min w.geom.clusterSizeBytes fuel.succ, buf) := by
    intro buf
    rcases hstop with hle | hfree
    · rw [Nat.min_eq_right hle, Nat.sub_self, readLoop_zero]
    · rw [hfree]
      cases fuel with
      | zero =>
          rfl
      | succ fuel =>
          rw [readLoop, if_neg (by unfold freeMark; omega)]
  rw [readWhole, fat16Read, if_pos hbuf]
  simp only [Nat.min_self]
  rw [readLoop, if_pos ⟨hpos, hf.1, hhigh⟩, hnext]
  simp only [bind, Except.bind, hlast, Except.map]
  congr 2
  rw [Nat.sub_sub_self (Nat.min_le_right _ _)]
  refine List.map_congr_left ?_
  intro i hi
  have hlt := List.mem_range.mp hi
  rw [copyIn, if_pos (by omega), Nat.sub_zero]

/-- Reading a file without clusters. -/
theorem fat16Read_none
    (hbuf : kmallocOk serves w.geom.clusterSizeBytes) (hf : f < 2) :
    readWhole serves w ⟨f, size⟩ = .ok (some []) := by
  have hloop : readLoop w size f size 0 (fun _ => 0) = .ok (size, fun _ => 0) := by
    cases size with
    | zero =>
        rfl
    | succ size =>
        rw [readLoop, if_neg (by omega)]
  rw [readWhole, fat16Read, if_pos hbuf]
  simp only [Nat.min_self, hloop, bind, Except.bind, Except.map, Nat.sub_self]
  rfl

end Contents

/--
An existing file in the root of an intact volume, with the clusters `old` that
its size needs, under a name that `fat16_open` takes as one component.
-/
structure ExistingFile
    (serves : Nat → Bool) (v : Volume) (name : CString) (slot : Nat)
    (old : List Nat) : Prop where
  volume : IntactVolume serves v
  root_buffer : kmallocOk serves v.geom.rootDirBytes
  cluster_buffer : kmallocOk serves v.geom.clusterSizeBytes
  plain : 0x2F ∉ name.bytes
  length : name.bytes.length ≤ 12
  found : (scanSlots v name).1 = some slot
  file : ¬ (readDirent (rootBytes v) slot).IsDirectory
  chain : EntryChain v.geom v.fat (readDirent (rootBytes v) slot).firstCluster old
  fits :
    (readDirent (rootBytes v) slot).fileSize ≤
      old.length * v.geom.clusterSizeBytes
  tight :
    old.length * v.geom.clusterSizeBytes <
      (readDirent (rootBytes v) slot).fileSize + v.geom.clusterSizeBytes

/-- The size in the entry. -/
def oldSize (v : Volume) (slot : Nat) : Nat :=
  (readDirent (rootBytes v) slot).fileSize

section Files

variable (h : ExistingFile serves v name slot old)
include h

theorem ExistingFile.small : v.geom.fatCacheEntries ≤ eocMin :=
  le_trans h.volume.indices (by decide)

theorem ExistingFile.find :
    findFrom (rootBytes v) (format83 name.bytes) v.geom.rootDirEntryCount 0 =
      some slot := by
  rw [← scanSlots_fst]
  exact h.found

theorem ExistingFile.chosen : chooseSlot v name = some slot := by
  rw [chooseSlot, h.found, Option.some_or]

theorem ExistingFile.replaced : ReplacedChain v name old := by
  unfold ReplacedChain
  rw [h.found]
  exact h.chain

theorem ExistingFile.not_deleted : (format83 name.bytes).headD 0 ≠ 0xE5 := by
  obtain ⟨hslot, hsame, _⟩ := findFrom_zero_eq_some.mp h.find
  rw [← hsame, ← firstByte_eq_head]
  exact hslot.not_deleted

/-- The clusters of the file are different, and clusters of the FAT. -/
theorem ExistingFile.clusters :
    old.Nodup ∧ ∀ c, c ∈ old → IsCluster v.geom c ∧ v.fat c ≠ freeMark :=
  h.chain.spec h.small

/-- The contents before the call. -/
theorem ExistingFile.contents :
    fileContents serves v name = .ok (some (clusterContents v old (oldSize v slot))) := by
  rw [fileContents_root h.root_buffer h.plain h.length
    (by rw [h.find]; exact Option.map_some _ _)]
  exact fat16Read_chain h.small h.cluster_buffer h.chain h.fits

/-- While entry and FAT are old, the old clusters are read. -/
theorem ExistingFile.contents_data
    (hsame : ∀ x, x < v.geom.dataAddr → disk x = v.device.disk x) :
    fileContents serves (remounted v disk) name =
      .ok (some (clusterContents (remounted v disk) old (oldSize v slot))) := by
  have hbefore := v.geom.fat_before_root
  have hdata := v.geom.dataAddr_eq
  have hentries := v.geom.rootEntries_le
  have hagree : AgreeOn (rootBytes v) (rootBytes (remounted v disk)) 0
      (direntSize * v.geom.rootDirEntryCount) := by
    intro x _ hx
    exact hsame _ (by rw [hdata]; exact Nat.add_lt_add_left (by omega) _)
  have hlookup := lookup_congr (format83 name.bytes) hagree
  rw [h.find] at hlookup
  obtain ⟨e, hfind, hent⟩ := Option.map_eq_some_iff.mp hlookup
  have hlinks : EntryChain v.geom (diskFat v.geom disk)
      (readDirent (rootBytes v) slot).firstCluster old := by
    refine h.chain.imp_right (fun hchain => hchain.congr ?_)
    intro c hc
    have hlt := (hchain.node hc).2
    rw [diskFat_of_bytes (fun i hi => hsame _ (by omega)) hlt,
      h.volume.intact.synced c hlt]
  rw [fileContents_root (w := remounted v disk) h.root_buffer h.plain h.length
    (by rw [remounted_geom, hfind]; exact Option.map_some _ _)]
  rw [hent]
  exact fat16Read_chain (w := remounted v disk) h.small h.cluster_buffer hlinks
    h.fits

/-- Once the new entry is there, it is read. -/
theorem ExistingFile.contents_root
    {first : Nat} (hroot : RootWritten v (remounted v disk) name first size slot)
    (hfirst : first < 2 ^ 16) (hsize : size < 2 ^ 32) :
    fileContents serves (remounted v disk) name =
      readWhole serves (remounted v disk) ⟨first, size⟩ := by
  have hfind := hroot.find_slot h.not_deleted
  have hcluster : (readDirent (rootBytes (remounted v disk)) slot).firstCluster =
      first := by
    rw [hroot.readDirent_slot, Dirent.firstCluster]
    simp only
    omega
  have hbytes : (readDirent (rootBytes (remounted v disk)) slot).fileSize =
      size := by
    rw [hroot.readDirent_slot]
    exact Nat.mod_eq_of_lt hsize
  refine fileContents_root (w := remounted v disk) h.root_buffer h.plain h.length ?_
  rw [remounted_geom, hfind, Option.map_some, hcluster, hbytes]

/-- A call that overwrites the file fills the disk or returns. -/
theorem ExistingFile.call_cases
    (data : Nat → UInt8) (size : Nat) :
    (freeCount v.geom v.fat + old.length < clustersNeeded v.geom size ∧
        ∃ u new,
          fat16WriteFile serves v name data size = .error (.diskFull, u) ∧
            FullCall v u name data size slot (cleared v.fat old) new) ∨
      (clustersNeeded v.geom size ≤ freeCount v.geom v.fat + old.length ∧
        ∃ v' new,
          fat16WriteFile serves v name data size = .ok v' ∧
            FinishedCall v v' name data size slot (cleared v.fat old) new) := by
  have hfreed := h.replaced.freeExisting_eq h.small
  have hcount : freeCount v.geom (cleared v.fat old) =
      freeCount v.geom v.fat + old.length :=
    freeCount_cleared h.clusters.1 (fun c hc => (h.clusters.2 c hc).1)
      (fun c hc => (h.clusters.2 c hc).2)
  rcases loop_cases data h.small h.root_buffer h.chosen hfreed with
    ⟨u, new, hpanic, hcall⟩ | ⟨v', new, hok, hcall⟩
  · left
    refine ⟨?_, u, new, hpanic, hcall⟩
    by_contra hspace
    rw [← hcount, Nat.not_lt] at hspace
    obtain ⟨v', hok⟩ := fat16WriteFile_returns data h.small h.root_buffer
      h.chosen hfreed hspace
    rw [hpanic] at hok
    cases hok
  · right
    refine ⟨?_, v', new, hok, hcall⟩
    rw [← hcall.effect.length, ← hcount]
    exact length_le_freeCount hcall.effect.nodup hcall.effect.clusters

end Files

/-- The disk can be mounted, and the file is the complete old or new one. -/
def OldOrNew
    (serves : Nat → Bool) (v : Volume) (name : CString) (data : Nat → UInt8)
    (size k : Nat) : Prop :=
  ∃ w c,
    fat16Init serves (crashImage serves v name data size k) = .ok w ∧
      fileContents serves w name = .ok (some c) ∧
      (fileContents serves v name = .ok (some c) ∨
        c = (List.range size).map data)

section Stops

variable {k : Nat}

theorem map_range_eq_iff
    {m n : Nat} {f g : Nat → UInt8} :
    (List.range m).map f = (List.range n).map g ↔
      m = n ∧ ∀ i, i < m → f i = g i := by
  constructor
  · intro h
    have hlen : m = n := by simpa using congrArg List.length h
    subst hlen
    refine ⟨rfl, fun i hi => ?_⟩
    exact List.map_inj_left.mp h i (List.mem_range.mpr hi)
  · rintro ⟨rfl, h⟩
    exact List.map_congr_left (fun i hi => h i (List.mem_range.mp hi))

variable (h : ExistingFile serves v name slot old)
include h

/-- What a stopped call leaves, in terms of the file's contents. -/
theorem ExistingFile.oldOrNew_iff
    {c : List UInt8}
    (himage : crashImage serves v name data size k = disk)
    (hboot : ∀ x, x < v.geom.fatAddr → disk x = v.device.disk x)
    (hc : fileContents serves (remounted v disk) name = .ok (some c)) :
    OldOrNew serves v name data size k ↔
      clusterContents v old (oldSize v slot) = c ∨
        c = (List.range size).map data := by
  have hinit := fat16Init_remounted h.volume.mounted h.volume.reserved hboot
  unfold OldOrNew
  rw [himage, hinit, h.contents]
  constructor
  · rintro ⟨w, c', hw, hc', hcases⟩
    cases hw
    rw [hc] at hc'
    cases hc'
    simpa using hcases
  · intro hcases
    exact ⟨_, c, rfl, hc, by simpa using hcases⟩

/-- A stop while entry and FAT are old. -/
theorem ExistingFile.oldOrNew_data
    (himage : crashImage serves v name data size k = disk)
    (hsame : ∀ x, x < v.geom.dataAddr → disk x = v.device.disk x) :
    OldOrNew serves v name data size k ↔
      (∀ i, i < oldSize v slot →
          clusterBytes v old i = clusterBytes (remounted v disk) old i) ∨
        (oldSize v slot = size ∧
          ∀ i, i < oldSize v slot →
            clusterBytes (remounted v disk) old i = data i) := by
  have hbefore := v.geom.fat_before_root
  have hdata := v.geom.dataAddr_eq
  rw [h.oldOrNew_iff himage (fun x hx => hsame x (by omega)) (h.contents_data hsame),
    clusterContents, clusterContents, map_range_eq_iff, map_range_eq_iff]
  simp only [true_and]

/-- A stop after the new entry was written. -/
theorem ExistingFile.oldOrNew_root
    {c : List UInt8}
    (hcall : FinishedCall v v' name data size slot (cleared v.fat old) new)
    (hok : fat16WriteFile serves v name data size = .ok v')
    (hsize : size < 2 ^ 32) (j : Nat)
    (hread :
      readWhole serves
          (remounted v (crashImage serves v name data size
            ((dataSectors v.geom data size new).length + (1 + j))))
          ⟨new.headD 0, size⟩ = .ok (some c)) :
    OldOrNew serves v name data size
        ((dataSectors v.geom data size new).length + (1 + j)) ↔
      clusterContents v old (oldSize v slot) = c ∨
        c = (List.range size).map data := by
  have htorn := hcall.fatTorn hok j
  refine h.oldOrNew_iff rfl ?_ ?_
  · intro x hx
    rw [htorn.outside x (Or.inl hx), hcall.effect.before_fat x hx]
  · rw [h.contents_root (htorn.rootWritten hcall.effect)
      (hcall.effect.first_lt h.small) hsize, hread]

end Stops

section Conditions

variable {c k : Nat} {rest : List Nat}

theorem exists_other_byte
    (x y : UInt8) : ∃ b, b ≠ x ∧ b ≠ y := by
  have hcard : ({x, y} : Finset UInt8).card < ({0, 1, 2} : Finset UInt8).card :=
    lt_of_le_of_lt Finset.card_le_two (by decide)
  obtain ⟨b, _, hb⟩ := Finset.exists_mem_notMem_of_card_lt_card hcard
  simp only [Finset.mem_insert, Finset.mem_singleton, not_or] at hb
  exact ⟨b, hb⟩

/-- The last cluster of a file is not empty. -/
theorem clustersNeeded_mul_lt
    (hpos : 0 < clustersNeeded g size) :
    clustersNeeded g size * g.clusterSizeBytes < size + g.clusterSizeBytes := by
  unfold clustersNeeded at hpos ⊢
  split_ifs at hpos ⊢ with hzero
  · omega
  · have hmul := Nat.div_mul_le_self ((size + g.clusterSizeBytes - 1) % 2 ^ 32)
      g.clusterSizeBytes
    have hmod := Nat.mod_le (size + g.clusterSizeBytes - 1) (2 ^ 32)
    omega

/-- The first sectors of the first cluster. -/
theorem FinishedCall.crashImage_first
    (hcall : FinishedCall v v' name data size slot (cleared v.fat old) (c :: rest))
    (hok : fat16WriteFile serves v name data size = .ok v')
    (hk : k ≤ v.geom.sectorsPerCluster) :
    crashImage serves v name data size k =
      copyIn v.device.disk (v.geom.clusterAddr c) (k * sectorSize)
        (clusterImage data 0 (min v.geom.clusterSizeBytes size)) := by
  have hlen : k ≤ (Request.sectors ⟨v.geom.lba (v.geom.clusterToSector c),
      v.geom.sectorsPerCluster,
      clusterImage data 0 (min v.geom.clusterSizeBytes size)⟩).length := by
    simpa [Request.sectors] using hk
  have hsectors : (dataSectors v.geom data size (c :: rest)).take k =
      (Request.sectors ⟨v.geom.lba (v.geom.clusterToSector c),
        v.geom.sectorsPerCluster,
        clusterImage data 0 (min v.geom.clusterSizeBytes size)⟩).take k := by
    rw [dataSectors, dataRequests, List.flatMap_cons,
      List.take_append_of_le_length hlen]
  have hall : k ≤ (dataSectors v.geom data size (c :: rest)).length := by
    rw [dataSectors, dataRequests, List.flatMap_cons, List.length_append]
    omega
  rw [hcall.crashImage_data hok hall, hsectors, applySectors_take, Nat.min_eq_left hk]
  rfl

theorem sectorSize_le_cluster
    (g : Geometry) : sectorSize ≤ g.clusterSizeBytes :=
  Nat.le_mul_of_pos_right _ g.sectorsPerCluster_pos

/-- The first cluster of the new file, once the new entry is there. -/
theorem FinishedCall.torn_first
    (hcall : FinishedCall v v' name data size slot (cleared v.fat old) (c :: rest))
    (hok : fat16WriteFile serves v name data size = .ok v')
    (hhigh : c < eocMin) (j : Nat) {i : Nat}
    (hi : i < min v.geom.clusterSizeBytes size) :
    crashImage serves v name data size
        ((dataSectors v.geom data size (c :: rest)).length + (1 + j))
        (v.geom.clusterAddr c + i) = data i := by
  have himage := hcall.effect.stored.1 i (by omega)
  rw [(hcall.fatTorn hok j).cluster_eq hhigh i, himage, clusterImage, if_pos hi,
    Nat.zero_add]

/-- A file of one cluster fits it. -/
theorem size_le_of_one
    (hsize : size < 2 ^ 32) (hone : clustersNeeded g size = 1) :
    size ≤ g.clusterSizeBytes := by
  have hpos := g.clusterSizeBytes_pos
  unfold clustersNeeded at hone
  split_ifs at hone with hzero
  have hdiv := Nat.div_add_mod ((size + g.clusterSizeBytes - 1) % 2 ^ 32)
    g.clusterSizeBytes
  have hmod := Nat.mod_lt ((size + g.clusterSizeBytes - 1) % 2 ^ 32) hpos
  rw [hone, Nat.mul_one] at hdiv
  have hle := g.clusterSizeBytes_le
  omega

variable (h : ExistingFile serves v name slot old)
include h

/-- A call that needs no clusters. -/
theorem ExistingFile.all_iff_of_none
    (hsize : size < 2 ^ 32)
    (hzero : clustersNeeded v.geom size = 0) :
    (∀ data k, OldOrNew serves v name data size k) ↔
      size = 0 ∨ oldSize v slot = 0 := by
  -- the call writes no data, and the new entry has no clusters
  have hstops : ∀ data k, OldOrNew serves v name data size k ↔
      k = 0 ∨ size = 0 ∨ oldSize v slot = 0 := by
    intro data k
    rcases h.call_cases data size with ⟨hfull, _⟩ | ⟨_, v', new, hok, hcall⟩
    · omega
    · obtain rfl : new = [] :=
        List.length_eq_zero_iff.mp (hcall.effect.length.trans hzero)
      cases k with
      | zero =>
          have himage : crashImage serves v name data size 0 = v.device.disk :=
            hcall.crashImage_data hok (Nat.zero_le _)
          rw [h.oldOrNew_data himage (fun _ _ => rfl)]
          exact iff_of_true (Or.inl (fun _ _ => rfl)) (Or.inl rfl)
      | succ k =>
          have hempty := h.oldOrNew_root hcall hok hsize k
            (fat16Read_none h.cluster_buffer (by decide))
          rw [show (dataSectors v.geom data size []).length + (1 + k) = k + 1 by
            rw [Nat.add_comm 1 k]
            exact Nat.zero_add _] at hempty
          rw [hempty]
          simp [clusterContents, or_comm]
  constructor
  · intro hall
    exact ((hstops (fun _ => 0) 1).mp (hall _ 1)).resolve_left (by omega)
  · intro hcases data k
    exact (hstops data k).mpr (Or.inr hcases)

/-- A full disk: all clusters of the replaced file have been used. -/
theorem FullCall.old_subset
    (hcall : FullCall v u name data size slot (cleared v.fat old) new) : old ⊆ new := by
  intro c hc
  have hnode := (h.clusters.2 c hc).1
  exact hcall.mem_of_free hnode.2 ⟨hnode.1, if_pos hc⟩

/-- A call that fills the disk. -/
theorem ExistingFile.all_iff_of_full
    (hfull : freeCount v.geom v.fat + old.length < clustersNeeded v.geom size) :
    (∀ data k, OldOrNew serves v name data size k) ↔ oldSize v slot = 0 := by
  have hcases : ∀ data, ∃ u new,
      fat16WriteFile serves v name data size = .error (.diskFull, u) ∧
        FullCall v u name data size slot (cleared v.fat old) new := by
    intro data
    rcases h.call_cases data size with ⟨_, hcall⟩ | ⟨hspace, _⟩
    · exact hcall
    · omega
  constructor
  · intro hall
    by_contra hpos
    -- all clusters of the file are overwritten before the disk is full
    obtain ⟨b, hb, _⟩ := exists_other_byte (clusterBytes v old 0) 0
    obtain ⟨u, new, hpanic, hcall⟩ := hcases (fun _ => b)
    have himage : crashImage serves v name (fun _ => b) size
        (dataSectors v.geom (fun _ => b) size new).length = u.device.disk := by
      rw [hcall.crashImage_eq hpanic, List.take_length, hcall.device, foldl_write_disk]
      rfl
    have hfits := h.fits
    change oldSize v slot ≤ _ at hfits
    have hcsz := v.geom.clusterSizeBytes_pos
    have hold : 0 < old.length := by
      by_contra hnil
      rw [Nat.eq_zero_of_not_pos hnil, Nat.zero_mul] at hfits
      omega
    have hsubset := FullCall.old_subset h hcall
    have hlength : old.length ≤ new.length :=
      (List.subperm_of_subset h.clusters.1 hsubset).length_le
    have hlarge : clustersNeeded v.geom size * v.geom.clusterSizeBytes <
        size + v.geom.clusterSizeBytes := clustersNeeded_mul_lt (by omega)
    have hshort : (new.length + 1) * v.geom.clusterSizeBytes ≤
        clustersNeeded v.geom size * v.geom.clusterSizeBytes :=
      Nat.mul_le_mul_right _ hcall.short
    rw [Nat.succ_mul] at hshort
    rcases (h.oldOrNew_data himage (fun _ => hcall.before_data)).mp (hall _ _) with
      hbytes | ⟨hsizes, _⟩
    · have hmem : old.getD 0 0 ∈ new := by
        rw [List.getD, List.getElem?_eq_getElem hold]
        exact hsubset (List.getElem_mem hold)
      have hbyte := hcall.written.stored.first_byte (fun _ => by
        show new.length * v.geom.clusterSizeBytes < size + v.geom.clusterSizeBytes
        omega) hmem
      have hfirst : clusterBytes (remounted v u.device.disk) old 0 =
          u.device.disk (v.geom.clusterAddr (old.getD 0 0)) := by
        simpa using clusterBytes_remounted v u.device.disk old 0 hcsz
      refine hb ?_
      rw [hbytes 0 (Nat.pos_of_ne_zero hpos), hfirst]
      exact hbyte.symm
    · have hmul := Nat.mul_le_mul_right v.geom.clusterSizeBytes hlength
      omega
  · intro hzero data k
    obtain ⟨u, new, hpanic, hcall⟩ := hcases data
    have htorn : DataTorn v new (crashImage serves v name data size k) := by
      rw [hcall.crashImage_eq hpanic]
      exact dataTorn_take k
    refine (h.oldOrNew_data rfl (fun x => htorn.before_data
      (fun c hc => (hcall.written.clusters c hc).1.2))).mpr (Or.inl ?_)
    intro i hi
    omega

/-- Bytes of a file when the start of a cluster is written. -/
theorem ExistingFile.clusterBytes_outside
    {n i : Nat} (src : Nat → UInt8)
    (hc : IsCluster v.geom c) (hn : n ≤ v.geom.clusterSizeBytes)
    (hi : i < old.length * v.geom.clusterSizeBytes)
    (hout : ∀ a, a < old.length → old.getD a 0 = c →
      i < a * v.geom.clusterSizeBytes ∨ a * v.geom.clusterSizeBytes + n ≤ i) :
    clusterBytes
        (remounted v (copyIn v.device.disk (v.geom.clusterAddr c) n src)) old i =
      clusterBytes v old i := by
  have hpos := v.geom.clusterSizeBytes_pos
  obtain ⟨t, o, ho, rfl⟩ : ∃ t o, o < v.geom.clusterSizeBytes ∧
      i = t * v.geom.clusterSizeBytes + o :=
    ⟨i / v.geom.clusterSizeBytes, i % v.geom.clusterSizeBytes,
      Nat.mod_lt _ hpos, (Nat.div_add_mod' _ _).symm⟩
  have ht : t < old.length :=
    Nat.lt_of_mul_lt_mul_right (lt_of_le_of_lt (Nat.le_add_right _ _) hi)
  rw [clusterBytes_at v old t ho, clusterBytes_remounted v _ old t ho]
  refine copyIn_outside ?_
  by_cases hsame : old.getD t 0 = c
  · have hrange := hout t ht hsame
    rw [hsame]
    omega
  · have hmem : old.getD t 0 ∈ old := by
      rw [List.getD, List.getElem?_eq_getElem ht]
      exact List.getElem_mem ht
    have hnode := (h.clusters.2 _ hmem).1
    have hdisj := v.geom.clusterAddr_disjoint hnode.1
      (lt_of_lt_of_le hnode.2 h.small) hc.1 (lt_of_lt_of_le hc.2 h.small) hsame
    omega

/-- A call that returns, with its first cluster. -/
theorem ExistingFile.finished
    (data : Nat → UInt8)
    (hpos : 0 < clustersNeeded v.geom size)
    (hspace : clustersNeeded v.geom size ≤ freeCount v.geom v.fat + old.length) :
    ∃ v' c rest,
      fat16WriteFile serves v name data size = .ok v' ∧
        allocCluster { v with fat := cleared v.fat old } = some c ∧
        FinishedCall v v' name data size slot (cleared v.fat old) (c :: rest) := by
  rcases h.call_cases data size with ⟨hfull, _⟩ | ⟨_, v', new, hok, hcall⟩
  · omega
  · obtain ⟨c, rest, rfl⟩ := List.exists_cons_of_length_pos
      (by rw [hcall.effect.length]; exact hpos)
    exact ⟨v', c, rest, hok, hcall.first hpos, hcall⟩

/--
When the first new cluster is one of the file's own, a stop after one sector
destroys the file, unless that sector holds it all.
-/
theorem ExistingFile.in_place
    (hpos : 0 < clustersNeeded v.geom size)
    (hspace : clustersNeeded v.geom size ≤ freeCount v.geom v.fat + old.length)
    (hfirst : allocCluster { v with fat := cleared v.fat old } = some c)
    (hc : c ∈ old) (hall : ∀ data k, OldOrNew serves v name data size k) :
    old = [c] ∧ size = oldSize v slot ∧ size ≤ sectorSize := by
  have hsectorPos : 0 < sectorSize := by decide
  have hsector := sectorSize_le_cluster v.geom
  have hcsz := v.geom.clusterSizeBytes_pos
  have htight := h.tight
  have hfits := h.fits
  change _ < oldSize v slot + _ at htight
  change oldSize v slot ≤ _ at hfits
  have hsizePos : 0 < size := by
    by_contra hzero
    rw [clustersNeeded, if_pos (Nat.eq_zero_of_not_pos hzero)] at hpos
    omega
  have hnode := (h.clusters.2 c hc).1
  obtain ⟨a, ha, hget⟩ := List.getElem_of_mem hc
  have hgetD : old.getD a 0 = c := by
    rw [List.getD, List.getElem?_eq_getElem ha]
    exact hget
  have honly : ∀ t, t < old.length → old.getD t 0 = c → t = a := by
    intro t ht heq
    rw [List.getD, List.getElem?_eq_getElem ht] at heq
    exact (h.clusters.1.getElem_inj_iff).mp (heq.trans hget.symm)
  have hmul : (a + 1) * v.geom.clusterSizeBytes ≤
      old.length * v.geom.clusterSizeBytes := Nat.mul_le_mul_right _ ha
  rw [Nat.succ_mul] at hmul
  -- a byte that is neither in the first sector's place nor at `q`
  obtain ⟨q, hq⟩ : ∃ q, q = if a = 0 then sectorSize else 0 := ⟨_, rfl⟩
  obtain ⟨b, hbp, hbq⟩ := exists_other_byte
    (clusterBytes v old (a * v.geom.clusterSizeBytes)) (clusterBytes v old q)
  obtain ⟨v', c', rest, hok, hfirst', hcall⟩ :=
    h.finished (fun _ => b) hpos hspace
  obtain rfl : c' = c := Option.some.inj (hfirst'.symm.trans hfirst)
  have himage := hcall.crashImage_first hok
    (show 1 ≤ v.geom.sectorsPerCluster from v.geom.sectorsPerCluster_pos)
  rw [Nat.one_mul] at himage
  have hsame : ∀ x, x < v.geom.dataAddr →
      crashImage serves v name (fun _ => b) size 1 x = v.device.disk x := by
    intro x hx
    have hle := v.geom.dataAddr_le_of_entry hnode.2
    rw [himage]
    exact copyIn_outside (Or.inl (by omega))
  have hwritten : clusterBytes
      (remounted v (crashImage serves v name (fun _ => b) size 1)) old
        (a * v.geom.clusterSizeBytes) = b := by
    have hat := clusterBytes_remounted v
      (crashImage serves v name (fun _ => b) size 1) old a hcsz
    rw [Nat.add_zero, Nat.add_zero] at hat
    rw [hat, himage, hgetD]
    unfold copyIn clusterImage
    rw [if_pos (by omega), if_pos (by omega)]
  rcases (h.oldOrNew_data rfl hsame).mp (hall _ 1) with hbytes | ⟨hsizes, hbytes⟩
  · exact absurd (hwritten.symm.trans (hbytes _ (by omega)).symm) hbp
  · have hq' : oldSize v slot ≤ q := by
      by_contra hlt
      have hout := hbytes q (by omega)
      rw [himage, h.clusterBytes_outside _ hnode hsector (by omega) ?_] at hout
      · exact hbq hout.symm
      · intro t ht heq
        rw [honly t ht heq, hq]
        split_ifs with hzero
        · subst hzero
          omega
        · left
          exact Nat.mul_pos (Nat.pos_of_ne_zero hzero) hcsz
    have hzero : a = 0 := by
      by_contra hne
      rw [hq, if_neg hne] at hq'
      omega
    rw [hq, if_pos hzero] at hq'
    refine ⟨?_, hsizes.symm, by omega⟩
    have hlen : old.length = 1 := by
      have hlt : old.length * v.geom.clusterSizeBytes <
          2 * v.geom.clusterSizeBytes := by omega
      have hlt' := Nat.lt_of_mul_lt_mul_right hlt
      omega
    obtain ⟨d, rfl⟩ := List.length_eq_one_iff.mp hlen
    rw [List.mem_singleton.mp hc]

/--
A call that needs more than one cluster: the first cluster is written in place,
or the new entry meets a FAT in which its first cluster is free.
-/
theorem ExistingFile.not_all_of_many
    (hsize : size < 2 ^ 32)
    (hmany : 2 ≤ clustersNeeded v.geom size)
    (hspace : clustersNeeded v.geom size ≤ freeCount v.geom v.fat + old.length) :
    ¬ ∀ data k, OldOrNew serves v name data size k := by
  intro hall
  have hpos : 0 < clustersNeeded v.geom size := by omega
  have hcsz := v.geom.clusterSizeBytes_pos
  have hlarge : v.geom.clusterSizeBytes < size := by
    have hlt := clustersNeeded_mul_lt hpos
    have hmul := Nat.mul_le_mul_right v.geom.clusterSizeBytes hmany
    omega
  obtain ⟨b, hb, _⟩ := exists_other_byte (clusterBytes v old 0) 0
  obtain ⟨v', c, rest, hok, hfirst, hcall⟩ :=
    h.finished (fun _ => b) hpos hspace
  by_cases hc : c ∈ old
  · have hle := (h.in_place hpos hspace hfirst hc hall).2.2
    have hsector := sectorSize_le_cluster v.geom
    omega
  · obtain ⟨hnode, hfree⟩ := allocCluster_eq_some hfirst
    have hhigh : c < eocMin := lt_of_lt_of_le hnode.2 h.small
    have htorn := hcall.fatTorn hok 0
    have hlink : diskFat v.geom
        (crashImage serves v name (fun _ => b) size
          ((dataSectors v.geom (fun _ => b) size (c :: rest)).length + (1 + 0))) c =
        freeMark := by
      rw [diskFat_of_bytes (fun i hi => by rw [htorn.inside i hi, if_neg (by omega)])
        hnode.2, ← h.volume.intact.synced c hnode.2]
      exact (if_neg hc).symm.trans hfree
    have hread := fat16Read_first (w := remounted v _) h.cluster_buffer hnode hhigh
      (show 0 < size by omega) (Or.inr hlink)
    rcases (h.oldOrNew_root hcall hok hsize 0 hread).mp (hall _ _) with hold | hnew
    · obtain ⟨hsizes, hbytes⟩ := map_range_eq_iff.mp hold
      have hzero := hbytes 0 (by rw [hsizes, remounted_geom]; omega)
      rw [remounted_geom, remounted_disk,
        hcall.torn_first hok hhigh 0 (by omega)] at hzero
      exact hb hzero.symm
    · have hlen := (map_range_eq_iff.mp hnew).1
      rw [remounted_geom] at hlen
      omega

/-- A call that needs one cluster. -/
theorem ExistingFile.all_iff_of_one
    (hsize : size < 2 ^ 32)
    (hone : clustersNeeded v.geom size = 1)
    (hspace : clustersNeeded v.geom size ≤ freeCount v.geom v.fat + old.length) :
    (∀ data k, OldOrNew serves v name data size k) ↔
      ∀ c, allocCluster { v with fat := cleared v.fat old } = some c →
        c ∉ old ∨ (old = [c] ∧ size = oldSize v slot ∧ size ≤ sectorSize) := by
  have hpos : 0 < clustersNeeded v.geom size := by omega
  constructor
  · intro hall c hfirst
    by_cases hc : c ∈ old
    · exact Or.inr (h.in_place hpos hspace hfirst hc hall)
    · exact Or.inl hc
  · intro hcond data k
    obtain ⟨v', c, rest, hok, hfirst, hcall⟩ := h.finished data hpos hspace
    obtain ⟨hnode, _⟩ := allocCluster_eq_some hfirst
    have hhigh : c < eocMin := lt_of_lt_of_le hnode.2 h.small
    have hle := size_le_of_one hsize hone
    obtain rfl : rest = [] := by
      have hlen := hcall.effect.length
      rw [hone, List.length_cons] at hlen
      exact List.length_eq_zero_iff.mp (by omega)
    have hsectors : (dataSectors v.geom data size [c]).length =
        v.geom.sectorsPerCluster := by
      simp [dataSectors, dataRequests, Request.sectors]
    by_cases hk : k ≤ v.geom.sectorsPerCluster
    · have himage := hcall.crashImage_first hok hk
      have hn : k * sectorSize ≤ v.geom.clusterSizeBytes := by
        rw [Geometry.clusterSizeBytes, Nat.mul_comm]
        exact Nat.mul_le_mul_left _ hk
      have hbefore := v.geom.dataAddr_le_of_entry hnode.2
      have hfits := h.fits
      refine (h.oldOrNew_data himage (fun x hx => copyIn_outside
        (Or.inl (by omega)))).mpr ?_
      rcases hcond c hfirst with hnot | ⟨rfl, hsizes, hsector⟩
      · left
        intro i hi
        refine (h.clusterBytes_outside _ hnode hn (lt_of_lt_of_le hi hfits) ?_).symm
        intro a ha heq
        rw [List.getD, List.getElem?_eq_getElem ha] at heq
        exact absurd (heq ▸ List.getElem_mem ha) hnot
      · rcases Nat.eq_zero_or_pos k with rfl | hkpos
        · left
          intro i hi
          refine (h.clusterBytes_outside _ hnode hn (lt_of_lt_of_le hi hfits) ?_).symm
          intro a _ _
          omega
        · right
          refine ⟨hsizes.symm, ?_⟩
          intro i hi
          have hone := Nat.mul_le_mul_right sectorSize hkpos
          have hat := clusterBytes_remounted v
            (copyIn v.device.disk (v.geom.clusterAddr c) (k * sectorSize)
              (clusterImage data 0 (min v.geom.clusterSizeBytes size))) [c] 0
            (show i < v.geom.clusterSizeBytes by omega)
          rw [Nat.zero_mul, Nat.zero_add] at hat
          rw [hat]
          show copyIn _ (v.geom.clusterAddr c) _ _ (v.geom.clusterAddr c + i) = _
          unfold copyIn clusterImage
          rw [if_pos (by omega), if_pos (by omega)]
          congr 1
          omega
    · obtain ⟨j, rfl⟩ : ∃ j,
          k = (dataSectors v.geom data size [c]).length + (1 + j) :=
        ⟨k - v.geom.sectorsPerCluster - 1, by omega⟩
      have hsizePos : 0 < size := by
        by_contra hzero
        rw [clustersNeeded, if_pos (Nat.eq_zero_of_not_pos hzero)] at hpos
        omega
      have hread := fat16Read_first (w := remounted v (crashImage serves v name data
        size ((dataSectors v.geom data size [c]).length + (1 + j))))
        h.cluster_buffer hnode hhigh hsizePos (Or.inl hle)
      refine (h.oldOrNew_root hcall hok hsize j hread).mpr (Or.inr ?_)
      rw [map_range_eq_iff, remounted_geom]
      refine ⟨by omega, fun i hi => ?_⟩
      rw [remounted_disk]
      exact hcall.torn_first hok hhigh j hi

end Conditions

/--
The sizes and layouts for which no stop destroys the file `old` of `oldBytes`
bytes.  Without new clusters one of the two files must be empty.  If the disk
becomes full, the old file must be empty.  Otherwise the new file must need a
single cluster that is not one of the old file's, unless both have the same size
and fit one sector.
-/
def SafeOverwrite (v : Volume) (oldBytes size : Nat) (old : List Nat) : Prop :=
  if clustersNeeded v.geom size = 0 then
    size = 0 ∨ oldBytes = 0
  else if freeCount v.geom v.fat + old.length < clustersNeeded v.geom size then
    oldBytes = 0
  else
    clustersNeeded v.geom size = 1 ∧
      ∀ c, allocCluster { v with fat := cleared v.fat old } = some c →
        c ∉ old ∨ (old = [c] ∧ size = oldBytes ∧ size ≤ sectorSize)

section Overwriting

/--
**Interrupted overwrites.**  Overwriting an existing file leaves, whatever the
new data are and wherever the call stops, the complete old or the complete new
file, exactly for the sizes and layouts of `SafeOverwrite`.
-/
theorem overwrite_atomic_iff
    (h : ExistingFile serves v name slot old) (hsize : size < 2 ^ 32) :
    (∀ data k, OldOrNew serves v name data size k) ↔
      SafeOverwrite v (oldSize v slot) size old := by
  unfold SafeOverwrite
  split_ifs with hzero hfull
  · exact h.all_iff_of_none hsize hzero
  · exact h.all_iff_of_full hfull
  · have hspace : clustersNeeded v.geom size ≤
        freeCount v.geom v.fat + old.length := by omega
    by_cases hone : clustersNeeded v.geom size = 1
    · rw [h.all_iff_of_one hsize hone hspace]
      exact (and_iff_right hone).symm
    · refine iff_of_false (h.not_all_of_many hsize (by omega) hspace) ?_
      exact fun hsafe => hone hsafe.1

end Overwriting

section Instances

/-- A file of one byte on the formatted volume, in cluster 2. -/
theorem exists_oneByteFile :
    ∃ v,
      fat16WriteFile (fun _ => true) formattedVolume sampleName (fun _ => 0x11) 1 =
          .ok v ∧
        ExistingFile (fun _ => true) v sampleName 0 [2] ∧
        oldSize v 0 = 1 ∧ clustersNeeded v.geom 1 = 1 ∧
        allocCluster { v with fat := cleared v.fat [2] } = some 2 := by
  have heval :
      (fat16WriteFile (fun _ => true) formattedVolume sampleName (fun _ => 0x11)
          1).toOption.any (fun v =>
        v.geom.rootDirBytes = 512 ∧ v.geom.clusterSizeBytes = 512 ∧
          v.geom.fatCacheEntries = 256 ∧
          (scanSlots v sampleName).1 = some 0 ∧
          ¬ (readDirent (rootBytes v) 0).IsDirectory ∧
          (readDirent (rootBytes v) 0).firstCluster = 2 ∧
          oldSize v 0 = 1 ∧ v.fat 2 = 0xFFFF ∧ clustersNeeded v.geom 1 = 1 ∧
          allocCluster { v with fat := cleared v.fat [2] } = some 2) = true := by
    decide
  obtain ⟨v, hwrite, hfacts⟩ := any_toOption.mp heval
  simp only [decide_eq_true_eq] at hfacts
  obtain ⟨hroot, hcsz, hentries, hfound, hdir, hfirst, hsize, hlink, hneeded,
    halloc⟩ := hfacts
  have hnone : (scanSlots formattedVolume sampleName).1 = none := by
    decide
  have hchain : ChainAt v.geom v.fat 2 [2] := by
    refine ⟨rfl, ⟨le_refl 2, by rw [hentries]; decide⟩, ?_⟩
    show eocMin ≤ v.fat 2
    rw [hlink]
    decide
  refine ⟨v, hwrite, ?_, hsize, hneeded, halloc⟩
  refine ⟨intactVolume_formatted.after_write
      (fun _ => not_directory_of_none hnone) (by decide) hwrite,
    ⟨by omega, rfl⟩, ⟨by omega, rfl⟩, by decide, by decide, hfound, hdir,
    Or.inr (by rw [hfirst]; exact hchain), ?_, ?_⟩
  · change oldSize v 0 ≤ _
    rw [hsize, hcsz]
    decide
  · change _ < oldSize v 0 + _
    rw [hsize, hcsz]
    decide

/-- Another byte in its place is written safely. -/
theorem overwrite_atomic_one_byte :
    ∃ v,
      fat16WriteFile (fun _ => true) formattedVolume sampleName (fun _ => 0x11) 1 =
          .ok v ∧
        ExistingFile (fun _ => true) v sampleName 0 [2] ∧
        ∀ data k, OldOrNew (fun _ => true) v sampleName data 1 k := by
  obtain ⟨v, hwrite, hfile, hsize, hneeded, halloc⟩ := exists_oneByteFile
  refine ⟨v, hwrite, hfile, (overwrite_atomic_iff hfile (by decide)).mpr ?_⟩
  unfold SafeOverwrite
  rw [hneeded, if_neg (by decide), if_neg (by simp), hsize]
  refine ⟨rfl, ?_⟩
  intro c hc
  rw [halloc] at hc
  cases hc
  exact Or.inr ⟨rfl, rfl, by decide⟩

/--
Two bytes instead of one: when the machine stops after the first sector, the file
is the first of the new bytes.
-/
theorem overwrite_torn :
    ∃ v,
      fat16WriteFile (fun _ => true) formattedVolume sampleName (fun _ => 0x11) 1 =
          .ok v ∧
        ExistingFile (fun _ => true) v sampleName 0 [2] ∧
        ¬ OldOrNew (fun _ => true) v sampleName (fun _ => 0x22) 2 1 := by
  obtain ⟨v, hwrite, hfile, _⟩ := exists_oneByteFile
  refine ⟨v, hwrite, hfile, ?_⟩
  have heval :
      (fat16WriteFile (fun _ => true) formattedVolume sampleName (fun _ => 0x11)
          1).toOption.any (fun v =>
        (fileContents (fun _ => true) v sampleName).toOption =
            some (some [0x11]) ∧
          (fat16Init (fun _ => true)
              (crashImage (fun _ => true) v sampleName (fun _ => 0x22) 2
                1)).toOption.any (fun w =>
            (fileContents (fun _ => true) w sampleName).toOption =
              some (some [0x22]))) = true := by
    decide
  obtain ⟨v', hwrite', hfacts⟩ := any_toOption.mp heval
  rw [hwrite] at hwrite'
  cases hwrite'
  simp only [decide_eq_true_eq] at hfacts
  obtain ⟨hbefore, hafter⟩ := hfacts
  obtain ⟨w, hinit, hcontents⟩ := any_toOption.mp hafter
  simp only [decide_eq_true_eq] at hcontents
  rintro ⟨w', c, hinit', hc, hcases⟩
  rw [hinit] at hinit'
  cases hinit'
  rw [hc] at hcontents
  cases hcontents
  rcases hcases with hold | hnew
  · rw [hold] at hbefore
    exact absurd hbefore (by decide)
  · exact absurd hnew (by decide)

end Instances

end Fat16
end RebornOS
