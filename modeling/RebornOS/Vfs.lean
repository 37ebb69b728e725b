import RebornOS.Fat16DirectoryLoss
import RebornOS.Fat16Termination
import RebornOS.HeapRefinement

/-!
# The two ways to read a whole file

A shallow embedding of `kernel/src/vfs.c`.  Its functions hold one lock around a
call of the FAT16 driver; what they add to it is in `vfs_read_file`, which takes a
block of the file's size from the heap, and in the conversions of the results.

With enough memory, `vfs_read_file` and `vfs_read_file_into` agree on a path exactly if
its directories can be read and its file has the clusters for its size, and at least one
byte: `vfs_read_file` panics after a short read, and `kmalloc(0)` is `NULL`.
-/

namespace RebornOS
namespace Vfs

open ByteStore Fat16 Fallible

variable {v : Volume} {c d fuel limit remaining : Nat} {buf buf' : Store}
  {serves : Nat → Bool} {file : File}

/-- Why a call does not return. -/
inductive VfsPanic where
  /-- A panic of the driver. -/
  | driver (reason : Panic)
  /-- `vfs_read_file: kmalloc(size) failed`. -/
  | readAlloc (size : Nat)
  /-- `vfs_read_file: short read (read of size bytes)`. -/
  | shortRead (read size : Nat)
deriving DecidableEq

section Calls

variable (serves : Nat → Bool) (v : Volume)

/--
`vfs_read_file`: the block and the size it returns.  `block` is the content of the
block from `kmalloc`, and `held` says what the heap serves while that is held.
-/
def vfsReadFile (held : Nat → Bool) (path : CString) (block : Store) :
    Except VfsPanic (Option (Store × Nat)) := do
  match ← (fat16Open serves v path).mapError .driver with
  | none => .ok none
  | some file =>
      if kmallocOk serves file.size then do
        let r ← (fat16Read held v file block file.size).mapError .driver
        if r.1 ≠ file.size then
          .error (.shortRead r.1 file.size)
        else
          .ok (some (r.2, file.size))
      else
        .error (.readAlloc file.size)

/-- `vfs_read_file_into`: the value it returns and the buffer afterwards. -/
def vfsReadFileInto (path : CString) (buf : Store) (maxLen : Nat) :
    Except VfsPanic (Int × Store) := do
  match ← (fat16Open serves v path).mapError .driver with
  | none => .ok (-1, buf)
  | some file => do
      let r ← (fat16Read serves v file buf maxLen).mapError .driver
      .ok (Int.bmod r.1 (2 ^ 32), r.2)

/-- `vfs_write_file`, which returns 1. -/
def vfsWriteFile (path : CString) (data : Nat → UInt8) (size : Nat) :
    Except (Panic × Volume) (Int × Volume) :=
  (fat16WriteFile serves v path data size).map (fun v' => (1, v'))

/-- `vfs_list_dir`. -/
def vfsListDir (path : CString) (buf : Store) (maxLen : Nat) :
    Except Panic (Int × Store) :=
  fat16ListDir serves v path buf maxLen

end Calls

section Reading

/-- The file has the clusters for its size. -/
def HasClusters (v : Volume) (file : File) : Prop :=
  ∀ i, i * v.geom.clusterSizeBytes < file.size → Linked v (v.fat^[i] file.firstCluster)

/-- Byte `i` of the file that starts at cluster `c`. -/
def fileByte (v : Volume) (c i : Nat) : UInt8 :=
  v.device.disk
    (v.geom.clusterAddr (v.fat^[i / v.geom.clusterSizeBytes] c) +
      i % v.geom.clusterSizeBytes)

theorem fileByte_of_lt
    {i : Nat} (hi : i < v.geom.clusterSizeBytes) :
    fileByte v c i = v.device.disk (v.geom.clusterAddr c + i) := by
  simp [fileByte, Nat.div_eq_of_lt hi, Nat.mod_eq_of_lt hi]

theorem fileByte_add
    (v : Volume) (c i : Nat) :
    fileByte v c (v.geom.clusterSizeBytes + i) = fileByte v (v.fat c) i := by
  have hpos := v.geom.clusterSizeBytes_pos
  simp [fileByte, Nat.add_div_left i hpos]

/-- Reading along linked clusters copies their bytes. -/
theorem readLoop_of_linked
    (dst : Nat) (buf : Store)
    (hlinked : ∀ i, i * v.geom.clusterSizeBytes < remaining → Linked v (v.fat^[i] c))
    (hfuel : remaining ≤ fuel) :
    ∃ buf', readLoop v fuel c remaining dst buf = .ok (0, buf') ∧
      (∀ i, i < remaining → buf' (dst + i) = fileByte v c i) ∧
      ∀ x, x < dst → buf' x = buf x := by
  induction fuel generalizing c remaining dst buf with
  | zero =>
      obtain rfl : remaining = 0 := by omega
      exact ⟨buf, rfl, by simp, fun _ _ => rfl⟩
  | succ fuel ih =>
      have hpos := v.geom.clusterSizeBytes_pos
      rcases Nat.eq_zero_or_pos remaining with rfl | hremaining
      · exact ⟨buf, readLoop_zero _ c dst buf, by simp, fun _ _ => rfl⟩
      · have hc : Linked v c := hlinked 0 (by omega)
        rw [readLoop, if_pos ⟨hremaining, hc.1⟩, fatNextCluster_eq hc.2, ok_bind]
        have hnext : ∀ i, i * v.geom.clusterSizeBytes <
            remaining - min v.geom.clusterSizeBytes remaining →
            Linked v (v.fat^[i] (v.fat c)) :=
          fun i hi => hlinked (i + 1) (by rw [Nat.add_mul, Nat.one_mul]; omega)
        obtain ⟨buf', hloop, hbytes, hkept⟩ :=
          ih (dst + min v.geom.clusterSizeBytes remaining)
            (copyIn buf dst (min v.geom.clusterSizeBytes remaining)
              (fun i => v.device.disk (v.geom.clusterAddr c + i))) hnext (by omega)
        refine ⟨buf', hloop, ?_, ?_⟩
        · intro i hi
          by_cases hfirst : i < min v.geom.clusterSizeBytes remaining
          · rw [hkept _ (by omega), copyIn, if_pos (by omega), fileByte_of_lt (by omega)]
            congr 2
            omega
          · -- the first chunk was a whole cluster
            have hwhole : min v.geom.clusterSizeBytes remaining =
                v.geom.clusterSizeBytes := by omega
            obtain ⟨j, rfl⟩ := Nat.exists_eq_add_of_le
              (show v.geom.clusterSizeBytes ≤ i by omega)
            have hj := hbytes j (by omega)
            rw [hwhole] at hj
            rw [fileByte_add, ← hj]
            congr 1
            omega
        · intro x hx
          rw [hkept x (by omega), copyIn_outside (by omega)]

/-- And a loop that has copied everything went along linked clusters. -/
theorem linked_of_readLoop
    {dst : Nat} (h : readLoop v fuel c remaining dst buf = .ok (0, buf')) :
    ∀ i, i * v.geom.clusterSizeBytes < remaining → Linked v (v.fat^[i] c) := by
  induction fuel generalizing c remaining dst buf with
  | zero =>
      cases h
      simp
  | succ fuel ih =>
      by_cases hin : 0 < remaining ∧ 2 ≤ c ∧ c < eocMin
      · rw [readLoop, if_pos hin] at h
        obtain ⟨next, hnext, hrest⟩ := bind_eq_ok.mp h
        unfold fatNextCluster at hnext
        split_ifs at hnext with hlt
        cases hnext
        intro i hi
        cases i with
        | zero =>
            exact ⟨hin.2, hlt⟩
        | succ i =>
            rw [Nat.succ_mul] at hi
            exact ih hrest i (by omega)
      · rw [readLoop, if_neg hin] at h
        cases h
        simp

/-- Reading a file that has the clusters for its size. -/
theorem fat16Read_of_hasClusters
    (buf : Store) (h : HasClusters v file)
    (hbuf : kmallocOk serves v.geom.clusterSizeBytes) :
    ∃ buf', fat16Read serves v file buf file.size = .ok (file.size, buf') ∧
      ∀ i, i < file.size → buf' i = fileByte v file.firstCluster i := by
  obtain ⟨buf', hloop, hbytes, _⟩ := readLoop_of_linked 0 buf h (le_refl _)
  refine ⟨buf', ?_, by simpa using hbytes⟩
  simp only [fat16Read, if_pos hbuf, Nat.min_self, hloop, ok_bind, Nat.sub_zero]

/-- A file that was read as a whole has them. -/
theorem hasClusters_of_fat16Read
    (h : fat16Read serves v file buf file.size = .ok (file.size, buf')) :
    HasClusters v file := by
  unfold fat16Read at h
  split_ifs at h
  obtain ⟨r, hloop, hr⟩ := bind_eq_ok.mp h
  rw [Nat.min_self] at hloop hr
  intro i hi
  have hcount : file.size - r.1 = file.size :=
    congrArg Prod.fst (Except.ok.inj hr)
  have hnone : r.1 = 0 := by omega
  have hall : r = (0, r.2) := Prod.ext hnone rfl
  rw [hall] at hloop
  exact linked_of_readLoop hloop i hi

end Reading

section Memory

open Heap

/-- The heap serves every request of at most `limit` bytes. -/
structure FreeBlock (serves : Nat → Bool) (limit : Nat) : Prop where
  bound : limit ≤ heapSize
  served : ∀ n, 0 < n → n ≤ limit → serves n = true

/-- What `kmalloc` serves in a state of the heap. -/
def heapServes (h : State) (n : Nat) : Bool :=
  ((kmalloc h n).map (fun r => decide (r.1 ≠ 0))).getD false

/-- A free block serves what fits into it after rounding. -/
theorem freeBlock_of_represents
    {h : State} {xs : List Block} {x : Block} (hr : Represents h xs) (hx : x ∈ xs)
    (hfree : x.free = true) (hlimit : limit + 15 ≤ x.size) :
    FreeBlock (heapServes h) limit := by
  obtain ⟨hlow, hhigh⟩ := hr.tiles.mem_bounds hx
  constructor
  · unfold Block.finish heapEnd at hhigh
    omega
  · intro n hpos hn
    have hround : roundUp n ≤ x.size := by
      refine le_trans (Nat.and_le_left.trans (Nat.mod_le _ _)) ?_
      unfold heapAlign
      omega
    cases halloc : allocList (roundUp n) xs with
    | none =>
        exact absurd ⟨hfree, hround⟩ (allocList_eq_none_iff.mp halloc x hx)
    | some r =>
        obtain ⟨h', hkmalloc, _⟩ := hr.kmalloc_of_some (by omega) halloc
        obtain ⟨pre, y, post, _, _, _, hptr, _⟩ := allocList_eq_some halloc
        have hne : r.1 ≠ 0 := by
          rw [hptr]
          unfold Block.ptr headerSize
          omega
        simp [heapServes, hkmalloc, hne]

end Memory

section Agreement

variable {held : Nat → Bool} {path : CString} {limit' : Nat}

/--
What reading the path needs of the volume: every subdirectory on it has a cluster and
a chain that ends, and its file is not empty and has the clusters for its size.
-/
structure Readable (serves : Nat → Bool) (v : Volume) (path : CString) : Prop where
  directories :
    ∀ d, ReadsDir serves v (.openFile path) d → d ≠ 0 →
      ∃ cs, walkChain v d = .ok (d :: cs)
  file :
    ∀ file, fat16Open serves v path = .ok (some file) →
      file.size ≠ 0 ∧ HasClusters v file

/-- The limit covers every buffer that reading the path needs. -/
structure Covers (serves : Nat → Bool) (v : Volume) (path : CString) (limit : Nat) :
    Prop where
  directories : ∀ d, ReachDir v d → directorySize v d ≤ limit
  cluster : v.geom.clusterSizeBytes ≤ limit
  file : ∀ f, fat16Open serves v path = .ok (some f) → f.size ≤ limit

/--
Neither call panics; the one succeeds exactly if the other returns a count, and
then they deliver the same size and the same bytes.
-/
def ReadPathsAgree (serves held : Nat → Bool) (v : Volume) (path : CString) : Prop :=
  ∀ block buf size,
    (∀ file, fat16Open serves v path = .ok (some file) → size = file.size) →
    ∃ out count buf',
      vfsReadFile serves v held path block = .ok out ∧
        vfsReadFileInto serves v path buf size = .ok (count, buf') ∧
        (out ≠ none ↔ 0 ≤ count) ∧
        ∀ content n, out = some (content, n) →
          count = n ∧ ∀ i, i < n → content i = buf' i

theorem FreeBlock.kmallocOk
    (h : FreeBlock serves limit) {n : Nat} (hpos : 0 < n) (hn : n ≤ limit) :
    kmallocOk serves n :=
  ⟨Nat.pos_iff_ne_zero.mp hpos, h.served n hpos hn⟩

/-- The directories on a path can be reached. -/
theorem reach_of_reads
    {more : List UInt8 → Prop} {d' : Nat} {p : List UInt8}
    (h : Reads serves v more d p d') (hd : ReachDir v d) : ReachDir v d' := by
  induction h with
  | here =>
      exact hd
  | next _ hfind hdir _ ih =>
      obtain ⟨_, e, _, _, hentry⟩ := entryOf_of_find hfind
      exact ih (ReachDir.sub hd hentry hdir)

/-- A directory for which there is memory can be read if its chain can. -/
theorem readDirectory_returns_iff
    (hheap : FreeBlock serves limit) (hsize : directorySize v d ≤ limit) :
    (∃ r, readDirectory serves v d = .ok r) ↔
      (d ≠ 0 → ∃ cs, walkChain v d = .ok (d :: cs)) := by
  have hbound := hheap.bound
  have hfits : directorySize v d < 2 ^ 32 := by
    unfold Heap.heapSize at hbound
    omega
  have hreads : ∀ r, dirContents v d = some r → 0 < directorySize v d →
      readDirectory serves v d = .ok r := by
    intro r hr hpos
    refine readDirectory_of_fits hr ?_ hfits
    rw [Nat.mod_eq_of_lt hfits]
    exact hheap.kmallocOk hpos hsize
  constructor
  · rintro ⟨r, hread⟩ hzero
    exact walk_of_readDirectory hzero hread
  · intro hwalk
    by_cases hzero : d = 0
    · subst hzero
      exact ⟨_, hreads (rootBytes v, v.geom.rootDirEntryCount) rfl
        (Nat.mul_pos v.geom.rootDirSectors_pos (by decide))⟩
    · obtain ⟨cs, hcs⟩ := hwalk hzero
      refine ⟨_, hreads (clusterBytes v (d :: cs),
        (d :: cs).length * v.geom.clusterSizeBytes / direntSize) ?_ ?_⟩
      · simp [dirContents, hzero, hcs, Except.toOption]
      · rw [directorySize_of_walk hzero hcs]
        exact Nat.mul_pos (by simp) v.geom.clusterSizeBytes_pos

/-- So the path is resolved exactly if its directories can be walked. -/
theorem fat16Open_returns_iff
    (hheap : FreeBlock serves limit) (hlimit : Covers serves v path limit) :
    (∃ r, fat16Open serves v path = .ok r) ↔
      ∀ d, ReadsDir serves v (.openFile path) d → d ≠ 0 →
        ∃ cs, walkChain v d = .ok (d :: cs) := by
  have hok : ∀ {α : Type} (x : Except Panic α),
      (∃ a, x = .ok a) ↔ ∀ e, x = .error e → False := by
    intro α x
    cases x with
    | error e => simp
    | ok a => simp
  have hG := Traced.sequential_panics (ε := Access) (fun _ : Panic => False)
  rw [hok, ← tracedOpen_result (Nat.lt_succ_self _), tracedOpen_iff hG (Nat.lt_succ_self _)]
  refine forall₂_congr (fun d hd => ?_)
  rw [tracedDirectory_result (Nat.lt_succ_self _), ← hok]
  exact readDirectory_returns_iff hheap
    (hlimit.directories d (reach_of_reads hd ReachDir.root))

/-- An empty file has no buffer. -/
theorem vfsReadFile_empty
    (hopen : fat16Open serves v path = .ok (some file)) (hsize : file.size = 0)
    (block : Store) : vfsReadFile serves v held path block = .error (.readAlloc 0) := by
  have hnull : ¬ Fat16.kmallocOk serves 0 := fun h => h.1 rfl
  simp only [vfsReadFile, hopen, Except.mapError, ok_bind, hsize, hnull, if_false]

/-- Nothing is copied from it. -/
theorem vfsReadFileInto_empty
    (hopen : fat16Open serves v path = .ok (some file)) (hsize : file.size = 0)
    (hbuf : Fat16.kmallocOk serves v.geom.clusterSizeBytes) (buf : Store) (m : Nat) :
    vfsReadFileInto serves v path buf m = .ok (0, buf) := by
  simp [vfsReadFileInto, hopen, Except.mapError, ok_bind, fat16Read, hbuf,
    hsize, readLoop]

/-- A file that `vfs_read_file` returns. -/
theorem readable_of_vfsReadFile
    {block : Store} {out : Option (Store × Nat)}
    (hopen : fat16Open serves v path = .ok (some file))
    (h : vfsReadFile serves v held path block = .ok out) :
    file.size ≠ 0 ∧ HasClusters v file := by
  by_cases hserved : Fat16.kmallocOk serves file.size
  · cases hread : fat16Read held v file block file.size with
    | error e =>
        simp [vfsReadFile, hopen, Except.mapError, hserved, hread, bind,
          Except.bind] at h
    | ok r =>
        by_cases hcount : r.1 = file.size
        · have hall : r = (file.size, r.2) := Prod.ext hcount rfl
          rw [hall] at hread
          exact ⟨hserved.1, hasClusters_of_fat16Read hread⟩
        · simp [vfsReadFile, hopen, Except.mapError, ok_bind, hserved, hread,
            hcount] at h
  · simp [vfsReadFile, hopen, Except.mapError, ok_bind, hserved] at h

/--
**Reading.**  With a large enough free block, the two ways to read a file agree
exactly if the directories on the path can be walked, and the file is not empty and has
the clusters for its size.
-/
theorem read_paths_agree_iff
    (hheap : FreeBlock serves limit) (hlimit : Covers serves v path limit)
    (hheld : FreeBlock held limit') (hcluster : v.geom.clusterSizeBytes ≤ limit') :
    ReadPathsAgree serves held v path ↔ Readable serves v path := by
  constructor
  · intro hagree
    have hopened : ∃ r, fat16Open serves v path = .ok r := by
      cases hopen : fat16Open serves v path with
      | error e =>
          obtain ⟨out, _, _, hread, _⟩ :=
            hagree (fun _ => 0) (fun _ => 0) 0 (by simp [hopen])
          simp [vfsReadFile, hopen, Except.mapError, bind, Except.bind] at hread
      | ok r =>
          exact ⟨r, rfl⟩
    refine ⟨(fat16Open_returns_iff hheap hlimit).mp hopened, ?_⟩
    intro file hopen
    obtain ⟨out, _, _, hread, _⟩ :=
      hagree (fun _ => 0) (fun _ => 0) file.size (by
        intro file' hfile'
        rw [hopen] at hfile'
        cases hfile'
        rfl)
    exact readable_of_vfsReadFile hopen hread
  · intro hreadable block buf size hsize
    obtain ⟨result, hopen⟩ :=
      (fat16Open_returns_iff hheap hlimit).mpr hreadable.directories
    cases result with
    | none =>
        refine ⟨none, -1, buf, ?_, ?_, by simp, by simp⟩
        · simp [vfsReadFile, hopen, Except.mapError, ok_bind]
        · simp [vfsReadFileInto, hopen, Except.mapError, ok_bind]
    | some file =>
        obtain rfl := hsize file hopen
        have hbound := hheap.bound
        unfold Heap.heapSize at hbound
        have hle := hlimit.file file hopen
        obtain ⟨hne, hclusters⟩ := hreadable.file file hopen
        have hpos := Nat.pos_of_ne_zero hne
        have hcsb := v.geom.clusterSizeBytes_pos
        obtain ⟨content, hread, hcontent⟩ :=
          fat16Read_of_hasClusters block hclusters (hheld.kmallocOk hcsb hcluster)
        obtain ⟨buf', hread', hbuf'⟩ :=
          fat16Read_of_hasClusters buf hclusters (hheap.kmallocOk hcsb hlimit.cluster)
        have hint : Int.bmod file.size (2 ^ 32) = file.size :=
          Int.bmod_eq_of_le (by omega) (by omega)
        refine ⟨some (content, file.size), file.size, buf', ?_, ?_, by simp, ?_⟩
        · simp [vfsReadFile, hopen, Except.mapError, ok_bind,
            hheap.kmallocOk hpos hle, hread]
        · simp only [vfsReadFileInto, hopen, Except.mapError, ok_bind, hread', hint]
        · intro content' n hsome
          cases hsome
          refine ⟨rfl, fun i hi => ?_⟩
          rw [hcontent i hi, hbuf' i hi]

theorem walkChain_tree
    (hc : c = 2 ∨ c = 3) : walkChain treeVolume c = .ok [c] := by
  rcases hc with rfl | rfl
  · exact toOption_eq_some.mp (by decide)
  · exact toOption_eq_some.mp (by decide)

theorem freeBlock_always : FreeBlock (fun _ => true) Heap.heapSize :=
  ⟨le_refl _, fun _ _ _ => rfl⟩

/-- `longname/x`, a file of one byte. -/
theorem read_paths_agree_tree :
    (∃ file, fat16Open (fun _ => true) treeVolume belowPath = .ok (some file)) ∧
      ReadPathsAgree (fun _ => true) (fun _ => true) treeVolume belowPath := by
  have hopen : fat16Open (fun _ => true) treeVolume belowPath = .ok (some ⟨3, 1⟩) :=
    toOption_eq_some.mp (by decide)
  have hcovers : Covers (fun _ => true) treeVolume belowPath Heap.heapSize := by
    refine ⟨?_, by decide, ?_⟩
    · intro d hd
      rcases reachDir_tree hd with rfl | rfl
      · decide
      · rw [directorySize_of_walk (by decide) (walkChain_tree (Or.inl rfl))]
        decide
    · intro f hf
      rw [hopen] at hf
      cases hf
      decide
  refine ⟨⟨_, hopen⟩, (read_paths_agree_iff freeBlock_always hcovers
    freeBlock_always (by decide)).mpr ⟨?_, ?_⟩⟩
  · intro d hd hzero
    obtain rfl := (reachDir_tree (reach_of_reads hd ReachDir.root)).resolve_left hzero
    exact ⟨[], walkChain_tree (Or.inl rfl)⟩
  · intro file hfile
    rw [hopen] at hfile
    cases hfile
    refine ⟨by decide, fun i hi => ?_⟩
    have hsize : treeVolume.geom.clusterSizeBytes = 512 := by decide
    rw [hsize] at hi
    obtain rfl : i = 0 := by
      change i * 512 < 1 at hi
      omega
    exact ⟨by decide, by decide⟩

/--
**An empty file.**  After `vfs_write_file("a.b", data, 0)` the volume is complete and
the file can be opened; `vfs_read_file_into` returns 0, and `vfs_read_file` panics.
-/
theorem empty_file_panics :
    ∃ v',
      vfsWriteFile (fun _ => true) formattedVolume sampleName UInt8.ofNat 0 =
          .ok (1, v') ∧
        Complete v' ∧
        Covers (fun _ => true) v' sampleName Heap.heapSize ∧
        (∀ buf, vfsReadFileInto (fun _ => true) v' sampleName buf 0 =
          .ok (0, buf)) ∧
        (∀ block, vfsReadFile (fun _ => true) v' (fun _ => true) sampleName block =
          .error (.readAlloc 0)) ∧
        ¬ ReadPathsAgree (fun _ => true) (fun _ => true) v' sampleName := by
  have hrun : (fat16WriteFile (fun _ => true) formattedVolume sampleName UInt8.ofNat
      0).toOption.any (fun v' =>
        readDirent (rootBytes v') 0 =
            ⟨format83 sampleName.bytes, attrArchive, 0, 0, 0⟩ ∧
          firstByte (rootBytes v') 1 = 0 ∧
          (fat16Open (fun _ => true) v' sampleName).toOption =
            some (some ⟨0, 0⟩)) = true := by
    decide +kernel
  obtain ⟨v', hok, hfacts⟩ := any_toOption.mp hrun
  rw [decide_eq_true_eq, toOption_eq_some] at hfacts
  obtain ⟨hentry, hend, hopen⟩ := hfacts
  obtain ⟨slot, old, new, _, hcall⟩ := intactCall_of_ok (by decide) intact_formatted
    (fun e hvis => absurd formattedVolume_empty (hvis.not_ended 0 (Nat.zero_le e)))
    (by decide) hok
  have hgeom : v'.geom = formattedGeometry := hcall.effect.geom
  -- the new entry is the only one, and it has no cluster
  have hroot : ∀ {e ent}, EntryOf v' 0 e ent →
      ent = ⟨format83 sampleName.bytes, attrArchive, 0, 0, 0⟩ := by
    intro e ent h
    obtain ⟨hvis, rfl, _⟩ := entryOf_root_iff.mp h
    rw [eq_zero_of_visible hend hvis, hentry]
  have hreach : ∀ {d}, ReachDir v' d → d = 0 := by
    refine reachDir_eq_zero (fun e ent hsub => ?_)
    rw [hroot hsub]
    decide
  have hcovers : Covers (fun _ => true) v' sampleName Heap.heapSize := by
    refine ⟨?_, by rw [hgeom]; decide, ?_⟩
    · intro d hd
      rw [hreach hd, directorySize, if_pos rfl, hgeom]
      decide
    · intro f hf
      rw [hopen] at hf
      cases hf
      exact Nat.zero_le _
  have hempty : ∀ block, vfsReadFile (fun _ => true) v' (fun _ => true) sampleName
      block = .error (.readAlloc 0) :=
    vfsReadFile_empty hopen rfl
  have hinto : ∀ buf, vfsReadFileInto (fun _ => true) v' sampleName buf 0 =
      .ok (0, buf) := by
    intro buf
    exact vfsReadFileInto_empty hopen rfl (by rw [hgeom]; decide) buf 0
  refine ⟨v', by rw [vfsWriteFile, hok]; rfl,
    hcall.complete_after complete_formatted, hcovers, hinto, hempty, ?_⟩
  intro hagree
  obtain ⟨out, _, _, hread, _⟩ := hagree (fun _ => 0) (fun _ => 0) 0 (by
    intro file hfile
    rw [hopen] at hfile
    cases hfile
    rfl)
  rw [hempty] at hread
  cases hread

end Agreement

end Vfs
end RebornOS
