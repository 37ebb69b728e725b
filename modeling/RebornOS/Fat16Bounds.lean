import RebornOS.Fat16Termination

/-!
# Which accesses stay inside

Most accesses to the FAT cache go through the check of `fat_next_cluster`, and most
buffers are as large as what is stored into them.  Three places make no check: the
32-bit size of a directory buffer, the loop that frees the old clusters of a file,
and the cluster buffer of `fat16_write_file`.  `call_inside_iff` says when they do
not matter.
-/

namespace RebornOS
namespace Fat16

open ByteStore TableChain
open Traced (All all_bind all_emit_bind sequential_all)

variable {g : Geometry} {v : Volume} {n : Nat}

/-- Every access of the call is inside, however long it runs. -/
def StaysInside (serves : Nat → Bool) (v : Volume) (call : FsCall) : Prop :=
  ∀ rounds, All (Access.Inside v.geom) (callTrace serves v rounds call)

/--
A write that gets as far as the old clusters stays on the FAT there, and has a
cluster buffer if it gets a cluster.
-/
def WritesInside (serves : Nat → Bool) (v : Volume) (name : CString) (size : Nat) :
    Prop :=
  kmallocOk serves v.geom.rootDirBytes → chooseSlot v name ≠ none →
    FreesInside v name ∧
      (0 < clustersNeeded v.geom size →
        (∃ c, c < v.geom.fatCacheEntries ∧ Freeable v name c) →
        kmallocOk serves v.geom.clusterSizeBytes)

/-- What a call needs so that its accesses are inside. -/
def NeedsInside (serves : Nat → Bool) (v : Volume) : FsCall → Prop
  | .openFile path => ∀ d, ReadsDir serves v (.openFile path) d → Fits serves v d
  | .readFile _ _ _ => True
  | .listDir path buf maxLen =>
      ∀ d, ReadsDir serves v (.listDir path buf maxLen) d → Fits serves v d
  | .writeFile name _ size => WritesInside serves v name size

section Reading

@[simp] theorem inside_fat
    {index : Nat} : Access.Inside g (.fat index) ↔ index < g.fatCacheEntries :=
  Iff.rfl

@[simp] theorem inside_store
    {offset length size : Nat} :
    Access.Inside g (.store offset length size) ↔ offset + length ≤ size :=
  Iff.rfl

variable {serves : Nat → Bool}

/-- `fat_next_cluster` checks the index. -/
theorem tracedNext_inside
    (c : Nat) : All (Access.Inside v.geom) (tracedNext v c) := by
  rw [tracedNext]
  split_ifs with hlt
  · simpa using hlt
  · simp

theorem tracedCount_inside
    (n c : Nat) : All (Access.Inside v.geom) (tracedCount v n c) := by
  induction n generalizing c with
  | zero =>
      simp [tracedCount]
  | succ n ih =>
      rw [tracedCount]
      split_ifs
      · refine all_bind.mpr ⟨tracedNext_inside c, fun next _ => ?_⟩
        exact ((sequential_all _).bind_pure _ _).mpr (ih next)
      · simp

/-- The clusters of a walk fit into the buffer, or one of them is the first not to. -/
theorem tracedFill_inside_iff
    {total c dst : Nat} {cs : List Nat} (hwalk : walkFrom v n c = .ok cs)
    (hdst : dst ≤ total) :
    All (Access.Inside v.geom) (tracedFill v total n c dst) ↔
      dst + cs.length * v.geom.clusterSizeBytes ≤ total := by
  induction n generalizing c dst cs with
  | zero =>
      cases hwalk
  | succ n ih =>
      by_cases hin : 2 ≤ c ∧ c < eocMin
      · by_cases hlt : c < v.geom.fatCacheEntries
        · rw [walkFrom_linked ⟨hin, hlt⟩] at hwalk
          obtain ⟨rest, hrest, rfl⟩ := Fallible.map_eq_ok.mp hwalk
          rw [tracedFill, if_pos hin, all_emit_bind, List.length_cons,
            Nat.add_mul, Nat.one_mul, Nat.add_comm (rest.length * _), ← Nat.add_assoc]
          simp only [List.mem_singleton, forall_eq, inside_store]
          by_cases hover : total < dst + v.geom.clusterSizeBytes
          · exact iff_of_false (fun h => by omega) (by omega)
          · rw [if_neg hover, all_bind, tracedNext_result, fatNextCluster_eq hlt]
            simp only [tracedNext_inside, true_and, Except.ok.injEq, forall_eq']
            rw [(sequential_all _).bind_pure, ih hrest (by omega)]
            exact and_iff_right (by omega)
        · rw [walkFrom_off hin hlt] at hwalk
          cases hwalk
      · rw [walkFrom_stop hin] at hwalk
        cases hwalk
        rw [tracedFill, if_neg hin]
        simpa using hdst

theorem tracedRoot_inside : All (Access.Inside v.geom) (tracedRoot serves v) := by
  rw [tracedRoot]
  split_ifs <;> simp

theorem tracedSubdir_inside_iff
    (h : v.geom.fatCacheEntries < n) (first : Nat) :
    All (Access.Inside v.geom) (tracedSubdir serves v n first) ↔
      ∀ cs, walkChain v first = .ok cs →
        kmallocOk serves (cs.length * v.geom.clusterSizeBytes % 2 ^ 32) →
        cs.length * v.geom.clusterSizeBytes < 2 ^ 32 := by
  rw [tracedSubdir, all_bind, tracedCount_result,
    and_iff_right (tracedCount_inside n first), ← walkFrom_eq_walkChain h]
  cases hwalk : walkFrom v n first with
  | error e =>
      simp [Except.map]
  | ok cs =>
      simp only [Except.map, Except.ok.injEq, forall_eq']
      by_cases hserved : kmallocOk serves
          (cs.length * v.geom.clusterSizeBytes % 2 ^ 32)
      · rw [if_pos hserved, (sequential_all _).bind_pure,
          tracedFill_inside_iff hwalk (Nat.zero_le _), Nat.zero_add, imp_iff_right hserved]
        constructor
        · intro hle
          exact lt_of_le_of_lt hle (Nat.mod_lt _ (by decide))
        · exact fun hlt => (Nat.mod_eq_of_lt hlt).ge
      · rw [if_neg hserved]
        exact iff_of_true (Traced.all_fail _) (fun hserved' => absurd hserved' hserved)

/-- A directory is read into a buffer that is large enough if its size fits. -/
theorem tracedDirectory_inside_iff
    (h : v.geom.fatCacheEntries < n) (dir : Nat) :
    All (Access.Inside v.geom) (tracedDirectory serves v n dir) ↔
      Fits serves v dir := by
  rw [tracedDirectory, Fits]
  by_cases hzero : dir = 0
  · rw [if_pos hzero, (sequential_all _).bind_pure]
    exact iff_of_true tracedRoot_inside (fun hne => absurd hzero hne)
  · rw [if_neg hzero, (sequential_all _).bind_pure, tracedSubdir_inside_iff h]
    exact (imp_iff_right hzero).symm

/-- `fat16_read` stays inside for every file and FAT. -/
theorem tracedReadLoop_inside
    (n c remaining dst : Nat) (buf : Store) :
    All (Access.Inside v.geom) (tracedReadLoop v n c remaining dst buf) := by
  induction n generalizing c remaining dst buf with
  | zero =>
      simp [tracedReadLoop]
  | succ n ih =>
      rw [tracedReadLoop]
      split_ifs
      · refine all_emit_bind.mpr ⟨by simp, ?_⟩
        exact all_bind.mpr ⟨tracedNext_inside c, fun next _ => ih _ _ _ _⟩
      · simp

theorem tracedRead_inside
    (n : Nat) (file : File) (buf : Store) (maxLen : Nat) :
    All (Access.Inside v.geom) (tracedRead serves v n file buf maxLen) := by
  rw [tracedRead]
  split_ifs
  · exact ((sequential_all _).bind_pure _ _).mpr (tracedReadLoop_inside _ _ _ _ _)
  · simp

end Reading

section Freeing

/-- The freeing loop stays inside unless it uses an index that it does not check. -/
theorem tracedFree_inside_iff
    (n : Nat) (fat : Nat → Nat) (c : Nat) :
    All (Access.Inside g) (tracedFree g.fatCacheEntries n fat c) ↔
      ∀ d, freeChain g.fatCacheEntries n fat c ≠ .error (.fatIndex d) := by
  induction n generalizing fat c with
  | zero =>
      simp [tracedFree, freeChain]
  | succ n ih =>
      rw [tracedFree, freeChain]
      by_cases hin : 2 ≤ c ∧ c < eocMin
      · rw [if_pos hin, if_pos hin, all_emit_bind]
        by_cases hlt : c < g.fatCacheEntries
        · rw [if_pos hlt, if_pos hlt, ih]
          exact and_iff_right (by simpa using hlt)
        · rw [if_neg hlt, if_neg hlt]
          refine iff_of_false ?_ (fun h => h c rfl)
          exact fun h => hlt (h.1 (.fat c) (by simp))
      · rw [if_neg hin, if_neg hin]
        simp

/-- So the freeing of the old clusters stays inside if their chain does. -/
theorem tracedFreeExisting_inside_iff
    {name : CString} (h : v.geom.fatCacheEntries + 2 ≤ n) :
    All (Access.Inside v.geom)
        (tracedFreeExisting v n (scanSlots v name).1) ↔
      FreesInside v name := by
  unfold FreesInside OldCluster
  cases (scanSlots v name).1 with
  | none =>
      simp [tracedFreeExisting]
  | some e =>
      have hlt : v.geom.fatCacheEntries < n := by omega
      simp [tracedFreeExisting, tracedFree_inside_iff, leavesFat_iff hlt]

end Freeing

section Writing

variable {serves : Nat → Bool}

/-- `alloc_cluster` looks at entries of the FAT only. -/
theorem tracedAlloc_inside : All (Access.Inside v.geom) (tracedAlloc v) := by
  cases halloc : allocCluster v with
  | none =>
      simp only [tracedAlloc, halloc]
      refine all_emit_bind.mpr ⟨?_, Traced.all_fail _⟩
      simp only [List.forall_mem_map, List.mem_range'_1, inside_fat]
      intro c hc
      omega
  | some c =>
      have hlt := (allocCluster_eq_some halloc).1.2
      rw [tracedAlloc_some halloc]
      simp only [Traced.all_emit, List.forall_mem_map, List.mem_range'_1, inside_fat]
      intro d hd
      omega

theorem linkAccesses_inside
    {prev c : Nat} (hprev : prev = 0 ∨ prev < g.fatCacheEntries)
    (hc : c < g.fatCacheEntries) : ∀ x ∈ linkAccesses prev c, Access.Inside g x := by
  unfold linkAccesses
  split_ifs with hzero
  · simpa using hc
  · simpa using ⟨hc, hprev.resolve_left hzero⟩

/-- With a cluster buffer, the writing loop stays inside. -/
theorem tracedClusters_inside
    (data : Nat → UInt8) (n : Nat) (v : Volume) (p : Progress)
    (hprev : p.prevCluster = 0 ∨ p.prevCluster < v.geom.fatCacheEntries) :
    All (Access.Inside v.geom)
      (tracedClusters data v.geom.clusterSizeBytes n v p) := by
  induction n generalizing v p with
  | zero =>
      simp [tracedClusters]
  | succ n ih =>
      rw [tracedClusters]
      refine all_bind.mpr ⟨tracedAlloc_inside, fun c hc => ?_⟩
      have hlt : c < v.geom.fatCacheEntries := by
        cases halloc : allocCluster v with
        | none =>
            rw [tracedAlloc_none halloc] at hc
            cases hc
        | some d =>
            rw [tracedAlloc_some halloc] at hc
            cases hc
            exact (allocCluster_eq_some halloc).1.2
      refine all_emit_bind.mpr ⟨linkAccesses_inside hprev hlt, ?_⟩
      refine all_emit_bind.mpr ⟨by simp, ?_⟩
      exact ih (writeCluster data v p c) (advance v p c) (Or.inr hlt)

/-- Without one, the first store is outside. -/
theorem tracedClusters_null_inside_iff
    (data : Nat → UInt8) (n : Nat) (p : Progress) :
    All (Access.Inside v.geom) (tracedClusters data 0 n v p) ↔
      (0 < n → allocCluster v = none) := by
  cases n with
  | zero =>
      simp [tracedClusters]
  | succ n =>
      rw [tracedClusters, all_bind, and_iff_right tracedAlloc_inside]
      cases halloc : allocCluster v with
      | none =>
          simp [tracedAlloc_none halloc]
      | some c =>
          have hpos := v.geom.clusterSizeBytes_pos
          rw [tracedAlloc_some halloc]
          refine iff_of_false (fun h => ?_) (by simp)
          have hstore := (all_emit_bind.mp
            (all_emit_bind.mp (h c rfl)).2).1 _ List.mem_cons_self
          rw [inside_store] at hstore
          omega

theorem direntAccesses_inside
    {slot : Nat} (h : slot < g.rootDirEntryCount) :
    ∀ x ∈ direntAccesses slot g.rootDirBytes, Access.Inside g x := by
  have hle := g.direntSize_mul_le h
  have hsize : direntSize = 32 := rfl
  simp only [direntAccesses, List.mem_cons, List.not_mem_nil, or_false,
    forall_eq_or_imp, forall_eq, inside_store]
  omega

theorem cacheAccesses_inside
    (g : Geometry) : ∀ x ∈ cacheAccesses g, Access.Inside g x := by
  simp [cacheAccesses]

/-- The writing loop with the cluster buffer that `kmalloc` gives. -/
theorem tracedClusters_served_inside_iff
    (data : Nat → UInt8) (n : Nat) {p : Progress} (hprev : p.prevCluster = 0) :
    All (Access.Inside v.geom)
        (tracedClusters data
          (if kmallocOk serves v.geom.clusterSizeBytes then v.geom.clusterSizeBytes
          else 0) n v p) ↔
      (0 < n → (∃ c, c < v.geom.fatCacheEntries ∧ IsFree v.fat c) →
        kmallocOk serves v.geom.clusterSizeBytes) := by
  by_cases hbuf : kmallocOk serves v.geom.clusterSizeBytes
  · rw [if_pos hbuf]
    exact iff_of_true (tracedClusters_inside data n v p (Or.inl hprev))
      (fun _ _ => hbuf)
  · rw [if_neg hbuf, tracedClusters_null_inside_iff, allocCluster_eq_none]
    simp only [hbuf, imp_false, not_exists, not_and]

/-- What comes after the root directory is read and a slot is chosen. -/
theorem tracedWriteFile_inside_iff
    (h : v.geom.fatCacheEntries + 2 ≤ n) (name : CString) (data : Nat → UInt8)
    (size : Nat) :
    All (Access.Inside v.geom) (tracedWriteFile serves v n name data size) ↔
      WritesInside serves v name size := by
  rw [tracedWriteFile, all_bind, and_iff_right tracedRoot_inside,
    tracedRoot_result, WritesInside]
  by_cases hroot : kmallocOk serves v.geom.rootDirBytes
  · rw [readRootDir_ok hroot]
    simp only [Except.ok.injEq, forall_eq', hroot, forall_const]
    cases hslot : chooseSlot v name with
    | none =>
        simp
    | some slot =>
        have hlt := (slotSpec_of_chooseSlot hslot).lt
        simp only [ne_eq, reduceCtorEq, not_false_eq_true, forall_const]
        rw [all_bind, tracedFreeExisting_inside_iff h, tracedFreeExisting_result h]
        refine and_congr_right (fun hfrees => ?_)
        obtain ⟨fat, hfreed⟩ := freesInside_iff.mp hfrees
        have htail := List.forall_mem_append.mpr
          ⟨direntAccesses_inside hlt, cacheAccesses_inside v.geom⟩
        simp only [hfreed, Except.ok.injEq, forall_eq', ← isFree_freeExisting hfreed]
        rw [all_bind]
        refine (and_iff_left ?_).trans
          (tracedClusters_served_inside_iff (v := { v with fat := fat }) data _ rfl)
        exact fun r _ => all_emit_bind.mpr ⟨htail, Traced.all_pure _⟩
  · have hpanic : readRootDir serves v = .error .rootAlloc := if_neg hroot
    rw [hpanic]
    exact iff_of_true (fun root hok => by cases hok) (fun h' => absurd h' hroot)

/-- The same for any number of rounds that suffices. -/
theorem callTrace_inside_iff
    {call : FsCall} (h : enoughRounds v call ≤ n) :
    All (Access.Inside v.geom) (callTrace serves v n call) ↔
      NeedsInside serves v call := by
  have hG := sequential_all (π := Panic) (Access.Inside v.geom)
  cases call with
  | openFile path =>
      refine (hG.bind_pure _ _).trans ((tracedOpen_iff hG h path).trans ?_)
      exact forall₂_congr (fun d _ => tracedDirectory_inside_iff h d)
  | readFile file buf maxLen =>
      refine iff_of_true ?_ trivial
      exact (hG.bind_pure _ _).mpr (tracedRead_inside _ file buf maxLen)
  | listDir path buf maxLen =>
      refine (hG.bind_pure _ _).trans ((tracedListDir_iff hG h path buf maxLen).trans ?_)
      exact forall₂_congr (fun d _ => tracedDirectory_inside_iff h d)
  | writeFile name data size =>
      exact (hG.bind_pure _ _).trans (tracedWriteFile_inside_iff h name data size)

/--
**Bounds.**  Every access of a call to the FAT cache or a buffer is inside exactly
if the sizes of the directories it reads fit, the chain that a write frees does not
lead off the FAT, and a write that gets a cluster has a cluster buffer.
-/
theorem call_inside_iff
    (serves : Nat → Bool) (v : Volume) (call : FsCall) :
    StaysInside serves v call ↔ NeedsInside serves v call := by
  constructor
  · intro h
    exact (callTrace_inside_iff (le_refl _)).mp (h (enoughRounds v call))
  · intro h rounds
    exact (callTrace_cut (le_max_left rounds (enoughRounds v call)) call).all
      ((callTrace_inside_iff (le_max_right _ _)).mpr h)

end Writing

section Samples

/-- A file `A.B` whose first cluster, 300, is behind the 256 entries of the FAT. -/
def strayDisk : Store :=
  diskOf formattedDisk formattedGeometry (fun _ => freeMark)
    (direntBytes (format83 sampleName.bytes) attrArchive 300 3)

/-- The volume that mounting it gives. -/
def strayVolume : Volume :=
  ⟨formattedGeometry, diskFat formattedGeometry strayDisk, ⟨strayDisk, []⟩⟩

/--
**A stray cluster.**  Writing `a.b` frees the old clusters first and uses
`fs.fat_cache[300]`, without a panic before.
-/
theorem stray_cluster_outside :
    fat16Init (fun _ => true) strayDisk = .ok strayVolume ∧
      strayVolume.geom.fatCacheEntries = 256 ∧
      (callTrace (fun _ => true) strayVolume 2
        (.writeFile sampleName UInt8.ofNat 3)).events =
        [.store 0 512 512, .fat 300, .fat 300] ∧
      ¬ StaysInside (fun _ => true) strayVolume
        (.writeFile sampleName UInt8.ofNat 3) := by
  have hevents : (callTrace (fun _ => true) strayVolume 2
      (.writeFile sampleName UInt8.ofNat 3)).events =
        [.store 0 512 512, .fat 300, .fat 300] := by
    decide
  refine ⟨fat16Init_formatted _ _, by decide, hevents, fun hinside => ?_⟩
  have hlt := hinside 2 (.fat 300) (by rw [hevents]; simp)
  exact absurd (inside_fat.mp hlt) (by decide)

end Samples

end Fat16
end RebornOS
