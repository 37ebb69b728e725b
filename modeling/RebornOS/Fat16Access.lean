import RebornOS.Fat16Write
import RebornOS.Traced

/-!
# What the driver accesses

`callTrace` runs a call of the driver with a trace: it emits every index into the
FAT cache and every range of bytes that is stored into a buffer from `kmalloc`.  A
loop over a chain ends after a given number of rounds at the latest.  With fewer
rounds a trace is the same or cut short (`callTrace_cut`); with enough rounds its
result is that of the driver (`callTrace_result`).
-/

namespace RebornOS
namespace Fat16

open ByteStore TableChain Function Fallible
open Traced (CutBy result_bind)

variable {v : Volume} {c entries n : Nat}

section Walks

variable {m : Nat}

/-- The walk goes on from `c` to the next cluster. -/
def Linked (v : Volume) (c : Nat) : Prop :=
  (2 ≤ c ∧ c < eocMin) ∧ c < v.geom.fatCacheEntries

theorem fatNextCluster_eq
    (h : c < v.geom.fatCacheEntries) : fatNextCluster v c = .ok (v.fat c) :=
  if_pos h

theorem walkFrom_linked
    (h : Linked v c) :
    walkFrom v (n + 1) c = (walkFrom v n (v.fat c)).map (fun cs => c :: cs) := by
  rw [walkFrom, if_pos h.1, fatNextCluster_eq h.2, ok_bind]
  cases walkFrom v n (v.fat c) with
  | error e =>
      rfl
  | ok cs =>
      rfl

theorem walkFrom_stop
    (h : ¬ (2 ≤ c ∧ c < eocMin)) : walkFrom v (n + 1) c = .ok [] :=
  if_neg h

theorem walkFrom_off
    (hin : 2 ≤ c ∧ c < eocMin) (hoff : ¬ c < v.geom.fatCacheEntries) :
    walkFrom v (n + 1) c = .error (.walkedOff c) := by
  rw [walkFrom, if_pos hin, fatNextCluster, if_neg hoff]
  rfl

/-- A walk is cut short as long as it has gone on in every round. -/
theorem walkFrom_endless_iff :
    walkFrom v n c = .error .endless ↔ ∀ i, i < n → Linked v (v.fat^[i] c) := by
  induction n generalizing c with
  | zero =>
      simp [walkFrom]
  | succ n ih =>
      by_cases hc : Linked v c
      · have hmap : walkFrom v (n + 1) c = .error .endless ↔
            walkFrom v n (v.fat c) = .error .endless := by
          rw [walkFrom_linked hc]
          cases walkFrom v n (v.fat c) <;> simp [Except.map]
        rw [hmap, ih]
        constructor
        · intro h i hi
          cases i with
          | zero =>
              exact hc
          | succ i =>
              exact h i (by omega)
        · intro h i hi
          exact h (i + 1) (by omega)
      · have hstops : walkFrom v (n + 1) c ≠ .error .endless := by
          by_cases hin : 2 ≤ c ∧ c < eocMin
          · rw [walkFrom_off hin (fun hlt => hc ⟨hin, hlt⟩)]
            simp
          · rw [walkFrom_stop hin]
            simp
        exact iff_of_false hstops (fun h => hc (h 0 (Nat.succ_pos n)))

/-- More rounds change nothing for a walk that has ended. -/
theorem walkFrom_mono
    (hne : walkFrom v n c ≠ .error .endless) (h : n ≤ m) :
    walkFrom v m c = walkFrom v n c := by
  induction n generalizing m c with
  | zero =>
      exact absurd rfl hne
  | succ n ih =>
      obtain ⟨m, rfl⟩ := Nat.exists_eq_add_of_lt (Nat.lt_of_lt_of_le (Nat.succ_pos n) h)
      rw [Nat.zero_add] at h ⊢
      by_cases hin : 2 ≤ c ∧ c < eocMin
      · by_cases hlt : c < v.geom.fatCacheEntries
        · rw [walkFrom_linked ⟨hin, hlt⟩] at hne ⊢
          rw [walkFrom_linked ⟨hin, hlt⟩, ih ?_ (by omega)]
          intro hend
          rw [hend] at hne
          exact hne rfl
        · rw [walkFrom_off hin hlt, walkFrom_off hin hlt]
      · rw [walkFrom_stop hin, walkFrom_stop hin]

/-- The chain from `c` never ends. -/
def NeverEnds (v : Volume) (c : Nat) : Prop :=
  ∀ i, Linked v (v.fat^[i] c)

/-- A walk that visits more clusters than there are entries never ends. -/
theorem walkChain_endless_iff : walkChain v c = .error .endless ↔ NeverEnds v c := by
  rw [walkChain, walkFrom_endless_iff]
  constructor
  · intro h
    exact iterate_forever (fun x hx => hx.2) (fun i hi => h i (Nat.lt_succ_of_le hi))
  · exact fun h i _ => h i

/-- From there on, the number of rounds does not matter. -/
theorem walkFrom_eq_walkChain
    (h : v.geom.fatCacheEntries < n) : walkFrom v n c = walkChain v c := by
  by_cases hend : walkChain v c = .error .endless
  · rw [hend, walkFrom_endless_iff]
    exact fun i _ => walkChain_endless_iff.mp hend i
  · exact walkFrom_mono hend h

end Walks

/-- An access to the FAT cache or to a buffer from `kmalloc`. -/
inductive Access where
  /-- `fs.fat_cache[index]`. -/
  | fat (index : Nat)
  /-- A store of `length` bytes at `offset` of a buffer of `size` bytes. -/
  | store (offset length size : Nat)
deriving DecidableEq

/-- The access is inside the cache or the buffer. -/
def Access.Inside (g : Geometry) : Access → Prop
  | .fat index => index < g.fatCacheEntries
  | .store offset length size => offset + length ≤ size

section Directories

variable (serves : Nat → Bool) (v : Volume)

/-- `fat_next_cluster` with a trace. -/
def tracedNext (c : Nat) : Traced Panic Access Nat :=
  if c < v.geom.fatCacheEntries then
    .emit [.fat c] (v.fat c)
  else
    .fail (.walkedOff c)

/-- The loop that counts the clusters of a directory. -/
def tracedCount : Nat → Nat → Traced Panic Access Nat
  | 0, _ => .fail .endless
  | rounds + 1, c =>
      if 2 ≤ c ∧ c < eocMin then do
        let next ← tracedNext v c
        let count ← tracedCount rounds next
        pure (count + 1)
      else
        pure 0

/-- The loop that reads them into a buffer of `total` bytes. -/
def tracedFill (total : Nat) : Nat → Nat → Nat → Traced Panic Access (List Nat)
  | 0, _, _ => .fail .endless
  | rounds + 1, c, dst =>
      if 2 ≤ c ∧ c < eocMin then do
        Traced.emit [.store dst v.geom.clusterSizeBytes total] ()
        if total < dst + v.geom.clusterSizeBytes then
          .fail .bufferOverrun
        else do
          let next ← tracedNext v c
          let rest ← tracedFill total rounds next (dst + v.geom.clusterSizeBytes)
          pure (c :: rest)
      else
        pure []

/-- `read_subdir_clusters` with a trace. -/
def tracedSubdir (rounds first : Nat) : Traced Panic Access (Store × Nat) := do
  let count ← tracedCount v rounds first
  let total := count * v.geom.clusterSizeBytes % 2 ^ 32
  if kmallocOk serves total then do
    let clusters ← tracedFill v total rounds first 0
    pure (clusterBytes v clusters, total)
  else
    .fail .directoryAlloc

/-- `read_root_dir` with a trace. -/
def tracedRoot : Traced Panic Access Store :=
  if kmallocOk serves v.geom.rootDirBytes then
    .emit [.store 0 v.geom.rootDirBytes v.geom.rootDirBytes] (rootBytes v)
  else
    .fail .rootAlloc

/-- `read_directory` with a trace. -/
def tracedDirectory (rounds dir : Nat) : Traced Panic Access (Store × Nat) :=
  if dir = 0 then do
    let buf ← tracedRoot serves v
    pure (buf, v.geom.rootDirEntryCount)
  else do
    let r ← tracedSubdir serves v rounds dir
    pure (r.1, r.2 / direntSize)

/-- `find_entry_in_dir` with a trace. -/
def tracedFind (rounds dir : Nat) (want : List UInt8) :
    Traced Panic Access (Option Dirent) := do
  let r ← tracedDirectory serves v rounds dir
  pure ((findFrom r.1 want r.2 0).map (readDirent r.1))

/-- The loop of `resolve_parent_dir` with a trace. -/
def tracedResolve (rounds : Nat) :
    Nat → Nat → List UInt8 → Traced Panic Access (Option (Nat × List UInt8))
  | 0, _, _ => .fail .endless
  | fuel + 1, dir, path =>
      if pathRest path = [] then
        pure (some (dir, component path))
      else do
        match ← tracedFind serves v rounds dir (format83 (component path)) with
        | none => pure none
        | some entry =>
            if entry.IsDirectory then
              tracedResolve rounds fuel entry.firstCluster (pathRest path)
            else
              pure none

/-- `fat16_open` with a trace. -/
def tracedOpen (rounds : Nat) (path : CString) :
    Traced Panic Access (Option File) := do
  match ← tracedResolve serves v rounds (path.bytes.length + 1) 0 path.bytes with
  | none => pure none
  | some (dir, leaf) => do
      let entry ← tracedFind serves v rounds dir (format83 leaf)
      pure (entry.map (fun d => ⟨d.firstCluster, d.fileSize⟩))

/-- The loop of `resolve_directory` with a trace. -/
def tracedResolveDirectory (rounds : Nat) :
    Nat → Nat → List UInt8 → Traced Panic Access (Option Nat)
  | 0, _, _ => .fail .endless
  | fuel + 1, dir, path =>
      if component path = [] then
        pure (some dir)
      else do
        match ← tracedFind serves v rounds dir (format83 (component path)) with
        | none => pure none
        | some entry =>
            if entry.IsDirectory then
              if pathRest path = [] then
                pure (some entry.firstCluster)
              else
                tracedResolveDirectory rounds fuel entry.firstCluster (pathRest path)
            else
              pure none

/-- `fat16_list_dir` with a trace; the lines go to the caller's buffer. -/
def tracedListDir (rounds : Nat) (path : CString) (buf : Store) (maxLen : Nat) :
    Traced Panic Access (Int × Store) := do
  match ← tracedResolveDirectory serves v rounds (path.bytes.length + 1) 0
      path.bytes with
  | none => pure (-1, buf)
  | some dir => do
      let r ← tracedDirectory serves v rounds dir
      let (written, buf) := listFrom r.1 maxLen r.2 0 0 buf
      let buf :=
        if 0 < maxLen then
          fill buf (if written < maxLen then written else maxLen - 1) 1 0
        else
          buf
      pure (Int.bmod written (2 ^ 32), buf)

end Directories

section Files

variable (serves : Nat → Bool) (v : Volume)

/-- The loop of `fat16_read` with a trace: every cluster goes through a buffer. -/
def tracedReadLoop :
    Nat → Nat → Nat → Nat → Store → Traced Panic Access (Nat × Store)
  | 0, _, _, _, _ => .fail .endless
  | rounds + 1, cluster, remaining, dst, buf =>
      if 0 < remaining ∧ 2 ≤ cluster ∧ cluster < eocMin then do
        Traced.emit [.store 0 v.geom.clusterSizeBytes v.geom.clusterSizeBytes] ()
        let chunk := min v.geom.clusterSizeBytes remaining
        let buf :=
          copyIn buf dst chunk (fun i =>
            v.device.disk (v.geom.clusterAddr cluster + i))
        let next ← tracedNext v cluster
        tracedReadLoop rounds next (remaining - chunk) (dst + chunk) buf
      else
        pure (remaining, buf)

/-- `fat16_read` with a trace. -/
def tracedRead (rounds : Nat) (file : File) (buf : Store) (maxLen : Nat) :
    Traced Panic Access (Nat × Store) :=
  if kmallocOk serves v.geom.clusterSizeBytes then do
    let total := min file.size maxLen
    let r ← tracedReadLoop v rounds file.firstCluster total 0 buf
    pure (total - r.1, r.2)
  else
    .fail .clusterAlloc

/-- The loop that frees the old clusters, with a trace: a link is read and cleared. -/
def tracedFree (entries : Nat) :
    Nat → (Nat → Nat) → Nat → Traced Panic Access (Nat → Nat)
  | 0, _, _ => .fail .endless
  | rounds + 1, fat, c =>
      if 2 ≤ c ∧ c < eocMin then do
        Traced.emit [.fat c, .fat c] ()
        if c < entries then
          tracedFree entries rounds (update fat c freeMark) (fat c)
        else
          .fail (.fatIndex c)
      else
        pure fat

/-- The freeing of an existing file, with a trace. -/
def tracedFreeExisting (rounds : Nat) (existing : Option Nat) :
    Traced Panic Access (Nat → Nat) :=
  match existing with
  | none => pure v.fat
  | some e =>
      tracedFree v.geom.fatCacheEntries rounds v.fat
        (readDirent (rootBytes v) e).firstCluster

/-- `alloc_cluster` with a trace: it looks at the entries from 2 on. -/
def tracedAlloc : Traced Panic Access Nat :=
  match allocCluster v with
  | some c => .emit ((List.range' 2 (c - 1)).map Access.fat) c
  | none => do
      Traced.emit
        ((List.range' 2 (v.geom.fatCacheEntries - 2)).map Access.fat) ()
      .fail .diskFull

/-- The links that are stored for cluster `c`. -/
def linkAccesses (prev c : Nat) : List Access :=
  if prev = 0 then [.fat c] else [.fat c, .fat prev]

/--
The writing loop with a trace, for a cluster buffer of `size` bytes; without one it
goes on, too.
-/
def tracedClusters (data : Nat → UInt8) (size : Nat) :
    Nat → Volume → Progress → Traced Panic Access (Volume × Progress)
  | 0, v, p => pure (v, p)
  | n + 1, v, p => do
      let c ← tracedAlloc v
      Traced.emit (linkAccesses p.prevCluster c) ()
      Traced.emit
        [.store 0 v.geom.clusterSizeBytes size,
          .store 0 (min v.geom.clusterSizeBytes p.remaining) size] ()
      tracedClusters data size n (writeCluster data v p c) (advance v p c)

/-- The stores of a directory entry into the buffer of the root directory. -/
def direntAccesses (slot size : Nat) : List Access :=
  [.store (direntSize * slot) direntSize size, .store (direntSize * slot) 11 size,
    .store (direntSize * slot + 11) 1 size, .store (direntSize * slot + 20) 2 size,
    .store (direntSize * slot + 26) 2 size, .store (direntSize * slot + 28) 4 size]

/-- `write_fat_cache_to_disk` reads the whole cache. -/
def cacheAccesses (g : Geometry) : List Access :=
  (List.range g.fatCacheEntries).map Access.fat

/-- `fat16_write_file` with a trace; a `NULL` buffer has no bytes. -/
def tracedWriteFile (rounds : Nat) (name : CString) (data : Nat → UInt8)
    (size : Nat) : Traced Panic Access Volume := do
  let root ← tracedRoot serves v
  match chooseSlot v name with
  | none => .fail .rootFull
  | some slot => do
      let fat ← tracedFreeExisting v rounds (scanSlots v name).1
      let bufSize :=
        if kmallocOk serves v.geom.clusterSizeBytes then v.geom.clusterSizeBytes
        else 0
      let r ←
        tracedClusters data bufSize (clustersNeeded v.geom size) { v with fat := fat }
          ⟨0, 0, 0, size⟩
      Traced.emit (direntAccesses slot v.geom.rootDirBytes ++ cacheAccesses v.geom) ()
      pure
        (writeBack r.1
          (writeDirent root slot (format83 name.bytes) r.2.firstCluster size) slot)

end Files

section Calls

/-- The calls of the driver. -/
inductive FsCall where
  /-- `fat16_open`. -/
  | openFile (path : CString)
  /-- `fat16_read`. -/
  | readFile (file : File) (buf : Store) (maxLen : Nat)
  /-- `fat16_list_dir`. -/
  | listDir (path : CString) (buf : Store) (maxLen : Nat)
  /-- `fat16_write_file`. -/
  | writeFile (name : CString) (data : Nat → UInt8) (size : Nat)

variable (serves : Nat → Bool) (v : Volume)

/-- How a call ends. -/
def callEnd : FsCall → Except Panic Unit
  | .openFile path => (fat16Open serves v path).map (fun _ => ())
  | .readFile file buf maxLen => (fat16Read serves v file buf maxLen).map (fun _ => ())
  | .listDir path buf maxLen =>
      (fat16ListDir serves v path buf maxLen).map (fun _ => ())
  | .writeFile name data size =>
      ((fat16WriteFile serves v name data size).mapError Prod.fst).map (fun _ => ())

/-- A call with a trace. -/
def callTrace (rounds : Nat) : FsCall → Traced Panic Access Unit
  | .openFile path => do
      let _ ← tracedOpen serves v rounds path
      pure ()
  | .readFile file buf maxLen => do
      let _ ← tracedRead serves v rounds file buf maxLen
      pure ()
  | .listDir path buf maxLen => do
      let _ ← tracedListDir serves v rounds path buf maxLen
      pure ()
  | .writeFile name data size => do
      let _ ← tracedWriteFile serves v rounds name data size
      pure ()

/-- A number of rounds that suffices for a call that ends. -/
def enoughRounds : FsCall → Nat
  | .openFile _ => v.geom.fatCacheEntries + 1
  | .readFile file _ maxLen => min file.size maxLen + 1
  | .listDir _ _ _ => v.geom.fatCacheEntries + 1
  | .writeFile _ _ _ => v.geom.fatCacheEntries + 2

end Calls

section Cuts

variable {serves : Nat → Bool} {m : Nat}

variable (h : n ≤ m)
include h

theorem tracedCount_cut
    (c : Nat) : CutBy .endless (tracedCount v n c) (tracedCount v m c) := by
  induction n generalizing m c with
  | zero =>
      exact .fail _ _
  | succ n ih =>
      obtain ⟨m, rfl⟩ := Nat.exists_eq_add_of_lt (Nat.lt_of_lt_of_le (Nat.succ_pos n) h)
      rw [Nat.zero_add, tracedCount, tracedCount]
      split_ifs
      · exact (CutBy.refl _ _).bind
          (fun next => (ih (by omega) next).bind (fun _ => .refl _ _))
      · exact .refl _ _

theorem tracedFill_cut
    (total c dst : Nat) :
    CutBy .endless (tracedFill v total n c dst) (tracedFill v total m c dst) := by
  induction n generalizing m c dst with
  | zero =>
      exact .fail _ _
  | succ n ih =>
      obtain ⟨m, rfl⟩ := Nat.exists_eq_add_of_lt (Nat.lt_of_lt_of_le (Nat.succ_pos n) h)
      rw [Nat.zero_add, tracedFill, tracedFill]
      split_ifs
      · exact .refl _ _
      · exact (CutBy.refl _ _).bind (fun _ => (CutBy.refl _ _).bind
          (fun next => (ih (by omega) next _).bind (fun _ => .refl _ _)))
      · exact .refl _ _

theorem tracedDirectory_cut
    (dir : Nat) :
    CutBy .endless (tracedDirectory serves v n dir)
      (tracedDirectory serves v m dir) := by
  unfold tracedDirectory tracedSubdir
  split_ifs
  · exact .refl _ _
  · refine CutBy.bind ((tracedCount_cut h dir).bind (fun count => ?_))
      (fun _ => .refl _ _)
    dsimp only
    split_ifs
    · exact (tracedFill_cut h _ _ _).bind (fun _ => .refl _ _)
    · exact .refl _ _

theorem tracedFind_cut
    (dir : Nat) (want : List UInt8) :
    CutBy .endless (tracedFind serves v n dir want)
      (tracedFind serves v m dir want) :=
  (tracedDirectory_cut h dir).bind (fun _ => .refl _ _)

theorem tracedResolve_cut
    (fuel dir : Nat) (path : List UInt8) :
    CutBy .endless (tracedResolve serves v n fuel dir path)
      (tracedResolve serves v m fuel dir path) := by
  induction fuel generalizing dir path with
  | zero =>
      exact .refl _ _
  | succ fuel ih =>
      rw [tracedResolve, tracedResolve]
      split_ifs
      · exact .refl _ _
      · refine (tracedFind_cut h dir _).bind (fun found => ?_)
        cases found with
        | none =>
            exact .refl _ _
        | some entry =>
            dsimp only
            split_ifs
            · exact ih _ _
            · exact .refl _ _

theorem tracedOpen_cut
    (path : CString) :
    CutBy .endless (tracedOpen serves v n path)
      (tracedOpen serves v m path) := by
  refine (tracedResolve_cut h _ _ _).bind (fun place => ?_)
  cases place with
  | none =>
      exact .refl _ _
  | some place =>
      exact (tracedFind_cut h _ _).bind (fun _ => .refl _ _)

theorem tracedResolveDirectory_cut
    (fuel dir : Nat) (path : List UInt8) :
    CutBy .endless (tracedResolveDirectory serves v n fuel dir path)
      (tracedResolveDirectory serves v m fuel dir path) := by
  induction fuel generalizing dir path with
  | zero =>
      exact .refl _ _
  | succ fuel ih =>
      rw [tracedResolveDirectory, tracedResolveDirectory]
      by_cases hpiece : component path = []
      · rw [if_pos hpiece, if_pos hpiece]
        exact .refl _ _
      · rw [if_neg hpiece, if_neg hpiece]
        refine (tracedFind_cut h dir _).bind (fun found => ?_)
        cases found with
        | none =>
            exact .refl _ _
        | some entry =>
            dsimp only
            split_ifs
            · exact .refl _ _
            · exact ih _ _
            · exact .refl _ _

theorem tracedListDir_cut
    (path : CString) (buf : Store) (maxLen : Nat) :
    CutBy .endless (tracedListDir serves v n path buf maxLen)
      (tracedListDir serves v m path buf maxLen) := by
  refine (tracedResolveDirectory_cut h _ _ _).bind (fun found => ?_)
  cases found with
  | none =>
      exact .refl _ _
  | some dir =>
      exact (tracedDirectory_cut h dir).bind (fun _ => .refl _ _)

theorem tracedReadLoop_cut
    (c remaining dst : Nat) (buf : Store) :
    CutBy .endless (tracedReadLoop v n c remaining dst buf)
      (tracedReadLoop v m c remaining dst buf) := by
  induction n generalizing m c remaining dst buf with
  | zero =>
      exact .fail _ _
  | succ n ih =>
      obtain ⟨m, rfl⟩ := Nat.exists_eq_add_of_lt (Nat.lt_of_lt_of_le (Nat.succ_pos n) h)
      rw [Nat.zero_add, tracedReadLoop, tracedReadLoop]
      split_ifs
      · exact (CutBy.refl _ _).bind (fun _ => (CutBy.refl _ _).bind
          (fun next => ih (by omega) next _ _ _))
      · exact .refl _ _

theorem tracedRead_cut
    (file : File) (buf : Store) (maxLen : Nat) :
    CutBy .endless (tracedRead serves v n file buf maxLen)
      (tracedRead serves v m file buf maxLen) := by
  unfold tracedRead
  split_ifs
  · exact (tracedReadLoop_cut h _ _ _ _).bind (fun _ => .refl _ _)
  · exact .refl _ _

theorem tracedFree_cut
    (fat : Nat → Nat) (c : Nat) :
    CutBy .endless (tracedFree entries n fat c) (tracedFree entries m fat c) := by
  induction n generalizing m fat c with
  | zero =>
      exact .fail _ _
  | succ n ih =>
      obtain ⟨m, rfl⟩ := Nat.exists_eq_add_of_lt (Nat.lt_of_lt_of_le (Nat.succ_pos n) h)
      rw [Nat.zero_add, tracedFree, tracedFree]
      split_ifs
      · exact (CutBy.refl _ _).bind (fun _ => ih (by omega) _ _)
      · exact .refl _ _
      · exact .refl _ _

theorem tracedWriteFile_cut
    (name : CString) (data : Nat → UInt8) (size : Nat) :
    CutBy .endless (tracedWriteFile serves v n name data size)
      (tracedWriteFile serves v m name data size) := by
  refine (CutBy.refl _ _).bind (fun root => ?_)
  cases chooseSlot v name with
  | none =>
      exact .refl _ _
  | some slot =>
      refine CutBy.bind ?_ (fun _ => .refl _ _)
      unfold tracedFreeExisting
      cases (scanSlots v name).1 with
      | none =>
          exact .refl _ _
      | some e =>
          exact tracedFree_cut h _ _

/-- With fewer rounds a call does the same, or is cut short. -/
theorem callTrace_cut
    (call : FsCall) :
    CutBy .endless (callTrace serves v n call) (callTrace serves v m call) := by
  cases call with
  | openFile path =>
      exact (tracedOpen_cut h path).bind (fun _ => .refl _ _)
  | readFile file buf maxLen =>
      exact (tracedRead_cut h file buf maxLen).bind (fun _ => .refl _ _)
  | listDir path buf maxLen =>
      exact (tracedListDir_cut h path buf maxLen).bind (fun _ => .refl _ _)
  | writeFile name data size =>
      exact (tracedWriteFile_cut h name data size).bind (fun _ => .refl _ _)

end Cuts

section Results

variable {serves : Nat → Bool}

@[simp] theorem tracedNext_result
    (c : Nat) : (tracedNext v c).result = fatNextCluster v c := by
  unfold tracedNext fatNextCluster
  split_ifs <;> rfl

theorem tracedCount_result
    (n c : Nat) : (tracedCount v n c).result = (walkFrom v n c).map List.length := by
  induction n generalizing c with
  | zero =>
      rfl
  | succ n ih =>
      rw [tracedCount, walkFrom]
      split_ifs
      · simp only [result_bind, tracedNext_result, ih, Traced.result_pure]
        cases fatNextCluster v c with
        | error e =>
            rfl
        | ok next =>
            simp only [ok_bind]
            cases walkFrom v n next <;> rfl
      · rfl

/-- Reading the clusters of a walk, as long as the buffer suffices. -/
theorem tracedFill_result
    {total dst : Nat} {cs : List Nat} (hwalk : walkFrom v n c = .ok cs)
    (hdst : dst ≤ total) :
    (tracedFill v total n c dst).result =
      if dst + cs.length * v.geom.clusterSizeBytes ≤ total then .ok cs
      else .error .bufferOverrun := by
  induction n generalizing c dst cs with
  | zero =>
      cases hwalk
  | succ n ih =>
      by_cases hin : 2 ≤ c ∧ c < eocMin
      · by_cases hlt : c < v.geom.fatCacheEntries
        · rw [walkFrom_linked ⟨hin, hlt⟩] at hwalk
          obtain ⟨rest, hrest, rfl⟩ := map_eq_ok.mp hwalk
          have hlen : dst + (c :: rest).length * v.geom.clusterSizeBytes =
              dst + v.geom.clusterSizeBytes +
                rest.length * v.geom.clusterSizeBytes := by
            rw [List.length_cons, Nat.add_mul, Nat.one_mul]
            omega
          rw [tracedFill, if_pos hin, result_bind, Traced.result_emit, ok_bind, hlen]
          by_cases hover : total < dst + v.geom.clusterSizeBytes
          · rw [if_pos hover, if_neg (by omega)]
            rfl
          · rw [if_neg hover, result_bind, tracedNext_result, fatNextCluster_eq hlt,
              ok_bind, result_bind, ih hrest (by omega)]
            split_ifs <;> rfl
        · rw [walkFrom_off hin hlt] at hwalk
          cases hwalk
      · rw [walkFrom_stop hin] at hwalk
        cases hwalk
        rw [tracedFill, if_neg hin, if_pos (by simpa using hdst)]
        rfl

theorem tracedSubdir_result
    (h : v.geom.fatCacheEntries < n) (first : Nat) :
    (tracedSubdir serves v n first).result = readSubdirClusters serves v first := by
  rw [tracedSubdir, readSubdirClusters, result_bind, tracedCount_result,
    walkFrom_eq_walkChain h]
  cases hwalk : walkChain v first with
  | error e =>
      rfl
  | ok cs =>
      rw [← walkFrom_eq_walkChain h] at hwalk
      simp only [Except.map, ok_bind]
      by_cases hserved : kmallocOk serves
          (cs.length * v.geom.clusterSizeBytes % 2 ^ 32)
      · rw [if_pos hserved, if_pos hserved, result_bind,
          tracedFill_result hwalk (Nat.zero_le _), Nat.zero_add]
        by_cases hover : cs.length * v.geom.clusterSizeBytes % 2 ^ 32 <
            cs.length * v.geom.clusterSizeBytes
        · rw [if_pos hover, if_neg (by omega)]
          rfl
        · rw [if_neg hover, if_pos (by omega)]
          rfl
      · rw [if_neg hserved, if_neg hserved]
        rfl

theorem tracedRoot_result : (tracedRoot serves v).result = readRootDir serves v := by
  unfold tracedRoot readRootDir Geometry.rootDirBytes
  split_ifs <;> rfl

section

variable (h : v.geom.fatCacheEntries < n)
include h

theorem tracedDirectory_result
    (dir : Nat) :
    (tracedDirectory serves v n dir).result = readDirectory serves v dir := by
  unfold tracedDirectory readDirectory
  split_ifs
  · rw [result_bind, tracedRoot_result]
    rfl
  · rw [result_bind, tracedSubdir_result h]
    rfl

theorem tracedFind_result
    (dir : Nat) (want : List UInt8) :
    (tracedFind serves v n dir want).result = findEntryInDir serves v dir want := by
  rw [tracedFind, findEntryInDir, result_bind, tracedDirectory_result h]
  rfl

theorem tracedResolve_result
    (fuel dir : Nat) (path : List UInt8) :
    (tracedResolve serves v n fuel dir path).result =
      resolveFrom serves v fuel dir path := by
  induction fuel generalizing dir path with
  | zero =>
      rfl
  | succ fuel ih =>
      rw [tracedResolve, resolveFrom]
      split_ifs
      · rfl
      · rw [result_bind, tracedFind_result h]
        congr 1
        funext found
        cases found with
        | none =>
            rfl
        | some entry =>
            dsimp only
            split_ifs
            · exact ih _ _
            · rfl

theorem tracedOpen_result
    (path : CString) :
    (tracedOpen serves v n path).result = fat16Open serves v path := by
  rw [tracedOpen, fat16Open, result_bind, tracedResolve_result h]
  congr 1
  funext place
  cases place with
  | none =>
      rfl
  | some place =>
      rw [result_bind, tracedFind_result h]
      rfl

theorem tracedResolveDirectory_result
    (fuel dir : Nat) (path : List UInt8) :
    (tracedResolveDirectory serves v n fuel dir path).result =
      resolveDirectoryFrom serves v fuel dir path := by
  induction fuel generalizing dir path with
  | zero =>
      rfl
  | succ fuel ih =>
      rw [tracedResolveDirectory, resolveDirectoryFrom]
      by_cases hpiece : component path = []
      · rw [if_pos hpiece, if_pos hpiece]
        rfl
      · rw [if_neg hpiece, if_neg hpiece, result_bind, tracedFind_result h]
        congr 1
        funext found
        cases found with
        | none =>
            rfl
        | some entry =>
            dsimp only
            split_ifs
            · rfl
            · exact ih _ _
            · rfl

end

/-- An empty path needs no case of its own. -/
theorem resolveDirectory_eq_from
    (path : List UInt8) :
    resolveDirectory serves v path =
      resolveDirectoryFrom serves v (path.length + 1) 0 path := by
  cases path with
  | nil =>
      rfl
  | cons c path =>
      rfl

theorem tracedListDir_result
    (h : v.geom.fatCacheEntries < n) (path : CString) (buf : Store) (maxLen : Nat) :
    (tracedListDir serves v n path buf maxLen).result =
      fat16ListDir serves v path buf maxLen := by
  rw [tracedListDir, fat16ListDir, result_bind,
    tracedResolveDirectory_result h, resolveDirectory_eq_from]
  congr 1
  funext found
  cases found with
  | none =>
      rfl
  | some dir =>
      rw [result_bind, tracedDirectory_result h]
      rfl

/-- Every round of the reading loop copies at least one byte. -/
theorem tracedReadLoop_result
    {remaining fuel : Nat} (hn : remaining < n) (hfuel : remaining ≤ fuel)
    (c dst : Nat) (buf : Store) :
    (tracedReadLoop v n c remaining dst buf).result =
      readLoop v fuel c remaining dst buf := by
  induction n generalizing remaining fuel c dst buf with
  | zero =>
      exact absurd hn (Nat.not_lt_zero _)
  | succ n ih =>
      have hpos := v.geom.clusterSizeBytes_pos
      by_cases hin : 0 < remaining ∧ 2 ≤ c ∧ c < eocMin
      · obtain ⟨fuel, rfl⟩ :=
          Nat.exists_eq_add_of_lt (Nat.lt_of_lt_of_le hin.1 hfuel)
        rw [Nat.zero_add, tracedReadLoop, readLoop, if_pos hin, if_pos hin, result_bind,
          Traced.result_emit, ok_bind, result_bind, tracedNext_result]
        congr 1
        funext next
        exact ih (by omega) (by omega) _ _ _
      · rw [tracedReadLoop, if_neg hin]
        cases fuel with
        | zero =>
            rfl
        | succ fuel =>
            rw [readLoop, if_neg hin]
            rfl

theorem tracedRead_result
    {file : File} {maxLen : Nat} (h : min file.size maxLen < n) (buf : Store) :
    (tracedRead serves v n file buf maxLen).result =
      fat16Read serves v file buf maxLen := by
  unfold tracedRead fat16Read
  split_ifs
  · simp only [result_bind, tracedReadLoop_result h (le_refl _)]
    rfl
  · rfl

theorem tracedFree_result
    (n : Nat) (fat : Nat → Nat) (c : Nat) :
    (tracedFree entries n fat c).result = freeChain entries n fat c := by
  induction n generalizing fat c with
  | zero =>
      rfl
  | succ n ih =>
      rw [tracedFree, freeChain]
      split_ifs
      · rw [result_bind, Traced.result_emit, ok_bind]
        exact ih _ _
      · rfl
      · rfl

/-- Every round of the freeing loop clears a used entry or is the last but one. -/
theorem rounds_le_of_freeChain_endless
    {fat : Nat → Nat} (h : freeChain entries n fat c = .error .endless) :
    n ≤ Nat.count (fun d => fat d ≠ freeMark) entries + 1 := by
  induction n generalizing fat c with
  | zero =>
      exact Nat.zero_le _
  | succ n ih =>
      rw [freeChain] at h
      split_ifs at h with hin hlt
      on_goal 2 => cases h
      by_cases hfree : fat c = freeMark
      · cases n with
        | zero =>
            omega
        | succ n =>
            rw [hfree, freeChain, if_neg (by unfold freeMark; omega)] at h
            cases h
      · have hcount : Nat.count (fun d => fat d ≠ freeMark) entries =
            Nat.count
              (fun d => update fat c freeMark d ≠ freeMark) entries + 1 := by
          refine FiniteCount.count_flip hlt ?_ hfree (by simp)
          intro d _ hd
          simp [update_of_ne hd]
        have hle := ih h
        omega

/-- So it ends. -/
theorem freeChain_ends
    (h : entries + 2 ≤ n) (fat : Nat → Nat) (c : Nat) :
    freeChain entries n fat c ≠ .error .endless := by
  intro hend
  have hle := rounds_le_of_freeChain_endless hend
  have hcount := Nat.count_le (p := fun d => fat d ≠ freeMark) (n := entries)
  omega

theorem tracedFreeExisting_result
    (h : v.geom.fatCacheEntries + 2 ≤ n) (existing : Option Nat) :
    (tracedFreeExisting v n existing).result = freeExisting v existing := by
  cases existing with
  | none =>
      rfl
  | some e =>
      have hends := freeChain_ends (le_refl (v.geom.fatCacheEntries + 2)) v.fat
        (readDirent (rootBytes v) e).firstCluster
      rw [← tracedFree_result] at hends
      rw [tracedFreeExisting, ← (tracedFree_cut h _ _).eq_of_ne hends,
        tracedFree_result]
      rfl

theorem tracedAlloc_some
    (h : allocCluster v = some c) :
    tracedAlloc v = .emit ((List.range' 2 (c - 1)).map Access.fat) c := by
  simp only [tracedAlloc, h]

theorem tracedAlloc_none
    (h : allocCluster v = none) : (tracedAlloc v).result = .error .diskFull := by
  simp only [tracedAlloc, h]
  rfl

/-- The loop is that of the driver. -/
theorem tracedClusters_result
    (data : Nat → UInt8) (bufSize n : Nat) (v : Volume) (p : Progress) :
    (tracedClusters data bufSize n v p).result =
      (writeClusters data n v p).mapError Prod.fst := by
  induction n generalizing v p with
  | zero =>
      rfl
  | succ n ih =>
      rw [tracedClusters, result_bind]
      cases halloc : allocCluster v with
      | none =>
          simp only [writeClusters, halloc, tracedAlloc_none halloc]
          rfl
      | some c =>
          rw [writeClusters_succ halloc, ← ih, tracedAlloc_some halloc]
          simp only [ok_bind, result_bind, Traced.result_emit]

theorem tracedWriteFile_result
    (h : v.geom.fatCacheEntries + 2 ≤ n) (name : CString) (data : Nat → UInt8)
    (size : Nat) :
    (tracedWriteFile serves v n name data size).result =
      (fat16WriteFile serves v name data size).mapError Prod.fst := by
  rw [tracedWriteFile, fat16WriteFile, result_bind, tracedRoot_result]
  cases readRootDir serves v with
  | error e =>
      rfl
  | ok root =>
      rw [ok_bind]
      cases chooseSlot v name with
      | none =>
          rfl
      | some slot =>
          dsimp only
          rw [result_bind, tracedFreeExisting_result h]
          cases freeExisting v (scanSlots v name).1 with
          | error e =>
              rfl
          | ok fat =>
              rw [ok_bind]
              simp only [result_bind, tracedClusters_result]
              cases writeClusters data (clustersNeeded v.geom size)
                  { v with fat := fat } ⟨0, 0, 0, size⟩ with
              | error e =>
                  rfl
              | ok r =>
                  rfl

/-- With enough rounds, a call ends as the driver does. -/
theorem callTrace_result
    {call : FsCall} (h : enoughRounds v call ≤ n) :
    (callTrace serves v n call).result = callEnd serves v call := by
  cases call with
  | openFile path =>
      rw [callTrace, callEnd, result_bind, tracedOpen_result h]
      cases fat16Open serves v path <;> rfl
  | readFile file buf maxLen =>
      rw [callTrace, callEnd, result_bind, tracedRead_result h]
      cases fat16Read serves v file buf maxLen <;> rfl
  | listDir path buf maxLen =>
      rw [callTrace, callEnd, result_bind, tracedListDir_result h]
      cases fat16ListDir serves v path buf maxLen <;> rfl
  | writeFile name data size =>
      rw [callTrace, callEnd, result_bind, tracedWriteFile_result h]
      cases fat16WriteFile serves v name data size <;> rfl

end Results

end Fat16
end RebornOS
