import RebornOS.Fat16Freeing
import RebornOS.Fat16Resolution

/-!
# Which calls end

The loops of `fat16_read` and `fat16_write_file` count down bytes or clear entries
of the FAT, so they end.  The loops that read a directory follow its chain and count
nothing: on a chain that meets a cluster twice they do not end.

Two calls are not followed here: one that frees a chain which leaves the FAT, and one
that reads a directory whose size does not fit into 32 bits.  Both go on in memory that
is not the driver's (`Followed`).

What a call that resolves a path does is decided by the directories that it reads
(`tracedOpen_iff`, `tracedListDir_iff`), for every property that a sequence has if
and only if its parts have it.
-/

namespace RebornOS
namespace Fat16

open ByteStore TableChain Fallible

variable {serves : Nat → Bool} {v : Volume} {dir fuel : Nat} {path : List UInt8}
  {e : Panic}

/--
Directory `d` is read when a path is resolved from `dir` on.  `more` says whether
the resolver goes on with a path.
-/
inductive Reads (serves : Nat → Bool) (v : Volume) (more : List UInt8 → Prop) :
    Nat → List UInt8 → Nat → Prop
  | here {dir : Nat} {path : List UInt8} :
      Reads serves v more dir path dir
  | next {dir d : Nat} {path : List UInt8} {ent : Dirent} :
      more path →
      findEntryInDir serves v dir (format83 (component path)) = .ok (some ent) →
      ent.IsDirectory →
      Reads serves v more ent.firstCluster (pathRest path) d →
      Reads serves v more dir path d

/-- The directories that a call reads in order to resolve its path. -/
def ReadsDir (serves : Nat → Bool) (v : Volume) : FsCall → Nat → Prop
  | .openFile path => Reads serves v (fun p => pathRest p ≠ []) 0 path.bytes
  | .listDir path _ _ => Reads serves v (fun p => component p ≠ []) 0 path.bytes
  | .readFile _ _ _ => fun _ => False
  | .writeFile _ _ _ => fun _ => False

section Paths

variable {more : List UInt8 → Prop} {Q : Nat → Prop}

/-- What is read from `dir` on, after a lookup. -/
theorem reads_iff
    {found : Option Dirent} (hmore : more path)
    (hfind : findEntryInDir serves v dir (format83 (component path)) = .ok found) :
    (∀ d, Reads serves v more dir path d → Q d) ↔
      Q dir ∧ ∀ ent, found = some ent → ent.IsDirectory →
        ∀ d, Reads serves v more ent.firstCluster (pathRest path) d → Q d := by
  constructor
  · intro h
    refine ⟨h dir .here, ?_⟩
    rintro ent rfl hdir d hd
    exact h d (.next hmore hfind hdir hd)
  · rintro ⟨hhere, hnext⟩ d hd
    cases hd with
    | here =>
        exact hhere
    | next _ hfind' hdir hd =>
        rw [hfind, Except.ok.injEq] at hfind'
        exact hnext _ hfind' hdir d hd

/-- If the path ends here or the lookup panics, only `dir` is read. -/
theorem reads_last_iff
    (hlast : more path → ∀ found,
      findEntryInDir serves v dir (format83 (component path)) ≠ .ok found) :
    (∀ d, Reads serves v more dir path d → Q d) ↔ Q dir := by
  constructor
  · exact fun h => h dir .here
  · rintro hhere d hd
    cases hd with
    | here =>
        exact hhere
    | next hmore hfind =>
        exact absurd hfind (hlast hmore _)

end Paths

section Resolution

variable {n : Nat} {G : ∀ {α : Type}, Traced Panic Access α → Prop}

/-- The last lookup of `fat16_open`, with a trace. -/
def tracedLeaf (serves : Nat → Bool) (v : Volume) (rounds : Nat) :
    Option (Nat × List UInt8) → Traced Panic Access (Option File)
  | none => pure none
  | some (dir, leaf) => do
      let entry ← tracedFind serves v rounds dir (format83 leaf)
      pure (entry.map (fun d => ⟨d.firstCluster, d.fileSize⟩))

@[simp] theorem tracedLeaf_none : tracedLeaf serves v n none = pure none :=
  rfl

theorem tracedOpen_eq
    (path : CString) :
    tracedOpen serves v n path =
      tracedResolve serves v n (path.bytes.length + 1) 0 path.bytes >>=
        tracedLeaf serves v n := by
  rw [tracedOpen]
  congr 1

/-- The listing of a resolved directory, with a trace. -/
def tracedListing (serves : Nat → Bool) (v : Volume) (rounds : Nat) (buf : Store)
    (maxLen : Nat) : Option Nat → Traced Panic Access (Int × Store)
  | none => pure (-1, buf)
  | some dir => do
      let r ← tracedDirectory serves v rounds dir
      let (written, buf) := listFrom r.1 maxLen r.2 0 0 buf
      let buf :=
        if 0 < maxLen then
          fill buf (if written < maxLen then written else maxLen - 1) 1 0
        else
          buf
      pure (Int.bmod written (2 ^ 32), buf)

@[simp] theorem tracedListing_none
    (buf : Store) (maxLen : Nat) :
    tracedListing serves v n buf maxLen none = pure (-1, buf) :=
  rfl

theorem tracedListDir_eq
    (path : CString) (buf : Store) (maxLen : Nat) :
    tracedListDir serves v n path buf maxLen =
      tracedResolveDirectory serves v n (path.bytes.length + 1) 0 path.bytes >>=
        tracedListing serves v n buf maxLen := by
  rw [tracedListDir]
  congr 1

variable (hG : Traced.Sequential (@G))
include hG

theorem tracedFind_iff
    (dir : Nat) (want : List UInt8) :
    G (tracedFind serves v n dir want) ↔ G (tracedDirectory serves v n dir) :=
  hG.bind_pure _ _

/-- A lookup and what follows it. -/
theorem tracedFind_bind_iff
    {α : Type} (h : v.geom.fatCacheEntries < n) {want : List UInt8}
    (f : Option Dirent → Traced Panic Access α) :
    G (tracedFind serves v n dir want >>= f) ↔
      G (tracedDirectory serves v n dir) ∧
        ∀ found, findEntryInDir serves v dir want = .ok found → G (f found) := by
  rw [hG.bind, tracedFind_iff hG, tracedFind_result h]

theorem tracedResolve_iff
    (h : v.geom.fatCacheEntries < n) (dir : Nat) (hfuel : path.length < fuel) :
    G (tracedResolve serves v n fuel dir path >>= tracedLeaf serves v n) ↔
      ∀ d, Reads serves v (fun p => pathRest p ≠ []) dir path d →
        G (tracedDirectory serves v n d) := by
  induction fuel generalizing dir path with
  | zero =>
      exact absurd hfuel (Nat.not_lt_zero _)
  | succ fuel ih =>
      rw [tracedResolve]
      by_cases hrest : pathRest path = []
      · rw [if_pos hrest, pure_bind, reads_last_iff (fun hmore => absurd hrest hmore)]
        exact (hG.bind_pure _ _).trans (tracedFind_iff hG _ _)
      · have hlt := pathRest_length_lt hrest
        rw [if_neg hrest, bind_assoc, tracedFind_bind_iff hG h]
        cases hfind : findEntryInDir serves v dir (format83 (component path)) with
        | error e =>
            rw [reads_last_iff (fun _ found => by simp [hfind])]
            simp
        | ok found =>
            rw [reads_iff hrest hfind]
            refine and_congr_right (fun _ => ?_)
            cases found with
            | none =>
                simpa using hG.pure _
            | some ent =>
                by_cases hdir : ent.IsDirectory
                · simpa [hdir] using ih ent.firstCluster (by omega)
                · simpa [hdir] using hG.pure _

/-- What `fat16_open` does is decided by the directories that it reads. -/
theorem tracedOpen_iff
    (h : v.geom.fatCacheEntries < n) (path : CString) :
    G (tracedOpen serves v n path) ↔
      ∀ d, ReadsDir serves v (.openFile path) d →
        G (tracedDirectory serves v n d) := by
  rw [tracedOpen_eq]
  exact tracedResolve_iff hG h 0 (Nat.lt_succ_self _)

theorem tracedResolveDirectory_iff
    (h : v.geom.fatCacheEntries < n) (dir : Nat) (hfuel : path.length < fuel)
    (buf : Store) (maxLen : Nat) :
    G (tracedResolveDirectory serves v n fuel dir path >>=
        tracedListing serves v n buf maxLen) ↔
      ∀ d, Reads serves v (fun p => component p ≠ []) dir path d →
        G (tracedDirectory serves v n d) := by
  induction fuel generalizing dir path with
  | zero =>
      exact absurd hfuel (Nat.not_lt_zero _)
  | succ fuel ih =>
      have hlist : ∀ dir, G (tracedListing serves v n buf maxLen (some dir)) ↔
          G (tracedDirectory serves v n dir) :=
        fun dir => hG.bind_pure _ _
      rw [tracedResolveDirectory]
      by_cases hpiece : component path = []
      · rw [if_pos hpiece, pure_bind, hlist,
          reads_last_iff (fun hmore => absurd hpiece hmore)]
      · rw [if_neg hpiece, bind_assoc, tracedFind_bind_iff hG h]
        cases hfind : findEntryInDir serves v dir (format83 (component path)) with
        | error e =>
            rw [reads_last_iff (fun _ found => by simp [hfind])]
            simp
        | ok found =>
            rw [reads_iff hpiece hfind]
            refine and_congr_right (fun _ => ?_)
            cases found with
            | none =>
                simpa using hG.pure _
            | some ent =>
                by_cases hdir : ent.IsDirectory
                · by_cases hrest : pathRest path = []
                  · simpa [hdir, hrest, reads_last_iff] using hlist ent.firstCluster
                  · have hlt := pathRest_length_lt hrest
                    simpa [hdir, hrest] using ih ent.firstCluster (by omega)
                · simpa [hdir] using hG.pure _

/-- And so is what `fat16_list_dir` does. -/
theorem tracedListDir_iff
    (h : v.geom.fatCacheEntries < n) (path : CString) (buf : Store) (maxLen : Nat) :
    G (tracedListDir serves v n path buf maxLen) ↔
      ∀ d, ReadsDir serves v (.listDir path buf maxLen) d →
        G (tracedDirectory serves v n d) := by
  rw [tracedListDir_eq]
  exact tracedResolveDirectory_iff hG h 0 (Nat.lt_succ_self _) buf maxLen

end Resolution

section Ends

/-- The size of a directory that gets a buffer fits into 32 bits. -/
def Fits (serves : Nat → Bool) (v : Volume) (dir : Nat) : Prop :=
  dir ≠ 0 → ∀ cs, walkChain v dir = .ok cs →
    kmallocOk serves (cs.length * v.geom.clusterSizeBytes % 2 ^ 32) →
    cs.length * v.geom.clusterSizeBytes < 2 ^ 32

/-- The call stays in the memory of the FAT and of the directory buffers. -/
def Followed (serves : Nat → Bool) (v : Volume) : FsCall → Prop
  | .writeFile name _ _ => FreesInside v name
  | call => ∀ d, ReadsDir serves v call d → Fits serves v d

/-- The call ends after a finite number of rounds: it returns or panics by itself. -/
def Finishes (serves : Nat → Bool) (v : Volume) (call : FsCall) : Prop :=
  ∃ rounds, ∀ e, (callTrace serves v rounds call).result = .error e → e.Own

/-- If the rounds suffice, their number does not matter. -/
theorem finishes_iff
    {call : FsCall} :
    Finishes serves v call ↔
      ∀ e, (callTrace serves v (enoughRounds v call) call).result = .error e →
        e.Own := by
  constructor
  · rintro ⟨rounds, hends⟩
    have hcut : Traced.CutBy .endless (callTrace serves v rounds call)
        (callTrace serves v (max rounds (enoughRounds v call)) call) :=
      callTrace_cut (le_max_left _ _) call
    rw [hcut.eq_of_ne (fun hend => hends _ hend),
      callTrace_result (le_max_right _ _)] at hends
    rwa [callTrace_result (le_refl _)]
  · exact fun hends => ⟨_, hends⟩

theorem not_neverEnds_zero : ¬ NeverEnds v 0 := by
  intro h
  have hlow := (h 0).1.1
  simp at hlow

/-- A walk that panics by itself has left the FAT. -/
theorem walkFrom_panic
    {c : Nat} (h : walkFrom v fuel c = .error e) : e = .endless ∨ e.Own := by
  induction fuel generalizing c with
  | zero =>
      cases h
      exact Or.inl rfl
  | succ fuel ih =>
      rw [walkFrom] at h
      split_ifs at h with hin
      rcases bind_eq_error.mp h with hnext | ⟨next, _, hrest⟩
      · unfold fatNextCluster at hnext
        split_ifs at hnext
        cases hnext
        exact Or.inr trivial
      · rcases bind_eq_error.mp hrest with hwalk | ⟨cs, _, hcons⟩
        · exact ih hwalk
        · cases hcons

/-- Reading a directory ends if its chain does. -/
theorem readDirectory_ends_iff
    (hfits : Fits serves v dir) :
    (∀ e, readDirectory serves v dir = .error e → e.Own) ↔ ¬ NeverEnds v dir := by
  by_cases hzero : dir = 0
  · subst hzero
    refine iff_of_true ?_ not_neverEnds_zero
    rw [readDirectory, if_pos rfl, readRootDir]
    split_ifs
    · simp [bind, Except.bind]
    · rintro e ⟨⟩
      trivial
  · rw [← walkChain_endless_iff, readDirectory, if_neg hzero]
    cases hwalk : walkChain v dir with
    | error p =>
        rw [readSubdirClusters_panic hwalk]
        rcases walkFrom_panic hwalk with rfl | hown
        · refine iff_of_false (fun h => h .endless rfl) (fun h => h rfl)
        · refine iff_of_true ?_ ?_
          · rintro e ⟨⟩
            exact hown
          · rintro ⟨⟩
            exact hown
    | ok cs =>
        rw [readSubdirClusters_walked hwalk]
        refine iff_of_true ?_ (by simp)
        split_ifs with halloc hover
        · have hlt := hfits hzero cs hwalk halloc
          rw [Nat.mod_eq_of_lt hlt] at hover
          exact absurd hover (lt_irrefl _)
        · simp [bind, Except.bind]
        · rintro e ⟨⟩
          trivial

/-- The reading loop ends, for it copies a byte in every round. -/
theorem readLoop_panic
    {c remaining dst : Nat} {buf : Store}
    (h : readLoop v fuel c remaining dst buf = .error e) : e.Own := by
  induction fuel generalizing c remaining dst buf with
  | zero =>
      cases h
  | succ fuel ih =>
      rw [readLoop] at h
      split_ifs at h
      rcases bind_eq_error.mp h with hnext | ⟨next, _, hrest⟩
      · unfold fatNextCluster at hnext
        split_ifs at hnext
        cases hnext
        trivial
      · exact ih hrest

theorem fat16Read_panic
    {file : File} {buf : Store} {maxLen : Nat}
    (h : fat16Read serves v file buf maxLen = .error e) : e.Own := by
  unfold fat16Read at h
  split_ifs at h
  · rcases bind_eq_error.mp h with hloop | ⟨r, _, hok⟩
    · exact readLoop_panic hloop
    · cases hok
  · cases h
    trivial

/--
**Termination.**  A call that is followed ends, by returning or with a panic, exactly
if no directory that it reads to resolve its path has a chain without an end.
-/
theorem call_finishes_iff
    (serves : Nat → Bool) (v : Volume) (call : FsCall)
    (hcall : Followed serves v call) :
    Finishes serves v call ↔ ∀ d, ReadsDir serves v call d → ¬ NeverEnds v d := by
  have hG := Traced.sequential_panics (ε := Access) Panic.Own
  have hdir : ∀ d, Fits serves v d →
      ((∀ e, (tracedDirectory serves v (v.geom.fatCacheEntries + 1) d).result =
        .error e → e.Own) ↔ ¬ NeverEnds v d) := by
    intro d hfits
    rw [tracedDirectory_result (Nat.lt_succ_self _)]
    exact readDirectory_ends_iff hfits
  rw [finishes_iff]
  cases call with
  | openFile path =>
      refine Iff.trans ?_ (forall₂_congr (fun d hd => hdir d (hcall d hd)))
      exact (hG.bind_pure _ _).trans (tracedOpen_iff hG (Nat.lt_succ_self _) path)
  | readFile file buf maxLen =>
      refine iff_of_true ((hG.bind_pure _ _).mpr ?_) (fun d hd => hd.elim)
      show ∀ e, (tracedRead serves v (min file.size maxLen + 1) file buf
        maxLen).result = .error e → e.Own
      rw [tracedRead_result (Nat.lt_succ_self _)]
      exact fun e => fat16Read_panic
  | listDir path buf maxLen =>
      refine Iff.trans ?_ (forall₂_congr (fun d hd => hdir d (hcall d hd)))
      exact (hG.bind_pure _ _).trans
        (tracedListDir_iff hG (Nat.lt_succ_self _) path buf maxLen)
  | writeFile name data size =>
      refine iff_of_true ((hG.bind_pure _ _).mpr ?_) (fun d hd => hd.elim)
      show ∀ e, (tracedWriteFile serves v (v.geom.fatCacheEntries + 2) name data
        size).result = .error e → e.Own
      rw [tracedWriteFile_result (le_refl _)]
      intro e he
      cases hcallEnd : fat16WriteFile serves v name data size with
      | error p =>
          rw [hcallEnd] at he
          cases he
          exact fat16WriteFile_panic hcall hcallEnd
      | ok v' =>
          rw [hcallEnd] at he
          cases he

end Ends

section Samples

/-- A directory `DIR` at cluster 2, whose link leads to cluster 2 again. -/
def cyclicDisk : Store :=
  diskOf formattedDisk formattedGeometry (fun c => if c = 2 then 2 else 0)
    (direntBytes (format83 [0x64, 0x69, 0x72]) attrDirectory 2 0)

/-- The volume that mounting it gives. -/
def cyclicVolume : Volume :=
  ⟨formattedGeometry, diskFat formattedGeometry cyclicDisk, ⟨cyclicDisk, []⟩⟩

/-- `DIR`. -/
def cyclicName : CString := ⟨[0x44, 0x49, 0x52], by decide⟩

theorem fat16Init_cyclic : fat16Init (fun _ => true) cyclicDisk = .ok cyclicVolume :=
  fat16Init_formatted _ _

theorem neverEnds_cyclic : NeverEnds cyclicVolume 2 := by
  have hlink : cyclicVolume.fat 2 = 2 := by decide
  intro i
  rw [Function.iterate_fixed hlink]
  exact ⟨by decide, by decide⟩

/-- **A cyclic directory.**  `fat16_open("dir/x")` goes round its cluster for ever. -/
theorem cyclic_directory_endless :
    fat16Init (fun _ => true) cyclicDisk = .ok cyclicVolume ∧
      NeverEnds cyclicVolume 2 ∧
      (∀ rounds, (callTrace (fun _ => true) cyclicVolume rounds
        (.openFile slashPath)).result = .error .endless) ∧
      ¬ Finishes (fun _ => true) cyclicVolume (.openFile slashPath) := by
  have hopen : callEnd (fun _ => true) cyclicVolume (.openFile slashPath) =
      .error .endless :=
    panicOf_eq_some.mp (by decide +kernel)
  have hall : ∀ rounds, (callTrace (fun _ => true) cyclicVolume rounds
      (.openFile slashPath)).result = .error .endless := by
    intro rounds
    by_contra hne
    have hcut : Traced.CutBy .endless
        (callTrace (fun _ => true) cyclicVolume rounds (.openFile slashPath))
        (callTrace (fun _ => true) cyclicVolume
          (max rounds (enoughRounds cyclicVolume (.openFile slashPath)))
          (.openFile slashPath)) := callTrace_cut (le_max_left _ _) _
    rw [hcut.eq_of_ne hne, callTrace_result (le_max_right _ _)] at hne
    exact hne hopen
  refine ⟨fat16Init_cyclic, neverEnds_cyclic, hall, ?_⟩
  rintro ⟨rounds, hends⟩
  exact hends _ (hall rounds)

/-- Writing over the directory ends: its cluster is freed once. -/
theorem call_finishes_cyclic :
    Finishes (fun _ => true) cyclicVolume (.writeFile cyclicName (fun _ => 0x11) 1) := by
  have hfreed : (freeExisting cyclicVolume
      (scanSlots cyclicVolume cyclicName).1).toOption.any (fun _ => true) = true := by
    decide
  obtain ⟨fat, hok, _⟩ := any_toOption.mp hfreed
  have hfrees : FreesInside cyclicVolume cyclicName :=
    freesInside_iff.mpr ⟨fat, hok⟩
  exact (call_finishes_iff _ _ (.writeFile _ _ _) hfrees).mpr (fun _ hd => hd.elim)

end Samples

end Fat16
end RebornOS
