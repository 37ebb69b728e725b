import RebornOS.Fat16RoundTrip
import RebornOS.ListBlocks

/-!
# Listing a directory

`visibleFrom` enumerates the visible entries of a directory in order; lookups and
listings are functions of it.  `fat16_list_dir` appends the lines of the entries
to the caller's buffer as long as they leave room for the final `NUL`, so what it
delivers is the longest prefix of whole lines that fits.

The directory buffer has a 32-bit size.  A chain of `2 ^ 32` bytes or more overruns
it before the first line is written.
-/

namespace RebornOS
namespace Fat16

open ByteStore TableChain ListBlocks Fallible

variable {boot buf : Store} {e n : Nat} {serves : Nat → Bool} {g : Geometry}
  {fat : Nat → Nat}

section Visible

variable {want : List UInt8}

/-- The visible entries, with `n` entries left from `e` on. -/
def visibleFrom (buf : Store) : Nat → Nat → List Nat
  | 0, _ => []
  | n + 1, e =>
      if firstByte buf e = 0 then
        []
      else if firstByte buf e = 0xE5 ∨ (readDirent buf e).Skipped then
        visibleFrom buf n (e + 1)
      else
        e :: visibleFrom buf n (e + 1)

theorem visibleFrom_ended
    (h : firstByte buf e = 0) : visibleFrom buf (n + 1) e = [] := by
  simp [visibleFrom, h]

theorem visibleFrom_hidden
    (hend : firstByte buf e ≠ 0)
    (h : firstByte buf e = 0xE5 ∨ (readDirent buf e).Skipped) :
    visibleFrom buf (n + 1) e = visibleFrom buf n (e + 1) := by
  simp [visibleFrom, hend, h]

theorem visibleFrom_shown
    (hend : firstByte buf e ≠ 0)
    (h : ¬ (firstByte buf e = 0xE5 ∨ (readDirent buf e).Skipped)) :
    visibleFrom buf (n + 1) e = e :: visibleFrom buf n (e + 1) := by
  simp [visibleFrom, hend, h]

theorem visibleFrom_length_le
    (buf : Store) (n e : Nat) : (visibleFrom buf n e).length ≤ n := by
  induction n generalizing e with
  | zero =>
      simp [visibleFrom]
  | succ n ih =>
      have hrest := ih (e + 1)
      by_cases hend : firstByte buf e = 0
      · simp [visibleFrom_ended hend]
      · by_cases hhidden : firstByte buf e = 0xE5 ∨ (readDirent buf e).Skipped
        · rw [visibleFrom_hidden hend hhidden]
          omega
        · rw [visibleFrom_shown hend hhidden, List.length_cons]
          omega

/-- `find_entry_in_dir` searches the visible entries in order. -/
theorem findFrom_eq_find
    (n e : Nat) :
    findFrom buf want n e =
      (visibleFrom buf n e).find? (fun i => (readDirent buf i).name = want) := by
  induction n generalizing e with
  | zero =>
      rfl
  | succ n ih =>
      by_cases hend : firstByte buf e = 0
      · simp [findFrom, visibleFrom_ended, hend]
      · by_cases hhidden : firstByte buf e = 0xE5 ∨ (readDirent buf e).Skipped
        · simp [findFrom, visibleFrom_hidden, hend, hhidden, ih]
        · by_cases hname : (readDirent buf e).name = want
          · simp [findFrom, visibleFrom_shown, hend, hhidden, hname]
          · simp [findFrom, visibleFrom_shown, hend, hhidden, hname, ih]

end Visible

section Lines

variable {dir : Store} {maxLen : Nat}

/-- A line fits `line[13]`. -/
theorem listLine_length
    {d : Dirent} (hname : d.name.length = 11) : (listLine d).length ≤ 13 := by
  have hbase : ((d.name.take 8).takeWhile (fun c => c ≠ 0x20)).length ≤ 8 :=
    le_trans (List.takeWhile_sublist _).length_le (by simp)
  have hext : ((d.name.drop 8).takeWhile (fun c => c ≠ 0x20)).length ≤ 3 :=
    le_trans (List.takeWhile_sublist _).length_le (by simp [hname])
  unfold listLine
  split_ifs
  · simp only [List.length_append, List.length_cons, List.length_nil]
    omega
  · simp only [List.length_append, List.length_cons, List.length_nil]
    omega

/-- The lines of some entries of a directory. -/
def linesOf (dir : Store) (entries : List Nat) : List (List UInt8) :=
  entries.map (fun e => listLine (readDirent dir e))

@[simp] theorem linesOf_nil : linesOf dir [] = [] := by
  rfl

@[simp] theorem linesOf_cons
    (e : Nat) (entries : List Nat) :
    linesOf dir (e :: entries) = listLine (readDirent dir e) :: linesOf dir entries := by
  rfl

theorem linesOf_flatten_length_le
    (dir : Store) (entries : List Nat) :
    (linesOf dir entries).flatten.length ≤ 13 * entries.length := by
  induction entries with
  | nil =>
      simp
  | cons e entries ih =>
      have hline := listLine_length (d := readDirent dir e) (by simp [readDirent])
      simp only [linesOf_cons, List.flatten_cons, List.length_append, List.length_cons]
      omega

/-- The buffer with `text` stored at offset `a`. -/
def writeText (buf : Store) (a : Nat) (text : List UInt8) : Store :=
  copyIn buf a text.length (fun i => text.getD i 0)

@[simp] theorem writeText_nil
    (a : Nat) : writeText buf a [] = buf := by
  funext x
  exact copyIn_outside (by simp; omega)

theorem writeText_inside
    {text : List UInt8} {i : Nat} (hi : i < text.length) :
    writeText buf 0 text i = text.getD i 0 := by
  rw [writeText, copyIn, if_pos (by omega), Nat.sub_zero]

/-- One text behind the other. -/
theorem writeText_append
    (a : Nat) (line text : List UInt8) :
    writeText (writeText buf a line) (a + line.length) text =
      writeText buf a (line ++ text) := by
  have hline : copyIn buf a line.length (fun i => line.getD i 0) =
      copyIn buf a line.length (fun i => (line ++ text).getD i 0) :=
    copyIn_congr (fun i hi => by simp [List.getElem?_append_left hi])
  have htext : (fun i => text.getD i 0) =
      fun i => (line ++ text).getD (line.length + i) 0 := by
    funext i
    simp [List.getElem?_append_right]
  unfold writeText
  rw [hline, htext, copyIn_copyIn, List.length_append]

/-- The loop of `fat16_list_dir` writes the lines that fit. -/
theorem listFrom_eq
    (dir : Store) (maxLen n e : Nat) (written : Nat) (buf : Store)
    (hroom : written + 13 * n < 2 ^ 32) :
    listFrom dir maxLen n e written buf =
      (written +
          (fitting maxLen written (linesOf dir (visibleFrom dir n e))).flatten.length,
        writeText buf written
          (fitting maxLen written (linesOf dir (visibleFrom dir n e))).flatten) := by
  induction n generalizing e written buf with
  | zero =>
      simp [listFrom, visibleFrom]
  | succ n ih =>
      by_cases hend : firstByte dir e = 0
      · simp [listFrom, visibleFrom_ended, hend]
      · by_cases hhidden : firstByte dir e = 0xE5 ∨ (readDirent dir e).Skipped
        · simp [listFrom, visibleFrom_hidden, hend, hhidden,
            ih (e + 1) written buf (by omega)]
        · have hline := listLine_length (d := readDirent dir e) (by simp [readDirent])
          have hnext : (written + (listLine (readDirent dir e)).length) % 2 ^ 32 =
              written + (listLine (readDirent dir e)).length :=
            Nat.mod_eq_of_lt (by omega)
          rw [listFrom, if_neg hend, if_neg hhidden, visibleFrom_shown hend hhidden,
            linesOf_cons]
          simp only [hnext]
          by_cases hfits : written + (listLine (readDirent dir e)).length < maxLen
          · rw [if_neg (Nat.not_le.mpr hfits), ih (e + 1) _ _ (by omega),
              fitting_cons_of_lt hfits, List.flatten_cons, List.length_append,
              ← writeText_append, Nat.add_assoc]
            rfl
          · have hle := Nat.not_lt.mp hfits
            rw [if_pos hle, fitting_cons_of_le hle]
            simp

end Lines

section Contents

variable {v : Volume} {dir : Nat} {r : Store × Nat}

/-- The bytes of a directory: the root area, or the clusters of its chain. -/
def directorySize (v : Volume) (d : Nat) : Nat :=
  if d = 0 then
    v.geom.rootDirBytes
  else
    ((walkChain v d).toOption.getD []).length * v.geom.clusterSizeBytes

theorem directorySize_of_walk
    {cs : List Nat} (hdir : dir ≠ 0) (hwalk : walkChain v dir = .ok cs) :
    directorySize v dir = cs.length * v.geom.clusterSizeBytes := by
  simp [directorySize, hdir, hwalk, Except.toOption]

/-- A directory other than the root has been walked. -/
theorem walk_of_dirContents
    (hdir : dir ≠ 0) (h : dirContents v dir = some r) :
    ∃ cs, walkChain v dir = .ok cs ∧
      r = (clusterBytes v cs, cs.length * v.geom.clusterSizeBytes / direntSize) := by
  rw [dirContents, if_neg hdir, Option.map_eq_some_iff] at h
  obtain ⟨cs, hwalk, hr⟩ := h
  exact ⟨cs, toOption_eq_some.mp hwalk, hr.symm⟩

/-- With its buffer served, a directory below 4 GiB is read. -/
theorem readDirectory_of_fits
    (hcontents : dirContents v dir = some r)
    (hserved : kmallocOk serves (directorySize v dir % 2 ^ 32))
    (hfits : directorySize v dir < 2 ^ 32) : readDirectory serves v dir = .ok r := by
  rw [Nat.mod_eq_of_lt hfits] at hserved
  by_cases hdir : dir = 0
  · subst hdir
    have hroot : readRootDir serves v = .ok (rootBytes v) := if_pos hserved
    simp only [dirContents, if_true, Option.some.injEq] at hcontents
    simp [readDirectory, hroot, ok_bind, hcontents]
  · obtain ⟨cs, hwalk, rfl⟩ := walk_of_dirContents hdir hcontents
    rw [directorySize_of_walk hdir hwalk] at hserved hfits
    have hmod := Nat.mod_eq_of_lt hfits
    rw [readDirectory, if_neg hdir, readSubdirClusters, hwalk]
    simp only [ok_bind, hmod, if_pos hserved, lt_irrefl, if_false]

/-- A larger one overruns the buffer. -/
theorem readDirectory_overrun
    (hcontents : dirContents v dir = some r)
    (hserved : kmallocOk serves (directorySize v dir % 2 ^ 32))
    (hlarge : 2 ^ 32 ≤ directorySize v dir) :
    readDirectory serves v dir = .error .bufferOverrun := by
  have hdir : dir ≠ 0 := by
    rintro rfl
    have hroot := v.geom.rootDirSectors_le
    simp only [directorySize, if_true, Geometry.rootDirBytes, sectorSize] at hlarge
    omega
  obtain ⟨cs, hwalk, rfl⟩ := walk_of_dirContents hdir hcontents
  rw [directorySize_of_walk hdir hwalk] at hserved hlarge
  have hover : cs.length * v.geom.clusterSizeBytes % 2 ^ 32 <
      cs.length * v.geom.clusterSizeBytes :=
    lt_of_lt_of_le (Nat.mod_lt _ (by decide)) hlarge
  rw [readDirectory, if_neg hdir, readSubdirClusters, hwalk]
  simp only [ok_bind, if_pos hserved, if_pos hover]
  rfl

/-- The lines of such a directory fit a 31-bit count. -/
theorem count_of_fits
    (hcontents : dirContents v dir = some r)
    (hfits : directorySize v dir < 2 ^ 32) : 13 * r.2 < 2 ^ 31 := by
  by_cases hdir : dir = 0
  · subst hdir
    simp only [dirContents, if_true, Option.some.injEq] at hcontents
    have hlt := v.geom.rootDirEntryCount_lt
    rw [← hcontents]
    dsimp only
    omega
  · obtain ⟨cs, hwalk, rfl⟩ := walk_of_dirContents hdir hcontents
    rw [directorySize_of_walk hdir hwalk] at hfits
    simp only [direntSize]
    omega

end Contents

section Listing

variable {v : Volume} {path : CString} {dir maxLen : Nat} {r : Store × Nat}

/-- `out` is the returned value and the buffer when the lines `shown` were listed. -/
structure LinesListed (lines : List (List UInt8)) (maxLen : Nat) (buf : Store)
    (shown : List (List UInt8)) (out : Int × Store) : Prop where
  leading : shown <+: lines
  fits : shown.flatten.length < maxLen
  longest :
    ∀ pre, pre <+: lines → pre.flatten.length < maxLen → pre.length ≤ shown.length
  returned : out.1 = shown.flatten.length
  text : ∀ i, i < shown.flatten.length → out.2 i = shown.flatten.getD i 0
  terminated : out.2 shown.flatten.length = 0
  untouched : ∀ i, shown.flatten.length < i → out.2 i = buf i

/-- The lines that fit, with the `NUL` behind them. -/
theorem linesListed_fitting
    (lines : List (List UInt8)) (buf : Store) (hmax : 0 < maxLen) :
    LinesListed lines maxLen buf (fitting maxLen 0 lines)
      (((fitting maxLen 0 lines).flatten.length : Int),
        fill (writeText buf 0 (fitting maxLen 0 lines).flatten)
          (fitting maxLen 0 lines).flatten.length 1 0) := by
  have hlimit := fitting_length hmax lines
  rw [Nat.zero_add] at hlimit
  refine
    { leading := fitting_isPrefix maxLen 0 lines
      fits := hlimit
      longest := fun pre hpre hlt => fitting_longest hpre (by simpa using hlt)
      returned := rfl
      text := fun i hi => ?_
      terminated := ?_
      untouched := fun i hi => ?_ }
  · dsimp only
    rw [fill_outside (by omega)]
    exact writeText_inside hi
  · simp [fill]
  · dsimp only
    rw [fill_outside (by omega)]
    exact copyIn_outside (by omega)

/-- The call lists whole lines of the directory with contents `r`. -/
def ListsWholeLines (serves : Nat → Bool) (v : Volume) (path : CString)
    (r : Store × Nat) (buf : Store) (maxLen : Nat) : Prop :=
  ∃ out shown, fat16ListDir serves v path buf maxLen = .ok out ∧
    LinesListed (linesOf r.1 (visibleFrom r.1 r.2 0)) maxLen buf shown out

/-- The call after its directory was read. -/
theorem fat16ListDir_eq
    (hresolve : resolveDirectory serves v path.bytes = .ok (some dir))
    (hread : readDirectory serves v dir = .ok r) (hcount : 13 * r.2 < 2 ^ 31)
    (hmax : 0 < maxLen) :
    fat16ListDir serves v path buf maxLen =
      .ok
        (((fitting maxLen 0
            (linesOf r.1 (visibleFrom r.1 r.2 0))).flatten.length : Int),
          fill
            (writeText buf 0
              (fitting maxLen 0 (linesOf r.1 (visibleFrom r.1 r.2 0))).flatten)
            (fitting maxLen 0
              (linesOf r.1 (visibleFrom r.1 r.2 0))).flatten.length 1 0) := by
  have hlines := linesOf_flatten_length_le r.1 (visibleFrom r.1 r.2 0)
  have hentries := visibleFrom_length_le r.1 r.2 0
  obtain ⟨rest, hrest⟩ :=
    fitting_isPrefix maxLen 0 (linesOf r.1 (visibleFrom r.1 r.2 0))
  have hshort : (fitting maxLen 0
      (linesOf r.1 (visibleFrom r.1 r.2 0))).flatten.length < 2 ^ 31 := by
    have hsplit := congrArg (fun l => l.flatten.length) hrest
    simp only [List.flatten_append, List.length_append] at hsplit
    omega
  have hfits := fitting_length hmax (linesOf r.1 (visibleFrom r.1 r.2 0))
  rw [fat16ListDir, hresolve, ok_bind]
  simp only [hread, ok_bind,
    listFrom_eq r.1 maxLen r.2 0 0 buf (by omega), Nat.zero_add] at hfits ⊢
  rw [if_pos hmax, if_pos hfits, Int.bmod_eq_of_le (by omega) (by omega)]

/-- A directory that overruns its buffer is not listed. -/
theorem fat16ListDir_overrun
    (hresolve : resolveDirectory serves v path.bytes = .ok (some dir))
    (hcontents : dirContents v dir = some r)
    (hserved : kmallocOk serves (directorySize v dir % 2 ^ 32))
    (hlarge : 2 ^ 32 ≤ directorySize v dir) :
    fat16ListDir serves v path buf maxLen = .error .bufferOverrun := by
  rw [fat16ListDir, hresolve, ok_bind]
  simp only [readDirectory_overrun hcontents hserved hlarge]
  rfl

/--
**A listing is a prefix of whole lines.**  For a directory that resolves, with its
buffer served, the output is the longest prefix of the lines of the visible
entries that leaves room for the `NUL`, exactly when the directory has less than
`2 ^ 32` bytes.
-/
theorem list_dir_exact_iff
    (hresolve : resolveDirectory serves v path.bytes = .ok (some dir))
    (hcontents : dirContents v dir = some r)
    (hserved : kmallocOk serves (directorySize v dir % 2 ^ 32))
    (hmax : 1 ≤ maxLen) :
    ListsWholeLines serves v path r buf maxLen ↔ directorySize v dir < 2 ^ 32 := by
  constructor
  · rintro ⟨out, shown, hrun, _⟩
    by_contra hlarge
    rw [fat16ListDir_overrun hresolve hcontents hserved (Nat.not_lt.mp hlarge)] at hrun
    cases hrun
  · intro hfits
    have hread := readDirectory_of_fits hcontents hserved hfits
    have hcount := count_of_fits hcontents hfits
    exact
      ⟨_, _, fat16ListDir_eq hresolve hread hcount hmax, linesListed_fitting _ buf hmax⟩

end Listing

section Samples

/-- The bytes of a directory entry. -/
def direntBytes (name : List UInt8) (attr : UInt8) (cluster size : Nat) :
    List UInt8 :=
  name ++ attr :: List.replicate 14 0 ++
    [UInt8.ofNat cluster, UInt8.ofNat (cluster / 256), UInt8.ofNat size,
      UInt8.ofNat (size / 256), 0, 0]

/-- A volume with the first FAT `fat` and a root directory that starts with `root`. -/
def diskOf (boot : Store) (g : Geometry) (fat : Nat → Nat) (root : List UInt8) :
    Store :=
  writeText (copyIn boot g.fatAddr g.fatBytes (fatImage fat)) g.rootAddr root

theorem diskOf_before
    {root : List UInt8} {x : Nat} (hx : x < g.fatAddr) :
    diskOf boot g fat root x = boot x := by
  have hbefore := g.fat_before_root
  rw [diskOf, writeText, copyIn_outside (by omega), copyIn_outside (by omega)]

/-- The cache after mounting it. -/
theorem diskFat_diskOf
    {root : List UInt8} {c : Nat} (hc : c < g.fatCacheEntries) (hword : fat c < 2 ^ 16) :
    diskFat g (diskOf boot g fat root) c = fat c := by
  have hbefore := g.fat_before_root
  have hbytes := g.fatCacheEntries_bytes
  refine readLE_fatImage (fun i hi => ?_) hword
  rw [diskOf, writeText, copyIn_outside (by unfold Geometry.fatAddr at *; omega),
    copyIn, if_pos (by unfold Geometry.fatAddr at *; omega)]
  congr 1
  unfold Geometry.fatAddr
  omega

/-- Mounting it. -/
theorem fat16Init_diskOf
    (hboot : bootGeometry boot = .ok g) (hreserved : 0 < g.reservedSectorCount)
    (hserved : kmallocOk serves g.fatBytes) (fat : Nat → Nat) (root : List UInt8) :
    fat16Init serves (diskOf boot g fat root) =
      .ok
        ⟨g, diskFat g (diskOf boot g fat root), ⟨diskOf boot g fat root, []⟩⟩ := by
  refine fat16Init_of_boot (bootGeometry_congr hboot (fun x hx => ?_)) hserved
  exact diskOf_before (lt_of_lt_of_le hx (g.boot_before_fat hreserved))

/-- On the formatted disk. -/
theorem fat16Init_formatted
    (fat : Nat → Nat) (root : List UInt8) :
    fat16Init (fun _ => true) (diskOf formattedDisk formattedGeometry fat root) =
      .ok
        ⟨formattedGeometry,
          diskFat formattedGeometry (diskOf formattedDisk formattedGeometry fat root),
          ⟨diskOf formattedDisk formattedGeometry fat root, []⟩⟩ :=
  fat16Init_diskOf (bootGeometry_of_bpb (by decide) (by decide)) (by decide)
    (by decide) fat root

/-- A deleted entry, `A.B`, the volume label and the directory `DIR`. -/
def sampleRoot : List UInt8 :=
  direntBytes (0xE5 :: List.replicate 10 0x20) attrArchive 0 0 ++
    direntBytes (format83 [0x61, 0x2E, 0x62]) attrArchive 0 0 ++
    direntBytes (List.replicate 11 0x56) attrVolumeId 0 0 ++
    direntBytes (format83 [0x64, 0x69, 0x72]) attrDirectory 3 0

/-- The formatted disk with these entries. -/
def sampleDisk : Store :=
  diskOf formattedDisk formattedGeometry (fun _ => 0) sampleRoot

/-- The volume that mounting it gives. -/
def sampleVolume : Volume :=
  ⟨formattedGeometry, diskFat formattedGeometry sampleDisk, ⟨sampleDisk, []⟩⟩

/-- The empty path, which is the root directory. -/
def emptyPath : CString := ⟨[], by decide⟩

/-- Listing the root of the sample volume into six bytes. -/
theorem list_dir_exact_sample :
    linesOf (rootBytes sampleVolume) (visibleFrom (rootBytes sampleVolume) 16 0) =
        [[0x41, 0x2E, 0x42, 0x0A], [0x44, 0x49, 0x52, 0x0A]] ∧
      ListsWholeLines (fun _ => true) sampleVolume emptyPath
        (rootBytes sampleVolume, 16) (fun _ => 7) 6 := by
  have hresolve : resolveDirectory (fun _ => true) sampleVolume emptyPath.bytes =
      .ok (some 0) := rfl
  have hcontents : dirContents sampleVolume 0 =
      some (rootBytes sampleVolume, 16) := rfl
  refine ⟨by decide +kernel, ?_⟩
  exact
    (list_dir_exact_iff hresolve hcontents (by decide) (by decide)).mpr (by decide)

/-- Clusters of 255 sectors, and a FAT of 129 sectors. -/
def largeBoot : Store :=
  fun i =>
    ([(12, 2), (13, 255), (14, 1), (16, 1), (17, 16), (22, 129), (510, 0x55),
      (511, 0xAA)] : List (Nat × UInt8)).lookup i |>.getD 0

def largeGeometry : Geometry :=
  geometryOf 0 (bootSector largeBoot 0) (by decide)

/-- One chain through the clusters 2 to 32898. -/
def largeFat (c : Nat) : Nat := if c < 32898 then c + 1 else eocMark

/-- The directory `D` has this chain. -/
def largeDisk : Store :=
  diskOf largeBoot largeGeometry largeFat
    (direntBytes (format83 [0x64]) attrDirectory 2 0)

def largeVolume : Volume :=
  ⟨largeGeometry, diskFat largeGeometry largeDisk, ⟨largeDisk, []⟩⟩

/-- `d`. -/
def directoryName : CString := ⟨[0x64], by decide⟩

/-- A chain through consecutive clusters. -/
theorem chainAt_consecutive
    (k : Nat) :
    ∀ c, (∀ d, c ≤ d → d < c + k → IsCluster g d ∧ fat d = d + 1) →
      IsCluster g (c + k) → eocMin ≤ fat (c + k) →
        ChainAt g fat c (List.range' c (k + 1)) := by
  induction k with
  | zero =>
      intro c _ hlast hend
      exact ⟨rfl, hlast, hend⟩
  | succ k ih =>
      intro c hlinks hlast hend
      obtain ⟨hnode, hnext⟩ := hlinks c (le_refl c) (by omega)
      rw [show c + (k + 1) = c + 1 + k by omega] at hlast hend
      refine ⟨rfl, hnode, ?_⟩
      rw [hnext]
      exact ih (c + 1) (fun d hlow hhigh => hlinks d (by omega) (by omega)) hlast hend

/-- The walk through the directory's clusters. -/
theorem walkChain_large : walkChain largeVolume 2 = .ok (List.range' 2 32897) := by
  have hentries : largeVolume.geom.fatCacheEntries = 33024 := by decide
  have hfat : ∀ c, c < 33024 → largeVolume.fat c = largeFat c := by
    intro c hc
    refine diskFat_diskOf (by rw [← hentries] at hc; exact hc) ?_
    unfold largeFat eocMark
    split_ifs <;> omega
  refine walkChain_of_entryChain (by decide) (Or.inr (chainAt_consecutive 32896 2 ?_ ?_ ?_))
  · intro d hlow hhigh
    refine ⟨⟨hlow, by rw [hentries]; omega⟩, ?_⟩
    rw [hfat d (by omega)]
    exact if_pos (by omega)
  · exact ⟨by decide, by rw [hentries]; decide⟩
  · rw [hfat _ (by decide)]
    decide

/--
**A large directory overruns its buffer.**  The chain of `D` has 32897 clusters of
130560 bytes; the size modulo `2 ^ 32` is 65024, which is served, and the clusters
are copied far beyond it.
-/
theorem listing_overruns :
    fat16Init (fun _ => true) largeDisk = .ok largeVolume ∧
      resolveDirectory (fun _ => true) largeVolume directoryName.bytes =
        .ok (some 2) ∧
      (∃ r, dirContents largeVolume 2 = some r ∧
        ¬ ListsWholeLines (fun _ => true) largeVolume directoryName r (fun _ => 0) 64) ∧
      directorySize largeVolume 2 = 4295032320 ∧
      fat16ListDir (fun _ => true) largeVolume directoryName (fun _ => 0) 64 =
        .error .bufferOverrun := by
  have hinit : fat16Init (fun _ => true) largeDisk = .ok largeVolume :=
    fat16Init_diskOf (bootGeometry_of_bpb (by decide) (by decide)) (by decide)
      (by decide) _ _
  have hresolve : resolveDirectory (fun _ => true) largeVolume directoryName.bytes =
      .ok (some 2) :=
    toOption_eq_some.mp (by decide)
  have hsize : directorySize largeVolume 2 = 4295032320 := by
    rw [directorySize_of_walk (by decide) walkChain_large, List.length_range']
    decide
  have hcontents : dirContents largeVolume 2 =
      some (clusterBytes largeVolume (List.range' 2 32897), 134219760) := by
    rw [dirContents, if_neg (by decide), walkChain_large]
    simp only [Except.toOption, Option.map_some, List.length_range']
    rfl
  have hpanic : fat16ListDir (fun _ => true) largeVolume directoryName (fun _ => 0)
      64 = .error .bufferOverrun :=
    fat16ListDir_overrun hresolve hcontents (by rw [hsize]; decide)
      (by rw [hsize]; decide)
  refine ⟨hinit, hresolve, ⟨_, hcontents, ?_⟩, hsize, hpanic⟩
  rintro ⟨out, shown, hrun, _⟩
  rw [hpanic] at hrun
  cases hrun

end Samples

end Fat16
end RebornOS
