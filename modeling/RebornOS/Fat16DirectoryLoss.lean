import RebornOS.Fat16CrashIsolation
import RebornOS.Fat16Freeing
import RebornOS.Fat16Resolution

/-!
# Writing over a directory

The slot search of `fat16_write_file` does not look at the directory attribute.  A
call whose name is the name of a directory turns the directory's entry into a
file, and from then on no path leads below it.

A call that finds the disk full panics before it writes the entry.  By then it has
freed the directory's clusters and written data to all free ones, so the directory is
lost as well: with data that starts with 0 it is empty on the disk.
-/

namespace RebornOS
namespace Fat16

open ByteStore TableChain Fallible

variable {c d e slot : Nat} {ent : Dirent} {cs new : List Nat} {u : Volume}
  {fat : Nat → Nat}

section Loss

variable {serves : Nat → Bool} {v v' : Volume} {name path : CString}
  {data : Nat → UInt8} {size : Nat}

/-- The path leads below the root entry with the short name of `name`. -/
def Below (name path : CString) : Prop :=
  pathRest path.bytes ≠ [] ∧
    format83 (component path.bytes) = format83 name.bytes

instance (name path : CString) : Decidable (Below name path) :=
  inferInstanceAs (Decidable (_ ∧ _))

/-- Some file below that entry can be opened and read. -/
def ReadableBelow (serves : Nat → Bool) (v : Volume) (name : CString) : Prop :=
  ∃ path buf m r,
    Below name path ∧ openRead serves v path buf m = .ok (some r)

/-- Every such file is read as before. -/
def KeptBelow (serves : Nat → Bool) (v v' : Volume) (name : CString) : Prop :=
  ∀ path buf m r,
    Below name path → openRead serves v path buf m = .ok (some r) →
      openRead serves v' path buf m = .ok (some r)

/-- A file with the name of a directory: nothing below it can be opened. -/
theorem RootWritten.open_below
    {first : Nat} (h : RootWritten v v' name first size slot)
    (hname : (format83 name.bytes).headD 0 ≠ 0xE5)
    (hroot : kmallocOk serves v.geom.rootDirBytes) (hbelow : Below name path) :
    fat16Open serves v' path = .ok none := by
  have hfile : NotDirectory (findEntryInDir serves v' 0 (format83 name.bytes)) := by
    refine ⟨_, findEntryInDir_root (by rwa [h.geom]) _, ?_⟩
    intro ent hent
    rw [h.geom, h.find_slot hname, Option.map_some, Option.some.injEq] at hent
    rw [← hent]
    exact h.slot_not_directory
  have hparent : resolveParentDir serves v' path.bytes = .ok none := by
    rw [resolveParentDir, resolveFrom_succ hbelow.1, hbelow.2]
    exact descend_of_notDirectory hfile
  rw [fat16Open, hparent]
  rfl

/-- So after a call that returns, whatever was readable below the name is lost. -/
theorem open_below_of_write
    (hname : (format83 name.bytes).headD 0 ≠ 0xE5)
    (hok : fat16WriteFile serves v name data size = .ok v')
    (hbelow : Below name path) : fat16Open serves v' path = .ok none := by
  rcases fat16WriteFile_cases serves v name data size with
    ⟨e, u, hpanic, _⟩ | ⟨_, _, hroot, _⟩
  · rw [hok] at hpanic
    cases hpanic
  · obtain ⟨slot, first, _, hwritten⟩ := rootWritten_of_ok hok
    exact hwritten.open_below hname hroot hbelow

/-- What a readable file below the name says about the name's entry. -/
theorem exists_find_below
    (h : ReadableBelow serves v name) :
    kmallocOk serves v.geom.rootDirBytes ∧
      ∃ ent want found,
        findEntryInDir serves v 0 (format83 name.bytes) = .ok (some ent) ∧
          findEntryInDir serves v ent.firstCluster want = .ok (some found) := by
  obtain ⟨path, buf, m, r, ⟨hrest, hname⟩, hread⟩ := h
  have hroot : kmallocOk serves v.geom.rootDirBytes := by
    by_contra hno
    rw [openRead, fat16Open, resolveParentDir, resolveFrom_succ hrest,
      findEntryInDir_root_panic _ hno] at hread
    cases hread
  refine ⟨hroot, ?_⟩
  obtain ⟨piece, tail, hpieces⟩ :=
    List.exists_cons_of_ne_nil (pieces_ne_nil (pathRest path.bytes))
  obtain ⟨file, hopen, hread⟩ := bind_eq_ok.mp hread
  rw [fat16Open_eq_followEntries, pieces_step hrest, hpieces] at hopen
  obtain ⟨entries, hwalk, rfl⟩ := map_eq_ok.mp hopen
  cases entries with
  | none =>
      cases hread
  | some entries =>
      obtain ⟨ent, _, hfind, _, hwalk⟩ := followEntries_cons hwalk
      obtain ⟨found, _, hsub, _⟩ := followEntries_cons hwalk
      exact ⟨ent, format83 piece, found, by rwa [hname] at hfind, hsub⟩

/-- Nothing can be opened below an empty directory. -/
theorem not_readableBelow_of_empty
    (hfind : findEntryInDir serves v 0 (format83 name.bytes) = .ok (some ent))
    (hempty : ∀ want, findEntryInDir serves v ent.firstCluster want = .ok none) :
    ¬ ReadableBelow serves v name := by
  intro h
  obtain ⟨_, ent', want, found, hent, hfound⟩ := exists_find_below h
  cases hfind.symm.trans hent
  cases (hempty want).symm.trans hfound

/-- A walk that visits a cluster starts at a cluster of the FAT. -/
theorem linked_of_walk
    {n : Nat} (h : walkFrom v n d = .ok (c :: cs)) : c = d ∧ Linked v d := by
  cases n with
  | zero =>
      cases h
  | succ n =>
      by_cases hin : 2 ≤ d ∧ d < eocMin
      · rw [walkFrom, if_pos hin] at h
        obtain ⟨next, hnext, hrest⟩ := bind_eq_ok.mp h
        obtain ⟨ds, _, hcons⟩ := bind_eq_ok.mp hrest
        cases hcons
        unfold fatNextCluster at hnext
        split_ifs at hnext with hlt
        exact ⟨rfl, hin, hlt⟩
      · rw [walkFrom, if_neg hin] at h
        cases h

/-- A subdirectory that is read: its chain ends, and is not empty. -/
theorem walk_of_readDirectory
    {r : Store × Nat} (hd : d ≠ 0) (h : readDirectory serves v d = .ok r) :
    ∃ cs, walkChain v d = .ok (d :: cs) := by
  rw [readDirectory, if_neg hd] at h
  obtain ⟨b, hsub, _⟩ := bind_eq_ok.mp h
  cases hwalk : walkChain v d with
  | error p =>
      rw [readSubdirClusters_panic hwalk] at hsub
      cases hsub
  | ok cs =>
      rw [readSubdirClusters_walked hwalk] at hsub
      split_ifs at hsub with hserved
      cases cs with
      | nil =>
          exact absurd (by simp) hserved.1
      | cons c cs =>
          obtain ⟨rfl, _⟩ := linked_of_walk hwalk
          exact ⟨cs, rfl⟩

/-- A walk that returns stays on the FAT. -/
theorem not_leavesFat_of_walk
    {n : Nat} (h : walkFrom v n c = .ok cs) : ¬ LeavesFat v c := by
  rintro ⟨ds, hchain⟩
  induction ds generalizing n c cs with
  | nil =>
      cases n with
      | zero =>
          cases h
      | succ n =>
          have hoff : OffFat v c := hchain
          rw [walkFrom, if_pos hoff.1, fatNextCluster,
            if_neg (Nat.not_lt.mpr hoff.2)] at h
          cases h
  | cons d ds ih =>
      obtain ⟨rfl, hlinked, hrest⟩ := hchain
      cases n with
      | zero =>
          cases h
      | succ n =>
          rw [walkFrom, if_pos hlinked.1, fatNextCluster, if_pos hlinked.2,
            ok_bind] at h
          obtain ⟨es, hes, _⟩ := bind_eq_ok.mp h
          exact ih hes hrest

/-- Walks use the links of the FAT only. -/
theorem walkFrom_congr
    {w : Volume} (hgeom : w.geom = v.geom)
    (hlinks : ∀ c, c < v.geom.fatCacheEntries → w.fat c = v.fat c) (n c : Nat) :
    walkFrom w n c = walkFrom v n c := by
  have hnext : ∀ c, fatNextCluster w c = fatNextCluster v c := by
    intro c
    unfold fatNextCluster
    rw [hgeom]
    split_ifs with hlt
    · rw [hlinks c hlt]
    · rfl
  induction n generalizing c with
  | zero =>
      rfl
  | succ n ih =>
      rw [walkFrom, walkFrom, hnext]
      congr 1
      congr 1
      funext next
      rw [ih]

/-- The disk after a call that returned or panicked. -/
def diskAfter (serves : Nat → Bool) (v : Volume) (name : CString)
    (data : Nat → UInt8) (size : Nat) : Store :=
  (lastVolume (fat16WriteFile serves v name data size)).device.disk

/-- A full disk and zeros as data: the directory is found empty. -/
theorem FullCall.find_none
    (h : FullCall v u name (fun _ => 0) size slot fat new) (hsync : Synced v)
    (hold : OldCluster v name d) (hd : d ≠ 0) (hwalk : walkChain v d = .ok (d :: cs))
    (want : List UInt8) (found : Dirent) :
    findEntryInDir serves (remounted v u.device.disk) d want ≠ .ok (some found) := by
  intro hfind
  have hlinks : ∀ c, c < v.geom.fatCacheEntries →
      (remounted v u.device.disk).fat c = v.fat c := by
    intro c hc
    have hbefore := v.geom.fat_before_root
    have hdata := v.geom.dataAddr_eq
    have hsize := v.geom.fatCacheEntries_bytes
    rw [hsync c hc]
    refine readLE_congr ?_
    intro x hx hx'
    change x < v.geom.fatAddr + 2 * c + 2 at hx'
    exact h.before_data (by omega)
  have hwalk' : walkChain (remounted v u.device.disk) d = .ok (d :: cs) := by
    rw [← hwalk]
    exact walkFrom_congr (v := v) (w := remounted v u.device.disk) rfl hlinks _ _
  -- the directory's first cluster is on the FAT, and was freed and written to
  have hlinked : Linked v d := (linked_of_walk hwalk).2
  have hmem : d ∈ new :=
    h.mem_of_free hlinked.2 ((isFree_freeExisting h.freed d).mpr
      ⟨hlinked.1.1, Or.inr ⟨d, hold, .here hlinked⟩⟩)
  have hzero : firstByte (clusterBytes (remounted v u.device.disk) (d :: cs)) 0 = 0 := by
    have hbyte := h.written.stored.first_byte (absurd rfl) hmem
    simpa [firstByte, clusterBytes] using hbyte
  obtain ⟨r, hread, hfound⟩ := bind_eq_ok.mp hfind
  rw [readDirectory, if_neg hd, readSubdirClusters_walked hwalk'] at hread
  obtain ⟨b, hsub, hpair⟩ := bind_eq_ok.mp hread
  cases hpair
  split_ifs at hsub with _ hover
  cases hsub
  have hnone : findFrom (clusterBytes (remounted v u.device.disk) (d :: cs)) want
      ((d :: cs).length * v.geom.clusterSizeBytes % 2 ^ 32 / direntSize) 0 = none := by
    rw [findFrom_zero_eq_none]
    intro e hvis
    exact absurd hzero (hvis.not_ended 0 (Nat.zero_le e))
  simp only [remounted_geom, hnone] at hfound
  cases hfound

/--
**Directories.**  Let `e` be a root entry with the short name of `name`, such as a
directory.  A call of `fat16_write_file` that returns keeps what is readable below
it exactly if nothing is.  On a well-formed volume the calls that panic do not save a
directory either: mount the disk as the call leaves it.  (First cluster 0 stands for
the root.)
-/
theorem write_keeps_below_iff
    {e : Nat} (hvis : Visible (rootBytes v) v.geom.rootDirEntryCount e)
    (hname : (readDirent (rootBytes v) e).name = format83 name.bytes) :
    (∀ data v', fat16WriteFile serves v name data size = .ok v' →
        (KeptBelow serves v v' name ↔ ¬ ReadableBelow serves v name)) ∧
      (WellFormed v → v.geom.fatCacheEntries ≤ 0xFFF0 →
        (readDirent (rootBytes v) e).firstCluster ≠ 0 →
        ((∀ data, KeptBelow serves v
            (remounted v (diskAfter serves v name data size)) name) ↔
          ¬ ReadableBelow serves v name)) := by
  have hhead : (format83 name.bytes).headD 0 ≠ 0xE5 := by
    rw [← hname]
    exact hvis.not_deleted
  have hnothing : ¬ ReadableBelow serves v name → ∀ w, KeptBelow serves v w name :=
    fun hno w path buf m r hbelow hread => absurd ⟨path, buf, m, r, hbelow, hread⟩ hno
  constructor
  · intro data v' hok
    refine ⟨?_, fun hno => hnothing hno v'⟩
    rintro hkept ⟨path, buf, m, r, hbelow, hread⟩
    have hafter := hkept path buf m r hbelow hread
    rw [openRead, open_below_of_write hhead hok hbelow] at hafter
    cases hafter
  · intro hv hsmall hfirst
    refine ⟨?_, fun hno data => hnothing hno _⟩
    intro hkept hbelow
    obtain ⟨hroot, ent, want, found, hent, hfind⟩ := exists_find_below hbelow
    have hlookup := hent
    rw [findEntryInDir_root hroot, Except.ok.injEq, Option.map_eq_some_iff] at hlookup
    obtain ⟨i, hi, rfl⟩ := hlookup
    obtain ⟨hvis', hname', _⟩ := findFrom_zero_eq_some.mp hi
    obtain rfl := hv.unique_names i e hvis' hvis (hname'.trans hname.symm)
    have hscan : (scanSlots v name).1 = some i := by rw [scanSlots_fst, hi]
    have hslot : chooseSlot v name = some i := by simp [chooseSlot, hscan]
    obtain ⟨r, hread, _⟩ := bind_eq_ok.mp hfind
    obtain ⟨cs, hwalk⟩ := walk_of_readDirectory hfirst hread
    have hfrees : FreesInside v name := by
      rintro c ⟨i', hi', rfl⟩
      rw [hscan, Option.some.injEq] at hi'
      rw [← hi']
      exact not_leavesFat_of_walk hwalk
    obtain ⟨fat, hfreed⟩ := freesInside_iff.mp hfrees
    obtain ⟨path, buf, m, r, hpath, hread⟩ := hbelow
    have hafter := hkept (fun _ => 0) path buf m r hpath hread
    rcases loop_cases (fun _ => 0) (le_trans hsmall (by decide)) hroot hslot hfreed with
      ⟨u, new, hpanic, hcall⟩ | ⟨v', new, hok, hcall⟩
    · rw [diskAfter, hpanic] at hafter
      obtain ⟨_, ent', want', found', hent', hfind'⟩ :=
        exists_find_below ⟨path, buf, m, r, hpath, hafter⟩
      have hsame : findEntryInDir serves (remounted v u.device.disk) 0
          (format83 name.bytes) = findEntryInDir serves v 0 (format83 name.bytes) :=
        findEntryInDir_root_agree (v := v) (w := remounted v u.device.disk) rfl
          (fun x hx => hcall.before_data
            (v.geom.dataAddr_eq ▸ Nat.add_lt_add_left hx _)) _
      rw [lastVolume, hsame, hent, Except.ok.injEq, Option.some.injEq] at hent'
      subst hent'
      exact hcall.find_none hv.synced ⟨i, hscan, rfl⟩ hfirst hwalk _ _ hfind'
    · obtain ⟨slot, first, _, hwritten⟩ := rootWritten_of_ok hok
      have hroot' : RootWritten v (remounted v v'.device.disk) name first size slot := by
        refine ⟨rfl, hwritten.slot_spec, fun x hx => ?_⟩
        rw [← hwritten.root x hx, rootBytes, rootBytes, hwritten.geom]
        rfl
      rw [diskAfter, hok, lastVolume, openRead, hroot'.open_below hhead hroot hpath]
        at hafter
      cases hafter

end Loss

section Samples

-- the evaluations below go byte by byte through a cluster of 512 bytes
set_option maxRecDepth 2048

/-- `dir`. -/
def directoryPath : CString := ⟨[0x64, 0x69, 0x72], by decide⟩

/-- The empty directory of the sample volume: nothing is readable below it. -/
theorem not_readableBelow_sample :
    ¬ ReadableBelow (fun _ => true) sampleVolume directoryPath := by
  have hfind : findEntryInDir (fun _ => true) sampleVolume 0
      (format83 directoryPath.bytes) =
        .ok (some ⟨format83 directoryPath.bytes, attrDirectory, 0, 3, 0⟩) :=
    toOption_eq_some.mp (by decide)
  have hwalk : (readDirectory (fun _ => true) sampleVolume 3).toOption.any
      (fun r => firstByte r.1 0 = 0) = true := by
    decide
  obtain ⟨r, hread, hzero⟩ := any_toOption.mp hwalk
  refine not_readableBelow_of_empty hfind (fun want => ?_)
  have hnone : findFrom r.1 want r.2 0 = none := by
    rw [findFrom_zero_eq_none]
    intro e hvis
    exact absurd (of_decide_eq_true hzero) (hvis.not_ended 0 (Nat.zero_le e))
  show findEntryInDir (fun _ => true) sampleVolume 3 want = .ok none
  rw [findEntryInDir, hread, ok_bind, hnone]
  rfl

/-- `longname/x`. -/
def belowPath : CString :=
  ⟨[0x6C, 0x6F, 0x6E, 0x67, 0x6E, 0x61, 0x6D, 0x65, 0x2F, 0x78], by decide⟩

/-- The contents of `LONGNAME`. -/
theorem dirContents_tree :
    dirContents treeVolume 2 = some (clusterBytes treeVolume [2], 16) := by
  have hwalk : (walkChain treeVolume 2).toOption = some [2] := by decide
  rw [dirContents, if_neg (by decide), hwalk]
  rfl

/-- The only entry of the root. -/
theorem entryOf_tree_root
    (h : EntryOf treeVolume 0 e ent) :
    e = 0 ∧ ent = ⟨format83 treeName.bytes, attrDirectory, 0, 2, 0⟩ := by
  obtain ⟨hvis, rfl, _⟩ := entryOf_root_iff.mp h
  obtain rfl := eq_zero_of_visible (by decide) hvis
  exact ⟨rfl, by decide⟩

/-- The only entry of `LONGNAME`. -/
theorem entryOf_tree_sub
    (h : EntryOf treeVolume 2 e ent) :
    e = 0 ∧ ent = ⟨format83 [0x78], attrArchive, 0, 3, 1⟩ := by
  obtain ⟨⟨buf, count, hbuf, hvis, rfl⟩, _⟩ := h
  rw [dirContents_tree, Option.some.injEq, Prod.mk.injEq] at hbuf
  obtain ⟨rfl, rfl⟩ := hbuf
  obtain rfl := eq_zero_of_visible (by decide) hvis
  exact ⟨rfl, by decide⟩

theorem reachDir_tree
    (h : ReachDir treeVolume d) : d = 0 ∨ d = 2 := by
  induction h with
  | root =>
      exact Or.inl rfl
  | sub _ hentry hdir ih =>
      rcases ih with rfl | rfl
      · obtain ⟨_, rfl⟩ := entryOf_tree_root hentry
        exact Or.inr rfl
      · obtain ⟨_, rfl⟩ := entryOf_tree_sub hentry
        exact absurd hdir (by decide)

/-- The two entries of the tree. -/
theorem treeEntry_tree
    (h : TreeEntry treeVolume d e ent) :
    (d, e) = (0, 0) ∧ ent = ⟨format83 treeName.bytes, attrDirectory, 0, 2, 0⟩ ∨
      (d, e) = (2, 0) ∧ ent = ⟨format83 [0x78], attrArchive, 0, 3, 1⟩ := by
  obtain ⟨hd, hentry⟩ := h
  rcases reachDir_tree hd with rfl | rfl
  · obtain ⟨rfl, hent⟩ := entryOf_tree_root hentry
    exact Or.inl ⟨rfl, hent⟩
  · obtain ⟨rfl, hent⟩ := entryOf_tree_sub hentry
    exact Or.inr ⟨rfl, hent⟩

/-- Both have one cluster. -/
theorem chainAt_tree
    (hc : c = 2 ∨ c = 3) : ChainAt treeVolume.geom treeVolume.fat c [c] := by
  have hmarks : ∀ c, c = 2 ∨ c = 3 → eocMin ≤ treeVolume.fat c := by
    rintro c (rfl | rfl) <;> decide
  have hentries : treeVolume.geom.fatCacheEntries = 256 := by decide
  refine ⟨rfl, ⟨by omega, by omega⟩, hmarks c hc⟩

/-- The directory owns cluster 2 and the file in it cluster 3. -/
theorem owns_tree : Owns treeVolume (0, 0) 2 ∧ Owns treeVolume (2, 0) 3 := by
  have hdir : findEntryInDir (fun _ => true) treeVolume 0 (format83 treeName.bytes) =
      .ok (some ⟨format83 treeName.bytes, attrDirectory, 0, 2, 0⟩) :=
    toOption_eq_some.mp (by decide)
  have hfile : findEntryInDir (fun _ => true) treeVolume 2 (format83 [0x78]) =
      .ok (some ⟨format83 [0x78], attrArchive, 0, 3, 1⟩) :=
    toOption_eq_some.mp (by decide)
  obtain ⟨_, e, _, _, hentry⟩ := entryOf_of_find hdir
  obtain ⟨_, e', _, _, hentry'⟩ := entryOf_of_find hfile
  have htree : TreeEntry treeVolume 0 e _ := ⟨ReachDir.root, hentry⟩
  have htree' : TreeEntry treeVolume 2 e' _ :=
    ⟨ReachDir.sub ReachDir.root hentry (by decide), hentry'⟩
  constructor
  · rcases treeEntry_tree htree with ⟨hp, _⟩ | ⟨hp, _⟩
    · obtain rfl := congrArg Prod.snd hp
      exact ⟨_, [2], htree, chainAt_tree (Or.inl rfl), by simp⟩
    · cases hp
  · rcases treeEntry_tree htree' with ⟨hp, _⟩ | ⟨hp, _⟩
    · cases hp
    · obtain rfl := congrArg Prod.snd hp
      exact ⟨_, [3], htree', chainAt_tree (Or.inr rfl), by simp⟩

/-- No one else owns a cluster. -/
theorem owner_tree
    {p : Nat × Nat} (h : Owns treeVolume p c) :
    p = (0, 0) ∧ c = 2 ∨ p = (2, 0) ∧ c = 3 := by
  have hstop : ∀ c, IsCluster treeVolume.geom c → ¬ eocMin ≤ c := by
    intro c hc
    have hentries : treeVolume.geom.fatCacheEntries = 256 := by decide
    have hlt := hc.2
    unfold eocMin
    omega
  obtain ⟨d, e⟩ := p
  obtain ⟨ent, cs, htree, hchain, hc⟩ := h
  rcases treeEntry_tree htree with ⟨hp, rfl⟩ | ⟨hp, rfl⟩
  · rw [hchain.unique hstop (chainAt_tree (Or.inl rfl))] at hc
    exact Or.inl ⟨hp, List.mem_singleton.mp hc⟩
  · rw [hchain.unique hstop (chainAt_tree (Or.inr rfl))] at hc
    exact Or.inr ⟨hp, List.mem_singleton.mp hc⟩

theorem wellFormed_tree : WellFormed treeVolume := by
  have hused : ∀ c, c < 256 → diskFat formattedGeometry treeDisk c ≠ freeMark →
      c < 2 ∨ c = 2 ∨ c = 3 := by
    decide
  have htail : ∀ e, e < 16 → e ≠ 0 → firstByte (rootBytes treeVolume) e = 0 := by
    decide
  refine ⟨?_, ?_, ?_, ?_⟩
  · intro c _
    simp only [treeVolume]
  · intro c hc hlink _
    have hmark := hused c hc.2 hlink
    have hcases : c = 2 ∨ c = 3 := hmark.resolve_left (Nat.not_lt.mpr hc.1)
    rcases hcases with rfl | rfl
    · exact ⟨(0, 0), owns_tree.1, fun p hp => by simpa using owner_tree hp⟩
    · exact ⟨(2, 0), owns_tree.2, fun p hp => by simpa using owner_tree hp⟩
  · intro e e' hvis hvis' _
    rw [eq_zero_of_visible (htail 1 (by decide) (by decide)) hvis,
      eq_zero_of_visible (htail 1 (by decide) (by decide)) hvis']
  · intro e e' _ hlt hcount
    exact htail e' hcount (by omega)

/-- `X` is readable. -/
theorem exists_read_tree :
    ∃ r, openRead (fun _ => true) treeVolume belowPath (fun _ => 0) 1 = .ok (some r) ∧
      r.1 = 1 ∧ r.2 0 = 0x41 := by
  have hbefore : (openRead (fun _ => true) treeVolume belowPath (fun _ => 0)
      1).toOption.any (fun r => r.any (fun r => r.1 = 1 ∧ r.2 0 = 0x41)) = true := by
    decide
  obtain ⟨result, hread, hresult⟩ := any_toOption.mp hbefore
  cases result with
  | none =>
      cases hresult
  | some r =>
      exact ⟨r, hread, by simpa using hresult⟩

/--
What is below the directory of the sample volume is kept, for there is nothing.  On the
tree volume a file of 254 clusters fills the disk, and `X` is lost by some data.
-/
theorem write_keeps_below_sample :
    (∃ v', fat16WriteFile (fun _ => true) sampleVolume directoryPath UInt8.ofNat 3 =
        .ok v' ∧ KeptBelow (fun _ => true) sampleVolume v' directoryPath) ∧
      ¬ ∀ data, KeptBelow (fun _ => true) treeVolume
        (remounted treeVolume
          (diskAfter (fun _ => true) treeVolume treeName data 130048)) treeName := by
  constructor
  · have hrun : (fat16WriteFile (fun _ => true) sampleVolume directoryPath UInt8.ofNat
        3).toOption.any (fun _ => true) = true := by
      decide
    obtain ⟨v', hok, _⟩ := any_toOption.mp hrun
    have hindex : findFrom (rootBytes sampleVolume) (format83 directoryPath.bytes) 16
        0 = some 3 := by
      decide
    obtain ⟨hvis, hname, _⟩ := findFrom_zero_eq_some.mp hindex
    exact ⟨v', hok, ((write_keeps_below_iff hvis hname).1 _ _ hok).mpr
      not_readableBelow_sample⟩
  · have hindex : findFrom (rootBytes treeVolume) (format83 treeName.bytes) 16 0 =
        some 0 := by
      decide
    obtain ⟨hvis, hname, _⟩ := findFrom_zero_eq_some.mp hindex
    obtain ⟨r, hread, _⟩ := exists_read_tree
    rw [(write_keeps_below_iff hvis hname).2 wellFormed_tree (by decide)
      (by decide)]
    exact not_not_intro ⟨belowPath, _, _, r, by decide, hread⟩

/--
**A directory is lost.**  The tree volume is well-formed and `LONGNAME` a directory
with the readable file `X`.  After `fat16_write_file("longname", ...)` there is no
path to `X` any more, and its cluster stays allocated.
-/
theorem directory_written_over :
    fat16Init (fun _ => true) treeDisk = .ok treeVolume ∧ WellFormed treeVolume ∧
      (readDirent (rootBytes treeVolume) 0).IsDirectory ∧
      (readDirent (rootBytes treeVolume) 0).name = format83 treeName.bytes ∧
      (∃ r, openRead (fun _ => true) treeVolume belowPath (fun _ => 0) 1 =
        .ok (some r) ∧ r.1 = 1 ∧ r.2 0 = 0x41) ∧
      ∃ v', fat16WriteFile (fun _ => true) treeVolume treeName UInt8.ofNat 3 =
          .ok v' ∧
        v'.fat 3 = eocMark ∧
        openRead (fun _ => true) v' belowPath (fun _ => 0) 1 = .ok none ∧
        ¬ KeptBelow (fun _ => true) treeVolume v' treeName := by
  have hrun : (fat16WriteFile (fun _ => true) treeVolume treeName UInt8.ofNat
      3).toOption.any (fun v' => v'.fat 3 = eocMark) = true := by
    decide
  obtain ⟨r, hread, hresult⟩ := exists_read_tree
  obtain ⟨v', hok, hlink⟩ := any_toOption.mp hrun
  have hafter : openRead (fun _ => true) v' belowPath (fun _ => 0) 1 = .ok none := by
    rw [openRead, open_below_of_write (by decide) hok (by decide)]
    rfl
  refine ⟨fat16Init_tree, wellFormed_tree, by decide, by decide,
    ⟨r, hread, hresult⟩, v', hok, of_decide_eq_true hlink, hafter, ?_⟩
  intro hkept
  have hsame := hkept belowPath (fun _ => 0) 1 r (by decide) hread
  rw [hafter] at hsame
  cases hsame

end Samples

end Fat16
end RebornOS
