import RebornOS.Fat16WellFormed
import RebornOS.Fat16RoundTrip

/-!
# Paths

Opening and reading a file by its path, when only one entry of the root
directory and the clusters of a closed set have changed.  Every lookup on the way
has the same result as before, except for the written name; and that name does
not lead to a directory.
-/

namespace RebornOS
namespace Fat16

open ByteStore TableChain Fallible

variable {serves : Nat → Bool} {v : Volume} {d fuel : Nat} {path : CString}
  {leaf want : List UInt8}

section Paths

/-- The position of the entry that a path names: its directory and index. -/
def resolveEntry (serves : Nat → Bool) (v : Volume) (path : CString) :
    Except Panic (Option (Nat × Nat)) := do
  match ← resolveParentDir serves v path.bytes with
  | none => .ok none
  | some (dir, leaf) =>
      let r ← readDirectory serves v dir
      .ok ((findFrom r.1 (format83 leaf) r.2 0).map (fun e => (dir, e)))

/-- The path resolves to entry `e` of the directory at cluster `d`. -/
def ResolvesTo
    (serves : Nat → Bool) (v : Volume) (path : CString) (d e : Nat) : Prop :=
  resolveEntry serves v path = .ok (some (d, e))

/-- `fat16_open` followed by `fat16_read`. -/
def openRead
    (serves : Nat → Bool) (v : Volume) (path : CString) (buf : Store) (m : Nat) :
    Except Panic (Option (Nat × Store)) := do
  match ← fat16Open serves v path with
  | none => .ok none
  | some file =>
      let r ← fat16Read serves v file buf m
      .ok (some r)

/-- A root directory that cannot be read. -/
theorem findEntryInDir_root_panic
    (want : List UInt8) (hroot : ¬ kmallocOk serves v.geom.rootDirBytes) :
    findEntryInDir serves v 0 want = .error .rootAlloc := by
  have hread : readRootDir serves v = .error .rootAlloc := if_neg hroot
  rw [findEntryInDir, readDirectory, if_pos rfl, hread]
  rfl

/-- One round of `resolve_parent_dir` after its lookup. -/
def descend (serves : Nat → Bool) (v : Volume) (fuel : Nat) (rest : List UInt8) :
    Option Dirent → Except Panic (Option (Nat × List UInt8))
  | none => .ok none
  | some entry =>
      if entry.IsDirectory then
        resolveFrom serves v fuel entry.firstCluster rest
      else
        .ok none

theorem resolveFrom_succ
    {path : List UInt8} (hrest : pathRest path ≠ []) :
    resolveFrom serves v (fuel + 1) d path =
      findEntryInDir serves v d (format83 (component path)) >>=
        descend serves v fuel (pathRest path) := by
  rw [resolveFrom, if_neg hrest]
  congr 1

/-- A file ends the resolution. -/
theorem descend_file
    {rest : List UInt8} {ent : Dirent} (hdir : ¬ ent.IsDirectory) :
    descend serves v fuel rest (some ent) = .ok none :=
  if_neg hdir

/-- A resolved directory can be reached from the root. -/
theorem reach_of_resolveFrom
    {d' : Nat} {path : List UInt8} (hd : ReachDir v d)
    (hresolve : resolveFrom serves v fuel d path = .ok (some (d', leaf))) :
    ReachDir v d' := by
  induction fuel generalizing d path with
  | zero =>
      cases hresolve
  | succ fuel ih =>
      by_cases hlast : pathRest path = []
      · rw [resolveFrom, if_pos hlast] at hresolve
        cases hresolve
        exact hd
      · rw [resolveFrom_succ hlast] at hresolve
        obtain ⟨entry, hfind, hrest⟩ := bind_eq_ok.mp hresolve
        cases entry with
        | none =>
            cases hrest
        | some ent =>
            obtain ⟨_, e, _, _, hentry⟩ := entryOf_of_find hfind
            by_cases hdir : ent.IsDirectory
            · rw [descend, if_pos hdir] at hrest
              exact ih (ReachDir.sub hd hentry hdir) hrest
            · rw [descend_file hdir] at hrest
              cases hrest

/-- The position of a path whose last lookup succeeds. -/
theorem resolvesTo_of_lookup
    {e : Nat} {r : Store × Nat}
    (hparent : resolveParentDir serves v path.bytes = .ok (some (d, leaf)))
    (hread : readDirectory serves v d = .ok r)
    (hfind : findFrom r.1 (format83 leaf) r.2 0 = some e) :
    ResolvesTo serves v path d e := by
  rw [ResolvesTo, resolveEntry, hparent]
  show (readDirectory serves v d >>= fun r =>
    Except.ok ((findFrom r.1 (format83 leaf) r.2 0).map (fun e => (d, e)))) = _
  rw [hread]
  show Except.ok ((findFrom r.1 (format83 leaf) r.2 0).map (fun e => (d, e))) = _
  rw [hfind]
  rfl

/-- `fat16_open` after its path was resolved. -/
theorem fat16Open_of_parent
    (hparent : resolveParentDir serves v path.bytes = .ok (some (d, leaf))) :
    fat16Open serves v path =
      findEntryInDir serves v d (format83 leaf) >>= fun entry =>
        .ok (entry.map (fun d => ⟨d.firstCluster, d.fileSize⟩)) := by
  rw [fat16Open, hparent]
  rfl

/-- The entry that a path opens, and its position. -/
theorem entry_of_open
    {file : File} (hopen : fat16Open serves v path = .ok (some file)) :
    ∃ d e ent, ResolvesTo serves v path d e ∧ TreeEntry v d e ent ∧
      file = ⟨ent.firstCluster, ent.fileSize⟩ := by
  obtain ⟨result, hres, hrest⟩ := bind_eq_ok.mp hopen
  cases result with
  | none =>
      cases hrest
  | some place =>
      obtain ⟨d, leaf⟩ := place
      obtain ⟨entry, hfound, hfile⟩ := bind_eq_ok.mp hrest
      simp only [Except.ok.injEq, Option.map_eq_some_iff] at hfile
      obtain ⟨ent, rfl, rfl⟩ := hfile
      obtain ⟨r, e, hread, hindex, hentry⟩ := entryOf_of_find hfound
      exact ⟨d, e, ent, resolvesTo_of_lookup hres hread hindex,
        ⟨reach_of_resolveFrom ReachDir.root hres, hentry⟩, rfl⟩

end Paths

/-- A lookup that returns, and not with a directory. -/
def NotDirectory (r : Except Panic (Option Dirent)) : Prop :=
  ∃ entry, r = .ok entry ∧ ∀ ent, entry = some ent → ¬ ent.IsDirectory

section RootLookups

variable {w : Volume} {name : CString} {first size slot : Nat}

section

variable (h : RootWritten v w name first size slot)
include h

/-- Root entries other than the slot are visible exactly if they were. -/
theorem RootWritten.visible_iff
    (hv : WellFormed v) {e : Nat} (hne : e ≠ slot) :
    Visible (rootBytes w) v.geom.rootDirEntryCount e ↔
      Visible (rootBytes v) v.geom.rootDirEntryCount e :=
  h.visible_other hne
    (fun hlt hcount hzero => hv.zero_tail slot e hzero hlt hcount)

/-- The written entry is not a directory. -/
theorem RootWritten.slot_not_directory :
    ¬ (readDirent (rootBytes w) slot).IsDirectory := by
  rw [h.readDirent_slot]
  show ¬ (attrArchive &&& attrDirectory ≠ 0)
  decide

/-- Searching the root for another name finds the same entry as before. -/
theorem RootWritten.findFrom_other
    (hv : WellFormed v) (hwant : want ≠ format83 name.bytes) :
    findFrom (rootBytes w) want v.geom.rootDirEntryCount 0 =
        findFrom (rootBytes v) want v.geom.rootDirEntryCount 0 ∧
      findFrom (rootBytes v) want v.geom.rootDirEntryCount 0 ≠ some slot := by
  have hslot : ∀ i, Visible (rootBytes v) v.geom.rootDirEntryCount i →
      (readDirent (rootBytes v) i).name = want → i ≠ slot := by
    rintro i hvis hname rfl
    exact hwant (hname ▸ (h.slot_spec.found_of_visible hvis).2)
  have hslot' : ∀ i, Visible (rootBytes w) v.geom.rootDirEntryCount i →
      (readDirent (rootBytes w) i).name = want → i ≠ slot := by
    rintro i hvis hname rfl
    rw [h.readDirent_slot] at hname
    exact hwant hname.symm
  -- the visible entries of this name are the same on both sides
  have hsame : ∀ i,
      (Visible (rootBytes w) v.geom.rootDirEntryCount i ∧
          (readDirent (rootBytes w) i).name = want) ↔
        (Visible (rootBytes v) v.geom.rootDirEntryCount i ∧
          (readDirent (rootBytes v) i).name = want) := by
    intro i
    constructor
    · rintro ⟨hvis, hname⟩
      have hi := hslot' i hvis hname
      rw [h.readDirent_other hvis.lt hi] at hname
      exact ⟨(h.visible_iff hv hi).mp hvis, hname⟩
    · rintro ⟨hvis, hname⟩
      have hi := hslot i hvis hname
      rw [← h.readDirent_other hvis.lt hi] at hname
      exact ⟨(h.visible_iff hv hi).mpr hvis, hname⟩
  constructor
  · cases hfind : findFrom (rootBytes v) want v.geom.rootDirEntryCount 0 with
    | none =>
        rw [findFrom_zero_eq_none] at hfind ⊢
        intro j hvis hname
        obtain ⟨hvis, hname⟩ := (hsame j).mp ⟨hvis, hname⟩
        exact hfind j hvis hname
    | some i =>
        rw [findFrom_zero_eq_some] at hfind ⊢
        obtain ⟨hvis, hname, hfirst⟩ := hfind
        obtain ⟨hvis', hname'⟩ := (hsame i).mpr ⟨hvis, hname⟩
        refine ⟨hvis', hname', ?_⟩
        intro j hj hvj hnj
        obtain ⟨hvj, hnj⟩ := (hsame j).mp ⟨hvj, hnj⟩
        exact hfirst j hj hvj hnj
  · intro hfind
    obtain ⟨hvis, hname, _⟩ := findFrom_zero_eq_some.mp hfind
    exact hslot slot hvis hname rfl

/-- Looking another name up in the root. -/
theorem RootWritten.findEntryInDir_other
    (hv : WellFormed v) (hwant : want ≠ format83 name.bytes) :
    findEntryInDir serves w 0 want = findEntryInDir serves v 0 want := by
  by_cases hroot : kmallocOk serves v.geom.rootDirBytes
  · obtain ⟨hfind, hslot⟩ := h.findFrom_other hv hwant
    rw [findEntryInDir_root hroot, findEntryInDir_root (by rwa [h.geom]), h.geom, hfind]
    cases hfound : findFrom (rootBytes v) want v.geom.rootDirEntryCount 0 with
    | none =>
        rfl
    | some i =>
        have hi : i ≠ slot := fun heq => hslot (by rw [hfound, heq])
        have hlt := (findFrom_zero_eq_some.mp hfound).1.lt
        rw [Option.map_some, Option.map_some, h.readDirent_other hlt hi]
  · rw [findEntryInDir_root_panic _ hroot,
      findEntryInDir_root_panic _ (by rwa [h.geom])]

end

/-- A lookup in a root directory whose entries of the name are no directories. -/
theorem notDirectory_of_root
    (hroot : kmallocOk serves v.geom.rootDirBytes)
    (hdir : NoDirectory v want) : NotDirectory (findEntryInDir serves v 0 want) := by
  refine ⟨_, findEntryInDir_root hroot want, ?_⟩
  intro ent hent
  obtain ⟨e, hfind, rfl⟩ := Option.map_eq_some_iff.mp hent
  obtain ⟨hvis, hname, _⟩ := findFrom_zero_eq_some.mp hfind
  exact hdir e hvis hname

/-- Lookups in the root before and after the entry was written. -/
theorem RootWritten.lookup
    (h : RootWritten v w name first size slot) (hv : WellFormed v)
    (hdir : NoDirectory v (format83 name.bytes))
    (serves : Nat → Bool) (want : List UInt8) :
    findEntryInDir serves w 0 want = findEntryInDir serves v 0 want ∨
      (want = format83 name.bytes ∧
        NotDirectory (findEntryInDir serves w 0 want) ∧
        NotDirectory (findEntryInDir serves v 0 want)) := by
  by_cases hwant : want = format83 name.bytes
  · subst hwant
    by_cases hroot : kmallocOk serves v.geom.rootDirBytes
    · refine Or.inr ⟨rfl, notDirectory_of_root (by rwa [h.geom]) ?_,
        notDirectory_of_root hroot hdir⟩
      intro e hvis hname
      rw [h.geom] at hvis
      by_cases he : e = slot
      · rw [he]
        exact h.slot_not_directory
      · rw [h.readDirent_other hvis.lt he] at hname ⊢
        exact hdir e ((h.visible_iff hv he).mp hvis) hname
    · left
      rw [findEntryInDir_root_panic _ hroot,
        findEntryInDir_root_panic _ (by rwa [h.geom])]
  · exact Or.inl (h.findEntryInDir_other hv hwant)

end RootLookups

/--
What paths can see of a change: nothing in a closed set of clusters, which holds
all directories, and in the root only files under one name.
-/
structure PathFrame
    (v w : Volume) (name : CString) (S : Set Nat) : Prop where
  agree : AgreeOnClusters v w S
  reach : ∀ d, ReachDir v d → d ∈ S
  lookup :
    ∀ serves want,
      findEntryInDir serves w 0 want = findEntryInDir serves v 0 want ∨
        (want = format83 name.bytes ∧
          NotDirectory (findEntryInDir serves w 0 want) ∧
          NotDirectory (findEntryInDir serves v 0 want))

section PathFrames

variable {w : Volume} {name : CString} {S : Set Nat}

/-- A resolution that meets no directory ends. -/
theorem descend_of_notDirectory
    {r : Except Panic (Option Dirent)} {rest : List UInt8} (h : NotDirectory r) :
    r >>= descend serves v fuel rest = .ok none := by
  obtain ⟨entry, rfl, hdir⟩ := h
  cases entry with
  | none =>
      rfl
  | some ent =>
      exact descend_file (hdir ent rfl)

/-- The directory part of a path resolves as before. -/
theorem PathFrame.resolveFrom_eq
    (h : PathFrame v w name S) {path : List UInt8} (hd : ReachDir v d) :
    resolveFrom serves w fuel d path = resolveFrom serves v fuel d path := by
  induction fuel generalizing d path with
  | zero =>
      rfl
  | succ fuel ih =>
      by_cases hlast : pathRest path = []
      · rw [resolveFrom, resolveFrom, if_pos hlast, if_pos hlast]
      · rw [resolveFrom_succ hlast, resolveFrom_succ hlast]
        have hcases : findEntryInDir serves w d (format83 (component path)) =
              findEntryInDir serves v d (format83 (component path)) ∨
            (NotDirectory (findEntryInDir serves w d (format83 (component path))) ∧
              NotDirectory
                (findEntryInDir serves v d (format83 (component path)))) := by
          by_cases hzero : d = 0
          · subst hzero
            exact (h.lookup serves _).imp_right And.right
          · exact Or.inl (h.agree.findEntryInDir_eq _ (h.reach d hd) hzero)
        rcases hcases with hequal | ⟨hafter, hbefore⟩
        · rw [hequal]
          cases hfind : findEntryInDir serves v d (format83 (component path)) with
          | error p =>
              rfl
          | ok entry =>
              cases entry with
              | none =>
                  rfl
              | some ent =>
                  show descend serves w fuel _ (some ent) =
                    descend serves v fuel _ (some ent)
                  by_cases hdir : ent.IsDirectory
                  · obtain ⟨_, e, _, _, hentry⟩ := entryOf_of_find hfind
                    rw [descend, descend, if_pos hdir, if_pos hdir,
                      ih (ReachDir.sub hd hentry hdir)]
                  · rw [descend_file hdir, descend_file hdir]
        · rw [descend_of_notDirectory hafter, descend_of_notDirectory hbefore]

/-- Opening a path whose last lookup has the same result as before. -/
theorem PathFrame.fat16Open_eq
    (h : PathFrame v w name S)
    (hleaf : ∀ leaf, resolveParentDir serves v path.bytes = .ok (some (0, leaf)) →
      findEntryInDir serves w 0 (format83 leaf) =
        findEntryInDir serves v 0 (format83 leaf)) :
    fat16Open serves w path = fat16Open serves v path := by
  have hparent : resolveParentDir serves w path.bytes =
      resolveParentDir serves v path.bytes :=
    h.resolveFrom_eq ReachDir.root
  cases hres : resolveParentDir serves v path.bytes with
  | error p =>
      simp only [fat16Open, hparent, hres, bind, Except.bind]
  | ok result =>
      cases result with
      | none =>
          simp only [fat16Open, hparent, hres, bind, Except.bind]
      | some place =>
          obtain ⟨d, leaf⟩ := place
          have hd : ReachDir v d := reach_of_resolveFrom ReachDir.root hres
          have hfind : findEntryInDir serves w d (format83 leaf) =
              findEntryInDir serves v d (format83 leaf) := by
            by_cases hzero : d = 0
            · subst hzero
              exact hleaf leaf hres
            · exact h.agree.findEntryInDir_eq _ (h.reach d hd) hzero
          rw [fat16Open_of_parent (hparent.trans hres), fat16Open_of_parent hres, hfind]

/-- Opening and reading such a path, when its file lies in the closed set. -/
theorem PathFrame.openRead_eq
    (h : PathFrame v w name S) (buf : Store) (m : Nat)
    (hleaf : ∀ leaf, resolveParentDir serves v path.bytes = .ok (some (0, leaf)) →
      findEntryInDir serves w 0 (format83 leaf) =
        findEntryInDir serves v 0 (format83 leaf))
    (hfile : ∀ file, fat16Open serves v path = .ok (some file) →
      file.firstCluster ∈ S) :
    openRead serves w path buf m = openRead serves v path buf m := by
  have hopen' := h.fat16Open_eq hleaf
  cases hopen : fat16Open serves v path with
  | error p =>
      simp only [openRead, hopen', hopen, bind, Except.bind]
  | ok result =>
      cases result with
      | none =>
          simp only [openRead, hopen', hopen, bind, Except.bind]
      | some file =>
          have hread : fat16Read serves w file buf m =
              fat16Read serves v file buf m :=
            h.agree.fat16Read_eq buf m (hfile file hopen)
          simp only [openRead, hopen', hopen, bind, Except.bind, hread]

end PathFrames

end Fat16
end RebornOS
