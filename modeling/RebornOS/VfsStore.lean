import RebornOS.Fat16CrashIsolation
import RebornOS.Vfs

/-!
# The file system as a store

Every function of `kernel/src/vfs.c` holds `fat16_vfs_lock` around its whole work, so
that the calls of all cores are one sequence.  On a complete volume the root directory
is then a store from short names to contents.

What the driver can store is said by `Storable`: a valid short name that is not a
directory's and does not start with the mark of a deleted entry, and a size whose
cluster count does not overflow.
-/

namespace RebornOS
namespace Vfs

open ByteStore Fat16 LabeledRun Function Fallible

variable {base v w : Volume} {name path : CString} {size slot : Nat}
  {held serves : Nat → Bool} {data : Nat → UInt8} {new old : List Nat} {file : File}

section Calls

/-- The functions of `vfs.c`, with what the heap serves to each call. -/
inductive Call
  | readFile (serves held : Nat → Bool) (path : CString) (block : Store)
  | readFileInto (serves : Nat → Bool) (path : CString) (buf : Store) (maxLen : Nat)
  | writeFile (serves : Nat → Bool) (path : CString) (data : Nat → UInt8) (size : Nat)
  | listDir (serves : Nat → Bool) (path : CString) (buf : Store) (maxLen : Nat)

inductive Reply
  | block (content : Option (Store × Nat))
  | value (result : Int)
  | filled (result : Int) (buf : Store)

/-- A whole call: its result and the volume afterwards. -/
def vfsCall : Call → Volume → Except VfsPanic Reply × Volume
  | .readFile serves held path block, v =>
      ((vfsReadFile serves v held path block).map .block, v)
  | .readFileInto serves path buf maxLen, v =>
      ((vfsReadFileInto serves v path buf maxLen).map (fun r => .filled r.1 r.2), v)
  | .writeFile serves path data size, v =>
      match vfsWriteFile serves v path data size with
      | .ok r => (.ok (.value r.1), r.2)
      | .error e => (.error (.driver e.1), e.2)
  | .listDir serves path buf maxLen, v =>
      (((vfsListDir serves v path buf maxLen).map (fun r => Reply.filled r.1 r.2)).mapError
        .driver, v)

/-- The volume, and the calls that have returned with their results, the last one first. -/
structure Session where
  volume : Volume
  history : List (Call × Reply)

/-- A call, unless it panics. -/
def Session.step (s : Session) (c : Call) : Option Session :=
  match vfsCall c s.volume with
  | (.ok r, v) => some ⟨v, (c, r) :: s.history⟩
  | (.error _, _) => none

theorem Session.step_eq_some
    {s t : Session} {c : Call} (h : s.step c = some t) :
    ∃ r, vfsCall c s.volume = (.ok r, t.volume) ∧ t.history = (c, r) :: s.history := by
  unfold Session.step at h
  split at h
  case h_1 r v hcall =>
    cases h
    exact ⟨r, hcall, rfl⟩
  case h_2 => cases h

end Calls

variable {r : Reply} {older : List (Call × Reply)} {c : Call}

section Contents

structure Content where
  data : Nat → UInt8
  size : Nat

/-- The files that the calls have written, by short names. -/
def contents : List (Call × Reply) → List UInt8 → Option Content
  | [] => fun _ => none
  | (.writeFile _ path data size, _) :: older =>
      update (contents older) (format83 path.bytes) (some ⟨data, size⟩)
  | _ :: older => contents older

/-- A name without directories. -/
def Plain (path : CString) : Prop := 0x2F ∉ path.bytes ∧ path.bytes.length ≤ 12

/-- No directory of the root has the name. -/
def NoDirectory (v : Volume) (path : CString) : Prop :=
  Fat16.NoDirectory v (format83 path.bytes)

/-- A file that can be stored on the volume under its name. -/
structure Storable (v : Volume) (path : CString) (size : Nat) : Prop where
  valid : Valid83 path.bytes
  not_deleted : path.bytes.headD 0 ≠ 0xE5
  not_directory : NoDirectory v path
  size : size + v.geom.clusterSizeBytes ≤ 2 ^ 32

theorem Storable.short_not_deleted
    (h : Storable v path size) : (format83 path.bytes).headD 0 ≠ 0xE5 := by
  rw [h.valid.head]
  intro heq
  exact h.not_deleted ((upper_eq_iff (Or.inr (by decide))).mp heq)

/-- What reading a file of this content delivers. -/
def Content.read (c : Content) (buf : Store) (maxLen : Nat) : Nat × Store :=
  (min maxLen c.size, fun i => if i < min maxLen c.size then c.data i else buf i)

/--
The volume `v` holds the store: written names read as their contents, all others
as on the volume `base`.
-/
structure Represents (base : Volume) (files : List UInt8 → Option Content)
    (v : Volume) : Prop where
  complete : Complete v
  geom : v.geom = base.geom
  not_directory : ∀ path, NoDirectory base path → NoDirectory v path
  opened : ∀ path, Plain path → files (format83 path.bytes) = none →
    ∀ serves, fat16Open serves v path = fat16Open serves base path
  unwritten : ∀ path, Plain path → files (format83 path.bytes) = none →
    ∀ serves buf m, openRead serves v path buf m = openRead serves base path buf m
  written : ∀ path c, Plain path → files (format83 path.bytes) = some c →
    ∀ serves buf m r, openRead serves v path buf m = .ok r → r = some (c.read buf m)

end Contents

variable {files : List UInt8 → Option Content}

section Reading

variable {buf : Store} {m : Nat}

/-- `vfs_read_file_into` in terms of opening and reading. -/
theorem vfsReadFileInto_eq :
    vfsReadFileInto serves v path buf m =
      ((openRead serves v path buf m).mapError .driver).map (fun r =>
        match r with
        | none => (-1, buf)
        | some r => (Int.bmod r.1 (2 ^ 32), r.2)) := by
  unfold vfsReadFileInto openRead
  cases fat16Open serves v path with
  | error e =>
      rfl
  | ok file =>
      cases file with
      | none =>
          rfl
      | some file =>
          cases hread : fat16Read serves v file buf m with
          | error e => simp [Except.mapError, Except.map, ok_bind, hread]; rfl
          | ok r => simp [Except.mapError, Except.map, ok_bind, hread]

/-- Plain names of one short name open alike. -/
theorem fat16Open_congr
    (hpath : Plain path) (hname : Plain name)
    (hkey : format83 path.bytes = format83 name.bytes)
    (hroot : kmallocOk serves v.geom.rootDirBytes) :
    fat16Open serves v path = fat16Open serves v name := by
  rw [fat16Open_of_plain hroot hpath.1 hpath.2,
    fat16Open_of_plain hroot hname.1 hname.2, hkey]

/-- A plain name that opens, with or without a file, had its directory read. -/
theorem root_served_of_open
    {r : Option File} (hpath : Plain path) (hopen : fat16Open serves v path = .ok r) :
    kmallocOk serves v.geom.rootDirBytes := by
  by_contra hroot
  rw [fat16Open, resolveParentDir_of_plain hpath.1 hpath.2, ok_bind] at hopen
  simp only [findEntryInDir_root_panic _ hroot] at hopen
  cases hopen

/-- What is read of a file that was written. -/
theorem openRead_of_readsBack
    {r : Option (Nat × Store)} (hback : ∀ serves, kmallocOk serves v.geom.rootDirBytes →
      kmallocOk serves v.geom.clusterSizeBytes → ReadsBack serves v name data size)
    (hpath : Plain path) (hname : Plain name)
    (hkey : format83 path.bytes = format83 name.bytes)
    (hread : openRead serves v path buf m = .ok r) :
    r = some ((Content.mk data size).read buf m) := by
  obtain ⟨opened, hopen, hrest⟩ := bind_eq_ok.mp hread
  have hroot := root_served_of_open hpath hopen
  -- the lookup does not ask for a cluster buffer, so a heap that has one finds the file
  have hall : ∀ n, n ≠ 0 → kmallocOk (fun _ => true) n := fun n hn => ⟨hn, rfl⟩
  obtain ⟨file, hfile, _, _⟩ := hback (fun _ => true) (hall _ hroot.1)
    (hall _ (Nat.pos_iff_ne_zero.mp v.geom.clusterSizeBytes_pos)) name rfl
  have hsame : fat16Open serves v path = .ok (some file) := by
    rw [fat16Open_congr hpath hname hkey hroot,
      fat16Open_of_plain hroot hname.1 hname.2,
      ← fat16Open_of_plain (hall _ hroot.1) hname.1 hname.2, hfile]
  rw [hsame] at hopen
  cases hopen
  obtain ⟨res, hres, hr⟩ := bind_eq_ok.mp hrest
  cases hr
  have hcluster : kmallocOk serves v.geom.clusterSizeBytes := by
    by_contra hno
    rw [fat16Read, if_neg hno] at hres
    cases hres
  obtain ⟨file', hfile', _, hbytes⟩ := hback serves hroot hcluster name rfl
  rw [← fat16Open_congr hpath hname hkey hroot, hsame] at hfile'
  cases hfile'
  obtain ⟨buf', hbuf', hval⟩ := hbytes m buf
  rw [hres] at hbuf'
  cases hbuf'
  rw [Content.read, Option.some.injEq, Prod.mk.injEq]
  exact ⟨rfl, funext hval⟩

/-- A write leaves the plain names of other files alone. -/
theorem fat16Open_of_other
    (h : IntactCall v w name data size slot old new) (hpath : Plain path)
    (hkey : format83 path.bytes ≠ format83 name.bytes) :
    fat16Open serves w path = fat16Open serves v path := by
  rw [fat16Open_of_parent (resolveParentDir_of_plain hpath.1 hpath.2),
    fat16Open_of_parent (resolveParentDir_of_plain hpath.1 hpath.2)]
  by_cases hroot : kmallocOk serves v.geom.rootDirBytes
  · rw [h.effect.rootWritten.findEntryInDir_other h.intact.toWellFormed hkey]
  · rw [findEntryInDir_root_panic _ hroot,
      findEntryInDir_root_panic _ (by rwa [h.effect.geom])]

theorem openRead_of_other
    (h : IntactCall v w name data size slot old new) (hpath : Plain path)
    (hkey : format83 path.bytes ≠ format83 name.bytes) :
    openRead serves w path buf m = openRead serves v path buf m := by
  obtain ⟨hsame, hother⟩ :=
    h.effect.rootWritten.findFrom_other h.intact.toWellFormed hkey
  refine h.openRead_eq buf m ?_ ?_
  · intro hres
    exact hother (hres.find_root (resolveParentDir_of_plain hpath.1 hpath.2)).2
  · intro hres
    have hfound := (hres.find_root (resolveParentDir_of_plain hpath.1 hpath.2)).2
    rw [h.effect.geom, hsame] at hfound
    exact hother hfound

/-- A heap that serves everything opens it alike. -/
theorem fat16Open_served
    {r : Option File} (hpath : Plain path) (hopen : fat16Open serves v path = .ok r) :
    fat16Open (fun _ => true) v path = .ok r := by
  have hroot := root_served_of_open hpath hopen
  have hall : kmallocOk (fun _ => true) v.geom.rootDirBytes := ⟨hroot.1, rfl⟩
  rw [← hopen, fat16Open_of_plain hall hpath.1 hpath.2,
    fat16Open_of_plain hroot hpath.1 hpath.2]

theorem openRead_of_open
    (hopen : fat16Open serves v path = .ok (some file)) :
    openRead serves v path buf m = (fat16Read serves v file buf m).map some := by
  rw [openRead, hopen, ok_bind]
  show (fat16Read serves v file buf m >>= fun r => Except.ok (some r)) = _
  cases fat16Read serves v file buf m <;> rfl

/-- The heap matters to a read only for its cluster buffer. -/
theorem fat16Read_served
    (h : kmallocOk held v.geom.clusterSizeBytes) (buf : Store) (m : Nat) :
    fat16Read held v file buf m = fat16Read (fun _ => true) v file buf m := by
  rw [fat16Read, fat16Read, if_pos h, if_pos ⟨h.1, rfl⟩]

/-- A larger limit than the file's size is none. -/
theorem fat16Read_of_size_le
    (hm : file.size ≤ m) :
    fat16Read serves v file buf m = fat16Read serves v file buf file.size := by
  simp only [fat16Read, Nat.min_eq_left hm, Nat.min_self]

/-- What `vfs_read_file` returns of a plain name, as opening and reading. -/
theorem openRead_of_vfsReadFile
    {block : Store} {out : Option (Store × Nat)} (hpath : Plain path)
    (h : vfsReadFile serves v held path block = .ok out) :
    (out = none ∧ openRead (fun _ => true) v path block 0 = .ok none) ∨
      ∃ content n, out = some (content, n) ∧
        ∀ m, n ≤ m → openRead (fun _ => true) v path block m = .ok (some (n, content)) := by
  cases hopen : fat16Open serves v path with
  | error e =>
      simp [vfsReadFile, hopen, Except.mapError, bind, Except.bind] at h
  | ok found =>
      have hopen' := fat16Open_served hpath hopen
      cases found with
      | none =>
          left
          refine ⟨?_, by rw [openRead, hopen']; rfl⟩
          simp only [vfsReadFile, hopen, Except.mapError, ok_bind] at h
          exact (Except.ok.inj h).symm
      | some file =>
          right
          simp only [vfsReadFile, hopen, Except.mapError, ok_bind] at h
          split_ifs at h with hserved
          cases hread : fat16Read held v file block file.size with
          | error e =>
              rw [hread] at h
              cases h
          | ok r =>
              rw [hread] at h
              have hcluster : kmallocOk held v.geom.clusterSizeBytes := by
                by_contra hno
                rw [fat16Read, if_neg hno] at hread
                cases hread
              simp only [ok_bind] at h
              split_ifs at h with hcount
              cases h
              refine ⟨r.2, file.size, rfl, ?_⟩
              intro m hm
              rw [openRead_of_open hopen', fat16Read_of_size_le hm,
                ← fat16Read_served hcluster, hread]
              exact congrArg (fun n => Except.ok (some (n, r.2))) (not_not.mp hcount)

end Reading

section Sequence

/-- The first volume holds the empty store. -/
theorem Represents.refl
    (hv : Complete base) : Represents base (fun _ => none) base :=
  ⟨hv, rfl, fun _ h => h, fun _ _ _ _ => rfl, fun _ _ _ _ _ _ => rfl, by
    intro path c _ h
    cases h⟩

theorem NoDirectory.of_write
    (h : IntactCall v w name data size slot old new) (hdir : NoDirectory v path) :
    NoDirectory w path := by
  intro e hvis hname
  have hroot := h.effect.rootWritten
  rw [h.effect.geom] at hvis
  by_cases he : e = slot
  · rw [he]
    exact hroot.slot_not_directory
  · rw [hroot.readDirent_other hvis.lt he] at hname ⊢
    exact hdir e ((hroot.visible_iff h.intact.toWellFormed he).mp hvis) hname

/-- A write that returns updates the store. -/
theorem Represents.write
    (h : Represents base files v) (hsmall : base.geom.fatCacheEntries ≤ 0xFFF0)
    (hstore : Storable base name size)
    (hwrite : fat16WriteFile serves v name data size = .ok w) :
    Represents base (update files (format83 name.bytes) (some ⟨data, size⟩)) w := by
  obtain ⟨slot, old, new, _, hcall⟩ := intactCall_of_ok (by rwa [h.geom])
    h.complete.toIntact (h.not_directory name hstore.not_directory)
    hstore.short_not_deleted hwrite
  have hgeom := hcall.effect.geom
  have hother : ∀ path : CString,
      update files (format83 name.bytes) (some ⟨data, size⟩)
        (format83 path.bytes) = none →
      format83 path.bytes ≠ format83 name.bytes ∧ files (format83 path.bytes) = none := by
    intro path hnone
    have hkey : format83 path.bytes ≠ format83 name.bytes := by
      intro heq
      rw [heq, update_self] at hnone
      cases hnone
    rw [update_of_ne hkey] at hnone
    exact ⟨hkey, hnone⟩
  refine ⟨hcall.complete_after h.complete, hgeom.trans h.geom, ?_, ?_, ?_, ?_⟩
  · exact fun path hdir => (h.not_directory path hdir).of_write hcall
  · intro path hpath hnone serves
    obtain ⟨hkey, hnone⟩ := hother path hnone
    rw [fat16Open_of_other hcall hpath hkey, h.opened path hpath hnone]
  · intro path hpath hnone serves buf m
    obtain ⟨hkey, hnone⟩ := hother path hnone
    rw [openRead_of_other hcall hpath hkey, h.unwritten path hpath hnone]
  · intro path c hpath hsome serves buf m r hread
    by_cases hkey : format83 path.bytes = format83 name.bytes
    · rw [hkey, update_self, Option.some.injEq] at hsome
      subst hsome
      refine openRead_of_readsBack (fun serves hroot hbuf => ?_) hpath
        hstore.valid.plain hkey hread
      rw [hgeom] at hroot hbuf
      refine hcall.effect.readsBack (SameVolume.refl w) ?_ hstore.valid
        hstore.not_deleted (by rw [h.geom]; exact hstore.size) hroot hbuf
      rw [h.geom]
      exact le_trans hsmall (by decide)
    · rw [update_of_ne hkey] at hsome
      rw [openRead_of_other hcall hpath hkey] at hread
      exact h.written path c hpath hsome serves buf m r hread

/-- What one call does to the store. -/
theorem Represents.call
    (h : Represents base (contents older) v)
    (hsmall : base.geom.fatCacheEntries ≤ 0xFFF0)
    (hstore : ∀ serves path data size, c = .writeFile serves path data size →
      Storable base path size) (hcall : vfsCall c v = (.ok r, w)) :
    Represents base (contents ((c, r) :: older)) w := by
  cases c with
  | writeFile serves path data size =>
      rw [vfsCall] at hcall
      cases hresult : vfsWriteFile serves v path data size with
      | error e =>
          rw [hresult] at hcall
          cases (congrArg Prod.fst hcall)
      | ok res =>
          rw [hresult] at hcall
          cases hcall
          obtain ⟨w', hw', rfl⟩ := map_eq_ok.mp hresult
          exact h.write hsmall (hstore serves path data size rfl) hw'
  | _ =>
      cases (congrArg Prod.snd hcall : v = w)
      exact h

end Sequence

section Store

/--
What a read of a plain name returns after the calls `older`: the data that was
written last, or what the first volume holds.
-/
def ReadsStore (base : Volume) (older : List (Call × Reply)) : Call × Reply → Prop
  | (.readFile serves held path block, r) =>
      Plain path →
        match contents older (format83 path.bytes) with
        | some c => r = .block (some ((c.read block c.size).2, c.size))
        | none => ∃ out, vfsReadFile serves base held path block = .ok out ∧
            r = .block out
  | (.readFileInto serves path buf maxLen, r) =>
      Plain path →
        match contents older (format83 path.bytes) with
        | some c => r = .filled (Int.bmod (c.read buf maxLen).1 (2 ^ 32)) (c.read buf maxLen).2
        | none => ∃ out, vfsReadFileInto serves base path buf maxLen = .ok out ∧
            r = .filled out.1 out.2
  | _ => True

/-- Every read of the history is one of the store of its time. -/
def ReadsStores (base : Volume) : List (Call × Reply) → Prop
  | [] => True
  | e :: older => ReadsStore base older e ∧ ReadsStores base older

/-- `vfs_read_file` of a name that was not written. -/
theorem Represents.vfsReadFile_eq
    (h : Represents base files v) (hpath : Plain path)
    (hnone : files (format83 path.bytes) = none) (block : Store) :
    vfsReadFile serves v held path block = vfsReadFile serves base held path block := by
  have hopened := h.opened path hpath hnone
  unfold vfsReadFile
  rw [hopened serves]
  cases hopen : fat16Open serves base path with
  | error e =>
      rfl
  | ok found =>
      cases found with
      | none =>
          rfl
      | some file =>
          have hopen' := fat16Open_served hpath hopen
          have hread : fat16Read held v file block file.size =
              fat16Read held base file block file.size := by
            by_cases hcluster : kmallocOk held base.geom.clusterSizeBytes
            · have hsame := h.unwritten path hpath hnone (fun _ => true) block file.size
              rw [openRead_of_open ((hopened _).trans hopen'),
                openRead_of_open hopen'] at hsame
              rw [fat16Read_served hcluster, fat16Read_served (by rwa [h.geom])]
              exact map_some_injective hsame
            · rw [fat16Read, fat16Read, h.geom, if_neg hcluster, if_neg hcluster]
          simp only [Except.mapError, ok_bind, hread]

theorem Represents.readsStore
    (h : Represents base (contents older) v) (hcall : vfsCall c v = (.ok r, w)) :
    ReadsStore base older (c, r) := by
  cases c with
  | readFile serves held path block =>
      intro hpath
      obtain ⟨out, hout, rfl⟩ := map_eq_ok.mp (congrArg Prod.fst hcall)
      cases hfile : contents older (format83 path.bytes) with
      | none =>
          refine ⟨out, ?_, rfl⟩
          rw [← h.vfsReadFile_eq hpath hfile]
          exact hout
      | some c =>
          rcases openRead_of_vfsReadFile hpath hout with
            ⟨_, hread⟩ | ⟨content, n, rfl, hread⟩
          · cases h.written path c hpath hfile _ _ _ _ hread
          · -- a limit that is not below either size shows both
            have hboth := h.written path c hpath hfile _ _ _ _
              (hread (max n c.size) (le_max_left _ _))
            simp only [Content.read, Nat.min_eq_right (le_max_right _ _),
              Option.some.injEq, Prod.mk.injEq] at hboth
            obtain ⟨rfl, rfl⟩ := hboth
            simp [Content.read]
  | readFileInto serves path buf maxLen =>
      intro hpath
      obtain ⟨out, hout, rfl⟩ := map_eq_ok.mp (congrArg Prod.fst hcall)
      rw [vfsReadFileInto_eq] at hout
      cases hfile : contents older (format83 path.bytes) with
      | none =>
          refine ⟨out, ?_, rfl⟩
          rw [vfsReadFileInto_eq, ← h.unwritten path hpath hfile]
          exact hout
      | some c =>
          obtain ⟨q, hq, rfl⟩ := map_eq_ok.mp hout
          cases hread : openRead serves v path buf maxLen with
          | error e =>
              rw [hread] at hq
              cases hq
          | ok q' =>
              rw [hread] at hq
              cases hq
              rw [h.written path c hpath hfile serves buf maxLen _ hread]
  | _ =>
      trivial

/-- The invariant of a session. -/
structure Sound (base : Volume) (s : Session) : Prop where
  represents : Represents base (contents s.history) s.volume
  reads : ReadsStores base s.history

theorem Sound.step
    {s t : Session} (h : Sound base s) (hsmall : base.geom.fatCacheEntries ≤ 0xFFF0)
    (hstore : ∀ serves path data size, c = .writeFile serves path data size →
      Storable base path size) (hstep : s.step c = some t) : Sound base t := by
  obtain ⟨r, hcall, hhistory⟩ := Session.step_eq_some hstep
  constructor
  · rw [hhistory]
    exact h.represents.call hsmall hstore hcall
  · rw [hhistory]
    exact ⟨h.represents.readsStore hcall, h.reads⟩

/--
**A store.**  In every sequence of calls that return and whose writes can be stored, the
volume stays complete, and a read of a plain name returns what the last write to it
wrote, cut to the length asked for, or what the first volume holds.
-/
theorem vfs_store
    {calls : List Call} {s : Session}
    (hv : Complete base) (hsmall : base.geom.fatCacheEntries ≤ 0xFFF0)
    (hwrites : ∀ c, c ∈ calls → ∀ serves path data size,
      c = .writeFile serves path data size → Storable base path size)
    (hrun : runAll Session.step ⟨base, []⟩ calls = some s) :
    Complete s.volume ∧ ReadsStores base s.history := by
  have hstart : Sound base ⟨base, []⟩ := ⟨Represents.refl hv, trivial⟩
  have hsound : Sound base s :=
    runAll_invariant_of_forall (fun _ _ _ hs hc hstep => hs.step hsmall hc hstep) hstart
      hwrites hrun
  exact ⟨hsound.represents.complete, hsound.reads⟩

/-- Three bytes are written and read back in both ways. -/
theorem vfs_store_formatted :
    ∃ s : Session, runAll Session.step ⟨formattedVolume, []⟩
        [.writeFile (fun _ => true) sampleName UInt8.ofNat 3,
          .readFileInto (fun _ => true) sampleName (fun _ => 0) 8,
          .readFile (fun _ => true) (fun _ => true) sampleName (fun _ => 0)] = some s ∧
      Complete s.volume ∧ ReadsStores formattedVolume s.history := by
  have hsome : (runAll Session.step ⟨formattedVolume, []⟩
      [.writeFile (fun _ => true) sampleName UInt8.ofNat 3,
        .readFileInto (fun _ => true) sampleName (fun _ => 0) 8,
        .readFile (fun _ => true) (fun _ => true) sampleName
          (fun _ => 0)]).isSome = true := by
    decide
  obtain ⟨s, hrun⟩ := Option.isSome_iff_exists.mp hsome
  refine ⟨s, hrun, vfs_store complete_formatted (by decide) ?_ hrun⟩
  rintro c hc serves path data size rfl
  simp only [List.mem_cons, Call.writeFile.injEq, reduceCtorEq, or_false,
    List.not_mem_nil] at hc
  obtain ⟨_, rfl, rfl, rfl⟩ := hc
  refine ⟨valid83_sampleName, by decide, ?_, by decide⟩
  intro e hvis _ _
  exact hvis.not_ended 0 (Nat.zero_le e) formattedVolume_empty

end Store

end Vfs
end RebornOS
