import RebornOS.Fat16RoundTrip

/-!
# The copies of the FAT

A volume has `num_fats` copies of the FAT, one after the other.  The driver reads
and writes the first one only; `fat16_write_file` leaves the others as they
were.  So copies that were identical when the volume was mounted stay identical
exactly as long as the first FAT has its old contents; and it has, if no call allocates
or frees a cluster.
-/

namespace RebornOS
namespace Fat16

open ByteStore TableChain Fallible

variable {v w : Volume} {c i slot : Nat} {serves : Nat → Bool} {disk : Store}

/-- All copies of the FAT have the same bytes as the first one. -/
def MirrorsIdentical (g : Geometry) (disk : Store) : Prop :=
  ∀ k, k < g.numFats → ∀ i, i < g.fatBytes →
    disk (g.fatAddr + k * g.fatBytes + i) = disk (g.fatAddr + i)

/-- A call of `fat16_write_file`, with what `kmalloc` serves during it. -/
structure WriteCall where
  serves : Nat → Bool
  name : CString
  data : Nat → UInt8
  size : Nat

/-- A sequence of calls; a panic ends it. -/
def writeFiles : Volume → List WriteCall → Except (Panic × Volume) Volume
  | v, [] => .ok v
  | v, call :: calls => do
      let v ← fat16WriteFile call.serves v call.name call.data call.size
      writeFiles v calls

/-- The volume at the end, also when a call panicked. -/
def lastVolume : Except (Panic × Volume) Volume → Volume
  | .ok v => v
  | .error e => e.2

/-- The bytes behind the first FAT and before the root directory stay. -/
structure CopiesKept (v w : Volume) : Prop where
  geom : w.geom = v.geom
  bytes :
    ∀ x, v.geom.fatAddr + v.geom.fatBytes ≤ x → x < v.geom.rootAddr →
      w.device.disk x = v.device.disk x

section Frames

variable {u : Volume} {data : Nat → UInt8}

theorem CopiesKept.refl
    (v : Volume) : CopiesKept v v :=
  ⟨rfl, fun _ _ _ => rfl⟩

theorem CopiesKept.trans
    (h : CopiesKept v w) (h' : CopiesKept w u) : CopiesKept v u := by
  refine ⟨h'.geom.trans h.geom, ?_⟩
  intro x hlow hhigh
  have hbytes := h'.bytes x
  rw [h.geom] at hbytes
  rw [hbytes hlow hhigh, h.bytes x hlow hhigh]

/-- The writing loop, whether it finishes or not. -/
theorem copiesKept_writeClusters
    (data : Nat → UInt8) (n : Nat) (v : Volume) (p : Progress) :
    CopiesKept v (loopVolume (writeClusters data n v p)) := by
  obtain ⟨hgeom, hbytes⟩ := writeClusters_before_data data n v p
  have hdata := v.geom.dataAddr_eq
  exact ⟨hgeom, fun x _ hx => hbytes x (by omega)⟩

theorem copiesKept_writeBack
    {root : Store} (hslot : slot < v.geom.rootDirEntryCount) :
    CopiesKept v (writeBack v root slot) := by
  refine ⟨rfl, ?_⟩
  intro x hlow hhigh
  have hsector := v.geom.slot_sector hslot
  simp only at hsector
  rw [writeBack_outside_fat (Or.inr hlow)]
  unfold writeRootSector
  simp only
  exact writeSectors_outside (by rw [rootSector_addr]; omega)

/-- A whole call, whether it returns or panics. -/
theorem copiesKept_call
    (call : WriteCall) :
    CopiesKept v
      (lastVolume (fat16WriteFile call.serves v call.name call.data call.size)) := by
  rcases fat16WriteFile_cases call.serves v call.name call.data call.size with
    ⟨e, u, hpanic, hgeom, hdevice⟩ | ⟨slot, fat, hroot, hslot, hfreed⟩
  · rw [hpanic]
    exact ⟨hgeom, fun x _ _ => by rw [lastVolume, hdevice]⟩
  · rw [fat16WriteFile_eq hroot hslot hfreed]
    have hloop : CopiesKept v (loopVolume (writeClusters call.data
        (clustersNeeded v.geom call.size) { v with fat := fat }
        ⟨0, 0, 0, call.size⟩)) := by
      have hkept : CopiesKept v { v with fat := fat } := ⟨rfl, fun _ _ _ => rfl⟩
      exact hkept.trans (copiesKept_writeClusters call.data _ _ _)
    cases hrun : writeClusters call.data (clustersNeeded v.geom call.size)
        { v with fat := fat } ⟨0, 0, 0, call.size⟩ with
    | error e =>
        rwa [hrun] at hloop
    | ok r =>
        rw [hrun] at hloop
        refine hloop.trans (copiesKept_writeBack ?_)
        rw [hloop.geom]
        exact (slotSpec_of_chooseSlot hslot).lt

theorem copiesKept_calls
    (calls : List WriteCall) : CopiesKept v (lastVolume (writeFiles v calls)) := by
  induction calls generalizing v with
  | nil =>
      exact CopiesKept.refl v
  | cons call calls ih =>
      have hfirst := copiesKept_call (v := v) call
      rw [writeFiles]
      cases hcall : fat16WriteFile call.serves v call.name call.data call.size with
      | error e =>
          rw [hcall] at hfirst
          exact hfirst
      | ok w =>
          rw [hcall] at hfirst
          exact hfirst.trans ih

end Frames

section Mirrors

variable {disk' : Store} {g : Geometry}

/-- The entries of a FAT determine its bytes. -/
theorem fatBytes_of_entries
    (h : ∀ c, c < g.fatCacheEntries → diskFat g disk' c = diskFat g disk c)
    (hi : i < g.fatBytes) : disk' (g.fatAddr + i) = disk (g.fatAddr + i) := by
  have hsize := g.fatCacheEntries_bytes
  have hentry := h (i / 2) (by omega)
  have hlow := (disk' (g.fatAddr + 2 * (i / 2))).toNat_lt
  have hlow' := (disk (g.fatAddr + 2 * (i / 2))).toNat_lt
  change readLE disk' (g.fatAddr + 2 * (i / 2)) 2 =
    readLE disk (g.fatAddr + 2 * (i / 2)) 2 at hentry
  simp only [readLE] at hentry
  refine UInt8.toNat_inj.mp ?_
  rcases Nat.mod_two_eq_zero_or_one i with heven | hodd
  · have haddr : g.fatAddr + i = g.fatAddr + 2 * (i / 2) := by omega
    rw [haddr]
    omega
  · have haddr : g.fatAddr + i = g.fatAddr + 2 * (i / 2) + 1 := by omega
    rw [haddr]
    omega

theorem diskFat_of_bytes
    (h : ∀ i, i < g.fatBytes → disk' (g.fatAddr + i) = disk (g.fatAddr + i))
    (hc : c < g.fatCacheEntries) : diskFat g disk' c = diskFat g disk c := by
  have hsize := g.fatCacheEntries_bytes
  refine readLE_congr ?_
  intro x hx hx'
  change g.fatAddr + 2 * c ≤ x at hx
  change x < g.fatAddr + 2 * c + 2 at hx'
  have hbyte := h (x - g.fatAddr) (by omega)
  rwa [Nat.add_sub_cancel' (by omega)] at hbyte

/-- A byte of a later copy lies between the first FAT and the root directory. -/
theorem copy_between
    {k : Nat} (hpos : 0 < k) (hk : k < g.numFats) (hi : i < g.fatBytes) :
    g.fatAddr + g.fatBytes ≤ g.fatAddr + k * g.fatBytes + i ∧
      g.fatAddr + k * g.fatBytes + i < g.rootAddr := by
  have hfirst : g.fatBytes ≤ k * g.fatBytes := Nat.le_mul_of_pos_left _ hpos
  have hlast : (k + 1) * g.fatBytes ≤ g.numFats * g.fatBytes :=
    Nat.mul_le_mul_right _ hk
  have hroot : g.rootAddr = g.fatAddr + g.numFats * g.fatBytes := by
    unfold Geometry.rootAddr Geometry.fatAddr Geometry.sectorAddr Geometry.lba
      Geometry.rootDirStartSector Geometry.fatStartSector Geometry.fatBytes
    ring
  rw [Nat.add_mul, Nat.one_mul] at hlast
  omega

/-- Identical copies, when the later ones are as they were. -/
theorem mirrorsIdentical_iff
    (hkept : CopiesKept v w) (hsame : MirrorsIdentical v.geom v.device.disk) :
    MirrorsIdentical v.geom w.device.disk ↔
      v.geom.numFats = 1 ∨
        ∀ i, i < v.geom.fatBytes →
          w.device.disk (v.geom.fatAddr + i) =
            v.device.disk (v.geom.fatAddr + i) := by
  have hcopy : ∀ k i, 0 < k → k < v.geom.numFats → i < v.geom.fatBytes →
      w.device.disk (v.geom.fatAddr + k * v.geom.fatBytes + i) =
        v.device.disk (v.geom.fatAddr + i) := by
    intro k i hpos hk hi
    obtain ⟨hlow, hhigh⟩ := copy_between hpos hk hi
    rw [hkept.bytes _ hlow hhigh, hsame k hk i hi]
  constructor
  · intro hmirrors
    by_cases hone : v.geom.numFats = 1
    · exact Or.inl hone
    · right
      intro i hi
      have hpos := v.geom.numFats_pos
      rw [← hmirrors 1 (by omega) i hi, hcopy 1 i (by omega) (by omega) hi]
  · rintro (hone | hfirst)
    · intro k hk i _
      obtain rfl : k = 0 := by omega
      rw [Nat.zero_mul, Nat.add_zero]
    · intro k hk i hi
      rcases Nat.eq_zero_or_pos k with rfl | hpos
      · rw [Nat.zero_mul, Nat.add_zero]
      · rw [hcopy k i hpos hk hi, hfirst i hi]

/--
The copies are identical after a sequence of calls exactly if there is only one, or the
calls left every entry of the FAT as it was.
-/
theorem mirrors_identical_iff_fat_unchanged
    (hinit : fat16Init serves disk = .ok v)
    (hsame : MirrorsIdentical v.geom disk) (calls : List WriteCall) :
    MirrorsIdentical v.geom (lastVolume (writeFiles v calls)).device.disk ↔
      v.geom.numFats = 1 ∨
        ∀ c, c < v.geom.fatCacheEntries →
          diskFat v.geom (lastVolume (writeFiles v calls)).device.disk c =
            v.fat c := by
  obtain ⟨g, _, hmount⟩ := bind_eq_ok.mp hinit
  unfold mountFat at hmount
  split_ifs at hmount
  cases hmount
  rw [mirrorsIdentical_iff (copiesKept_calls calls) hsame]
  refine or_congr_right ?_
  constructor
  · intro hbytes c hc
    exact diskFat_of_bytes hbytes hc
  · intro hentries i hi
    exact fatBytes_of_entries hentries hi

end Mirrors

section Unchanged

variable {call : WriteCall}

/--
The call needs no cluster, and no slot of the root directory with its name, visible or
not, has a first cluster to be freed.
-/
def NoClusters (v : Volume) (call : WriteCall) : Prop :=
  clustersNeeded v.geom call.size = 0 ∧
    ∀ e, e < v.geom.rootDirEntryCount →
      (readDirent (rootBytes v) e).name = format83 call.name.bytes →
      ¬ (2 ≤ (readDirent (rootBytes v) e).firstCluster ∧
        (readDirent (rootBytes v) e).firstCluster < eocMin)

/-- Nothing is freed. -/
theorem NoClusters.freed
    (h : NoClusters v call) : freeExisting v (scanSlots v call.name).1 = .ok v.fat := by
  cases hfound : (scanSlots v call.name).1 with
  | none =>
      rfl
  | some e =>
      rw [scanSlots_fst] at hfound
      obtain ⟨hvis, hname, _⟩ := findFrom_zero_eq_some.mp hfound
      rw [freeExisting, freeChain, if_neg (h.2 e hvis.lt hname)]

/-- Such a call panics before it writes, or writes an entry and the FAT as it is. -/
theorem NoClusters.call_cases
    (h : NoClusters v call) :
    (∃ p, fat16WriteFile call.serves v call.name call.data call.size = .error p ∧
        p.2.geom = v.geom ∧ p.2.device = v.device) ∨
      ∃ w slot, fat16WriteFile call.serves v call.name call.data call.size = .ok w ∧
        w.fat = v.fat ∧ RootWritten v w call.name 0 call.size slot ∧
        ∀ i, i < v.geom.fatBytes →
          w.device.disk (v.geom.fatAddr + i) = fatImage v.fat i := by
  rcases fat16WriteFile_cases call.serves v call.name call.data call.size with
    ⟨e, u, hpanic, hgeom, hdevice⟩ | ⟨slot, fat, hroot, hslot, hfreed⟩
  · exact Or.inl ⟨(e, u), hpanic, hgeom, hdevice⟩
  · right
    have hloop : writeClusters call.data (clustersNeeded v.geom call.size)
        { v with fat := v.fat } ⟨0, 0, 0, call.size⟩ =
          .ok (v, ⟨0, 0, 0, call.size⟩) := by
      rw [h.1]
      rfl
    rw [fat16WriteFile_eq hroot hslot h.freed, hloop]
    exact ⟨_, slot, rfl, rfl, rootWritten_of_loop hslot hloop,
      fun i hi => writeBack_fat_image hi⟩

/-- The cache is written to the disk as it is. -/
theorem synced_of_image
    (hsync : Synced v) (hgeom : w.geom = v.geom) (hfat : w.fat = v.fat)
    (himage : ∀ i, i < v.geom.fatBytes →
      w.device.disk (v.geom.fatAddr + i) = fatImage v.fat i) : Synced w := by
  intro c hc
  have hsize := v.geom.fatCacheEntries_bytes
  rw [hgeom] at hc ⊢
  have hword : v.fat c < 2 ^ 16 := by
    rw [hsync c hc]
    exact readLE_lt _ _ 2
  rw [hfat]
  refine (readLE_fatImage ?_ hword).symm
  intro i hi
  rw [Nat.add_assoc]
  exact himage (2 * c + i) (by omega)

/-- The new entry has no cluster, so the later calls free none either. -/
theorem NoClusters.of_rootWritten
    {call' : WriteCall} (h : NoClusters v call')
    (hroot : RootWritten v w call.name 0 call.size slot) : NoClusters w call' := by
  refine ⟨by rw [hroot.geom]; exact h.1, ?_⟩
  intro e he hname
  rw [hroot.geom] at he
  by_cases hslot : e = slot
  · subst hslot
    rw [hroot.readDirent_slot]
    simp [Dirent.firstCluster]
  · rw [hroot.readDirent_other he hslot] at hname ⊢
    exact h.2 e he hname

/-- A whole sequence leaves the FAT alone. -/
theorem fat_unchanged_of_noClusters
    {calls : List WriteCall} (hsync : Synced v) (h : ∀ call ∈ calls, NoClusters v call)
    (hc : c < v.geom.fatCacheEntries) :
    diskFat v.geom (lastVolume (writeFiles v calls)).device.disk c = v.fat c := by
  induction calls generalizing v with
  | nil =>
      exact (hsync c hc).symm
  | cons call calls ih =>
      have hfirst := h call List.mem_cons_self
      rw [writeFiles]
      rcases hfirst.call_cases with
        ⟨p, hpanic, _, hdevice⟩ | ⟨w, slot, hok, hfat, hroot, himage⟩
      · rw [hpanic]
        show diskFat v.geom p.2.device.disk c = v.fat c
        rw [hdevice]
        exact (hsync c hc).symm
      · rw [hok, ok_bind, ← hroot.geom, ← hfat]
        refine ih (synced_of_image hsync hroot.geom hfat himage) ?_ (hroot.geom ▸ hc)
        intro call' hcall'
        exact (h call' (List.mem_cons_of_mem _ hcall')).of_rootWritten hroot

/--
**FAT copies.**  On a volume that was mounted with identical copies of the FAT, they are
identical after every sequence of calls of `fat16_write_file` if there is only one copy,
or no call of the sequence allocates or frees a cluster.
-/
theorem mirrors_identical_of_no_clusters
    (hinit : fat16Init serves disk = .ok v)
    (hsame : MirrorsIdentical v.geom disk) (calls : List WriteCall)
    (hcalls : v.geom.numFats = 1 ∨ ∀ call ∈ calls, NoClusters v call) :
    MirrorsIdentical v.geom (lastVolume (writeFiles v calls)).device.disk := by
  rw [mirrors_identical_iff_fat_unchanged hinit hsame]
  rcases hcalls with hone | hkeep
  · exact Or.inl hone
  · right
    intro c hc
    obtain ⟨g, _, hmount⟩ := bind_eq_ok.mp hinit
    unfold mountFat at hmount
    split_ifs at hmount
    cases hmount
    exact fat_unchanged_of_noClusters (synced_diskFat g ⟨disk, []⟩) hkeep hc

end Unchanged

section Instances

/-- A formatted disk like `formattedDisk`, but with two copies of the FAT. -/
def twoFatDisk : Store :=
  fun i => if i = 16 then 2 else formattedDisk i

/-- Its geometry. -/
def twoFatGeometry : Geometry :=
  geometryOf 0 (bootSector twoFatDisk 0) (by decide)

/-- The volume that mounting it gives. -/
def twoFatVolume : Volume :=
  ⟨twoFatGeometry, diskFat twoFatGeometry twoFatDisk, ⟨twoFatDisk, []⟩⟩

/-- Both copies are empty. -/
theorem mirrorsIdentical_twoFat : MirrorsIdentical twoFatVolume.geom twoFatDisk := by
  have hbytes : ∀ k, k < 2 → ∀ i, i < 512 →
      twoFatDisk (512 + k * 512 + i) = twoFatDisk (512 + i) := by
    decide +kernel
  exact hbytes

theorem fat16Init_twoFat : fat16Init (fun _ => true) twoFatDisk = .ok twoFatVolume :=
  fat16Init_of_boot (bootGeometry_of_bpb (by decide) (by decide)) (by decide)

/-- An empty file is created and written again: both copies stay as they are. -/
theorem mirrors_identical_two_fats :
    twoFatVolume.geom.numFats = 2 ∧
      MirrorsIdentical twoFatVolume.geom
        (lastVolume (writeFiles twoFatVolume
          [⟨fun _ => true, sampleName, UInt8.ofNat, 0⟩,
            ⟨fun _ => true, sampleName, UInt8.ofNat, 0⟩])).device.disk := by
  refine ⟨by decide, mirrors_identical_of_no_clusters fat16Init_twoFat
    mirrorsIdentical_twoFat _ (Or.inr ?_)⟩
  have hnames : ∀ e, e < 16 → (readDirent (rootBytes twoFatVolume) e).name ≠
      format83 sampleName.bytes := by
    decide
  simp only [List.mem_cons, List.not_mem_nil, or_false, or_self, forall_eq]
  exact ⟨by decide, fun e he hname => absurd hname (hnames e he)⟩

/-- One file of one byte, and the second copy of the FAT is stale. -/
theorem second_fat_stale :
    fat16Init (fun _ => true) twoFatDisk = .ok twoFatVolume ∧
      MirrorsIdentical twoFatVolume.geom twoFatDisk ∧
      ∃ w,
        writeFiles twoFatVolume
            [⟨fun _ => true, sampleName, fun _ => 0x11, 1⟩] = .ok w ∧
          ¬ MirrorsIdentical twoFatVolume.geom w.device.disk := by
  have heval :
      (writeFiles twoFatVolume
          [⟨fun _ => true, sampleName, fun _ => 0x11, 1⟩]).toOption.any (fun w =>
        w.device.disk (twoFatGeometry.fatAddr + 4) = 0xFF ∧
          w.device.disk (twoFatGeometry.fatAddr + twoFatGeometry.fatBytes + 4) =
            0) = true := by
    decide
  obtain ⟨w, hwrite, hstale⟩ := any_toOption.mp heval
  simp only [decide_eq_true_eq] at hstale
  refine ⟨fat16Init_twoFat, mirrorsIdentical_twoFat, w, hwrite, ?_⟩
  intro hmirrors
  have hcopy := hmirrors 1 (by decide) 4 (by decide)
  rw [Nat.one_mul] at hcopy
  rw [show twoFatVolume.geom = twoFatGeometry from rfl, hstale.1, hstale.2] at hcopy
  exact absurd hcopy (by decide)

end Instances

end Fat16
end RebornOS
