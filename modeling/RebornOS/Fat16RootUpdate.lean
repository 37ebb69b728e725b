import RebornOS.Fat16Freeing
import RebornOS.Fat16Listing

/-!
# The root directory after a write

A successful `fat16_write_file` replaces one slot of the root directory.  Entries
before the slot and behind it are the same as before; what can change is where the
directory ends.  When the slot was the first unused one, it held the end mark, and
everything behind it comes back into view up to the next mark.
-/

namespace RebornOS
namespace Fat16

open ByteStore Fallible

variable {e n : Nat}

section Entries

variable {buf buf' : Store}

/-- The visible entries themselves. -/
def entriesFrom (buf : Store) (n e : Nat) : List Dirent :=
  (visibleFrom buf n e).map (readDirent buf)

@[simp] theorem entriesFrom_zero
    (e : Nat) : entriesFrom buf 0 e = [] := by
  rfl

theorem entriesFrom_ended
    (h : firstByte buf e = 0) : entriesFrom buf (n + 1) e = [] := by
  simp [entriesFrom, visibleFrom_ended h]

theorem entriesFrom_hidden
    (hend : firstByte buf e ≠ 0)
    (h : firstByte buf e = 0xE5 ∨ (readDirent buf e).Skipped) :
    entriesFrom buf (n + 1) e = entriesFrom buf n (e + 1) := by
  simp [entriesFrom, visibleFrom_hidden hend h]

theorem entriesFrom_shown
    (hend : firstByte buf e ≠ 0)
    (h : ¬ (firstByte buf e = 0xE5 ∨ (readDirent buf e).Skipped)) :
    entriesFrom buf (n + 1) e = readDirent buf e :: entriesFrom buf n (e + 1) := by
  simp [entriesFrom, visibleFrom_shown hend h]

/-- The entries before and from a slot that the directory reaches. -/
theorem entriesFrom_add
    (buf : Store) (k n : Nat) :
    ∀ e, (∀ j, e ≤ j → j < e + k → firstByte buf j ≠ 0) →
      entriesFrom buf (k + n) e =
        entriesFrom buf k e ++ entriesFrom buf n (e + k) := by
  induction k with
  | zero =>
      intro e _
      simp
  | succ k ih =>
      intro e hend
      have hfirst := hend e (le_refl e) (by omega)
      have hrest := ih (e + 1) (fun j hlow hhigh => hend j (by omega) (by omega))
      rw [show k + 1 + n = k + n + 1 by omega, show e + (k + 1) = e + 1 + k by omega]
      by_cases hhidden : firstByte buf e = 0xE5 ∨ (readDirent buf e).Skipped
      · rw [entriesFrom_hidden hfirst hhidden, entriesFrom_hidden hfirst hhidden, hrest]
      · rw [entriesFrom_shown hfirst hhidden, entriesFrom_shown hfirst hhidden, hrest,
          List.cons_append]

/-- The enumeration depends on the enumerated entries only. -/
theorem entriesFrom_congr
    (n : Nat) :
    ∀ e, (∀ j, e ≤ j → j < e + n → readDirent buf' j = readDirent buf j) →
      entriesFrom buf' n e = entriesFrom buf n e := by
  induction n with
  | zero =>
      intro e _
      rfl
  | succ n ih =>
      intro e hsame
      have hentry := hsame e (le_refl e) (by omega)
      have hbyte : firstByte buf' e = firstByte buf e := by
        rw [firstByte_eq_head, firstByte_eq_head, hentry]
      have hrest := ih (e + 1) (fun j hlow hhigh => hsame j (by omega) (by omega))
      by_cases hend : firstByte buf e = 0
      · rw [entriesFrom_ended hend, entriesFrom_ended (hbyte.trans hend)]
      · have hend' : firstByte buf' e ≠ 0 := by rwa [hbyte]
        by_cases hhidden : firstByte buf e = 0xE5 ∨ (readDirent buf e).Skipped
        · rw [entriesFrom_hidden hend hhidden, entriesFrom_hidden hend' (by
            rwa [hbyte, hentry]), hrest]
        · rw [entriesFrom_shown hend hhidden, entriesFrom_shown hend' (by
            rwa [hbyte, hentry]), hrest, hentry]

/-- A failed search: no enumerated entry has the name. -/
theorem name_ne_of_find_none
    {want : List UInt8} (h : findFrom buf want n e = none) :
    ∀ d, d ∈ entriesFrom buf n e → d.name ≠ want := by
  intro d hd
  obtain ⟨i, hi, rfl⟩ := List.mem_map.mp hd
  rw [findFrom_eq_find] at h
  simpa using List.find?_eq_none.mp h i hi

end Entries

section Update

variable {serves : Nat → Bool} {v v' : Volume} {name : CString}
  {data : Nat → UInt8} {first size slot : Nat}

/-- The entries that lookups and listings of the root directory enumerate. -/
def rootEntries (v : Volume) : List Dirent :=
  entriesFrom (rootBytes v) v.geom.rootDirEntryCount 0

/-- One entry of the name was replaced, or one was added where there was none. -/
def OneUpdated (before after : List Dirent) (want : List UInt8) : Prop :=
  ∃ left new right, new.name = want ∧ after = left ++ new :: right ∧
    ((∃ old, old.name = want ∧ before = left ++ old :: right) ∨
      (before = left ++ right ∧ ∀ d, d ∈ before → d.name ≠ want))

/-- The entries behind a slot. -/
def entriesBehind (v : Volume) (slot : Nat) : List Dirent :=
  entriesFrom (rootBytes v) (v.geom.rootDirEntryCount - (slot + 1)) (slot + 1)

/-- When the end mark is overwritten, nothing is hidden behind it. -/
def NothingStale (v : Volume) (name : CString) : Prop :=
  ∀ slot, chooseSlot v name = some slot → firstByte (rootBytes v) slot = 0 →
    entriesBehind v slot = []

/-- The entries from the slot on, by what the slot holds. -/
theorem rootEntries_split
    (hspec : SlotSpec v name slot) :
    rootEntries v =
      entriesFrom (rootBytes v) slot 0 ++
        entriesFrom (rootBytes v) (v.geom.rootDirEntryCount - (slot + 1) + 1) slot := by
  have hlt := hspec.lt
  have hsplit :=
    entriesFrom_add (rootBytes v) slot
      (v.geom.rootDirEntryCount - (slot + 1) + 1) 0
      (fun j _ hj => hspec.before j (by omega))
  rw [Nat.zero_add] at hsplit
  rw [rootEntries, ← hsplit]
  congr 1
  omega

/-- The entries after the call. -/
theorem RootWritten.rootEntries_eq
    (h : RootWritten v v' name first size slot)
    (hname : (format83 name.bytes).headD 0 ≠ 0xE5) :
    rootEntries v' =
      entriesFrom (rootBytes v) slot 0 ++
        readDirent (rootBytes v') slot :: entriesBehind v slot := by
  have hlt := h.slot_spec.lt
  have hvis := h.visible_slot hname
  have hleft : entriesFrom (rootBytes v') slot 0 = entriesFrom (rootBytes v) slot 0 :=
    entriesFrom_congr slot 0
      (fun j _ hj => h.readDirent_other (by omega) (by omega))
  have hright : entriesFrom (rootBytes v') (v.geom.rootDirEntryCount - (slot + 1))
      (slot + 1) = entriesBehind v slot :=
    entriesFrom_congr _ _
      (fun j hj hj' => h.readDirent_other (by omega) (by omega))
  have hsplit :=
    entriesFrom_add (rootBytes v') slot
      (v.geom.rootDirEntryCount - (slot + 1) + 1) 0
      (fun j _ hj => hvis.not_ended j (by omega))
  rw [Nat.zero_add, hleft, entriesFrom_shown (hvis.not_ended slot (le_refl slot))
    (not_or.mpr ⟨hvis.not_deleted, hvis.not_skipped⟩), hright] at hsplit
  rw [rootEntries, h.geom, ← hsplit]
  congr 1
  omega

/--
The enumerated entries are those before with the entry of the name replaced or added,
exactly when no stale entry hides behind an end mark that the new entry overwrites.
-/
theorem RootWritten.oneUpdated_iff
    {first : Nat} (hwritten : RootWritten v v' name first size slot)
    (hslot : chooseSlot v name = some slot)
    (hname : (format83 name.bytes).headD 0 ≠ 0xE5) :
    OneUpdated (rootEntries v) (rootEntries v') (format83 name.bytes) ↔
      NothingStale v name := by
  have hspec := hwritten.slot_spec
  have hbefore := rootEntries_split hspec
  have hafter := hwritten.rootEntries_eq hname
  have hnew : (readDirent (rootBytes v') slot).name = format83 name.bytes := by
    rw [hwritten.readDirent_slot]
  constructor
  · intro hone slot' hslot' hzero
    rw [hslot, Option.some.injEq] at hslot'
    subst hslot'
    rw [entriesFrom_ended hzero, List.append_nil] at hbefore
    -- the lists differ in length by the new entry and the stale ones
    have hlen : (rootEntries v').length =
        (rootEntries v).length + 1 + (entriesBehind v slot).length := by
      rw [hafter, hbefore]
      simp only [List.length_append, List.length_cons]
      omega
    obtain ⟨left, new, right, _, hright, hleft⟩ := hone
    rw [hright] at hlen
    rcases hleft with ⟨old, _, hold⟩ | ⟨hold, _⟩
    · rw [hold] at hlen
      simp only [List.length_append, List.length_cons] at hlen
      omega
    · rw [hold] at hlen
      simp only [List.length_append, List.length_cons] at hlen
      exact List.length_eq_zero_iff.mp (by omega)
  · intro hstale
    refine ⟨_, _, _, hnew, hafter, ?_⟩
    rcases hspec.kind with ⟨_, hvis, hold⟩ | ⟨hnone, hzero | hdeleted⟩
    · left
      refine ⟨_, hold, ?_⟩
      rw [hbefore, entriesFrom_shown (hvis.not_ended slot (le_refl slot))
        (not_or.mpr ⟨hvis.not_deleted, hvis.not_skipped⟩)]
      rfl
    · right
      rw [scanSlots_fst] at hnone
      refine ⟨?_, name_ne_of_find_none hnone⟩
      rw [hbefore, entriesFrom_ended hzero, hstale slot hslot hzero]
    · right
      rw [scanSlots_fst] at hnone
      have hend : firstByte (rootBytes v) slot ≠ 0 := by
        rw [hdeleted]
        decide
      refine ⟨?_, name_ne_of_find_none hnone⟩
      rw [hbefore, entriesFrom_hidden hend (Or.inl hdeleted)]
      rfl

/--
**The root directory is updated exactly.**  The chain of the file that is replaced does
not leave the FAT, and the driver does not panic.  Then the call returns, and the
enumerated entries are those before it with the entry of the name replaced or added,
exactly when no stale entry hides behind an end mark that the call overwrites.
-/
theorem root_update_exact_iff
    (hname : (format83 name.bytes).headD 0 ≠ 0xE5) (hfrees : FreesInside v name)
    (hreturns : ∀ e u, fat16WriteFile serves v name data size = .error (e, u) →
      ¬ e.Own) :
    ∃ v', fat16WriteFile serves v name data size = .ok v' ∧
      (OneUpdated (rootEntries v) (rootEntries v') (format83 name.bytes) ↔
        NothingStale v name) := by
  cases hcall : fat16WriteFile serves v name data size with
  | error p =>
      exact absurd (fat16WriteFile_panic hfrees hcall) (hreturns p.1 p.2 hcall)
  | ok v' =>
      obtain ⟨slot, first, hslot, hwritten⟩ := rootWritten_of_ok hcall
      exact ⟨v', rfl, hwritten.oneUpdated_iff hslot hname⟩

end Update

section Samples

/-- Replacing `A.B` on the sample volume. -/
theorem root_update_exact_sample :
    ∃ v', fat16WriteFile (fun _ => true) sampleVolume sampleName UInt8.ofNat 3 =
        .ok v' ∧
      OneUpdated (rootEntries sampleVolume) (rootEntries v')
        (format83 sampleName.bytes) := by
  have hrun : (fat16WriteFile (fun _ => true) sampleVolume sampleName UInt8.ofNat
      3).toOption.any (fun _ => true) = true := by
    decide +kernel
  have hfreed : (freeExisting sampleVolume
      (scanSlots sampleVolume sampleName).1).toOption.any (fun _ => true) = true := by
    decide +kernel
  obtain ⟨v, hok, _⟩ := any_toOption.mp hrun
  obtain ⟨fat, hfree, _⟩ := any_toOption.mp hfreed
  have hreturns : ∀ e u, fat16WriteFile (fun _ => true) sampleVolume sampleName
      UInt8.ofNat 3 = .error (e, u) → ¬ e.Own := by
    simp [hok]
  obtain ⟨v', hok', hexact⟩ := root_update_exact_iff (by decide)
    (freesInside_iff.mpr ⟨fat, hfree⟩) hreturns
  refine ⟨v', hok', hexact.mpr ?_⟩
  intro slot hslot hzero
  have hchosen : chooseSlot sampleVolume sampleName = some 1 := by decide +kernel
  rw [hchosen, Option.some.injEq] at hslot
  subst hslot
  exact absurd hzero (by decide +kernel)

/-- An end mark in the first slot and an old entry `X` behind it. -/
def staleDisk : Store :=
  diskOf formattedDisk formattedGeometry (fun _ => 0)
    (List.replicate 32 0 ++ direntBytes (format83 [0x78]) attrArchive 5 9)

def staleVolume : Volume :=
  ⟨formattedGeometry, diskFat formattedGeometry staleDisk, ⟨staleDisk, []⟩⟩

/--
**A stale entry comes back.**  The new file takes the slot of the end mark, and the
entry behind it is enumerated after the call.
-/
theorem stale_entry_appears :
    fat16Init (fun _ => true) staleDisk = .ok staleVolume ∧
      rootEntries staleVolume = [] ∧
      ∃ v', fat16WriteFile (fun _ => true) staleVolume sampleName UInt8.ofNat 3 =
          .ok v' ∧
        (rootEntries v').map Dirent.name =
          [format83 sampleName.bytes, format83 [0x78]] ∧
        ¬ OneUpdated (rootEntries staleVolume) (rootEntries v')
          (format83 sampleName.bytes) := by
  have hinit : fat16Init (fun _ => true) staleDisk = .ok staleVolume :=
    fat16Init_formatted _ _
  have hempty : rootEntries staleVolume = [] := by decide
  have hrun : (fat16WriteFile (fun _ => true) staleVolume sampleName UInt8.ofNat
      3).toOption.any (fun v' => decide ((rootEntries v').map Dirent.name =
        [format83 sampleName.bytes, format83 [0x78]])) = true := by
    decide
  obtain ⟨v', hok, hnames⟩ := any_toOption.mp hrun
  rw [decide_eq_true_eq] at hnames
  refine ⟨hinit, hempty, v', hok, hnames, ?_⟩
  rintro ⟨left, new, right, _, hafter, hbefore⟩
  have htwo := congrArg List.length hnames
  rw [hafter] at htwo
  rw [hempty] at hbefore
  rcases hbefore with ⟨old, _, hold⟩ | ⟨hold, _⟩
  · simp at hold
  · obtain ⟨rfl, rfl⟩ := List.append_eq_nil_iff.mp hold.symm
    simp at htwo

end Samples

end Fat16
end RebornOS
