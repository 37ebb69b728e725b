import RebornOS.Fat16Access

/-!
# What the freeing loop clears

`fat16_write_file` frees the clusters of the file that it replaces.  The loop follows
the links without a check of its own, and clears each one that it has read.  It uses
an index behind the FAT exactly if the chain leads there (`leavesFat_iff`), and
otherwise it clears the clusters that the chain meets, cyclic or not
(`freeChain_frees`).  Both are said of the volume before the call: `FreesInside` and
`Freeable`.

The model does not follow the loop behind the FAT.  On a volume on which the old chain
stays inside, `fat16_write_file` returns or panics by itself (`fat16WriteFile_panic`).
-/

namespace RebornOS
namespace Fat16

open ByteStore TableChain

variable {u v : Volume} {fat : Nat → Nat} {n : Nat} {e : Panic} {data : Nat → UInt8}

/--
A panic of the driver.  The others stand for a loop without an end and for accesses
outside a buffer, which are not followed further.
-/
def Panic.Own : Panic → Prop
  | .fatIndex _ => False
  | .bufferOverrun => False
  | .endless => False
  | _ => True

/-- A cluster number behind the end of the FAT. -/
def OffFat (v : Volume) (c : Nat) : Prop :=
  (2 ≤ c ∧ c < eocMin) ∧ v.geom.fatCacheEntries ≤ c

/-- The chain from `c` leads to a cluster number behind the end of the FAT. -/
def LeavesFat (v : Volume) (c : Nat) : Prop :=
  ∃ cs, Chain v.fat (Linked v) (OffFat v) c cs

/-- The entry that the call would replace, if there is one, has this first cluster. -/
def OldCluster (v : Volume) (name : CString) (c : Nat) : Prop :=
  ∃ e, (scanSlots v name).1 = some e ∧ c = (readDirent (rootBytes v) e).firstCluster

/-- The chain of the replaced file does not leave the FAT. -/
def FreesInside (v : Volume) (name : CString) : Prop :=
  ∀ c, OldCluster v name c → ¬ LeavesFat v c

/-- Entry `d` of the FAT is free, or belongs to the file that is replaced. -/
def Freeable (v : Volume) (name : CString) (d : Nat) : Prop :=
  2 ≤ d ∧
    (v.fat d = freeMark ∨ ∃ c, OldCluster v name c ∧ Met v.fat (Linked v) c d)

section Loop

variable {fat' : Nat → Nat} {c d : Nat}

theorem not_linked_freeMark : ¬ Linked v freeMark := by
  intro h
  have hlow := h.1.1
  simp [freeMark] at hlow

theorem linked_not_off
    (d : Nat) (h : Linked v d) : ¬ OffFat v d :=
  fun hoff => absurd h.2 (Nat.not_lt.mpr hoff.2)

/-- A round of the loop at a cluster of the FAT. -/
theorem freeChain_linked
    (h : Linked v c) :
    freeChain v.geom.fatCacheEntries (n + 1) fat c =
      freeChain v.geom.fatCacheEntries n (Function.update fat c freeMark) (fat c) := by
  rw [freeChain, if_pos h.1, if_pos h.2]

/-- The round at a cluster number behind it. -/
theorem freeChain_off
    (h : OffFat v c) :
    freeChain v.geom.fatCacheEntries (n + 1) fat c = .error (.fatIndex c) := by
  rw [freeChain, if_pos h.1, if_neg (Nat.not_lt.mpr h.2)]

/-- A chain to the outside makes the loop use that index. -/
theorem freeChain_of_leaves
    {cs : List Nat} (h : Chain fat (Linked v) (OffFat v) c cs) (hn : cs.length < n) :
    ∃ d, freeChain v.geom.fatCacheEntries n fat c = .error (.fatIndex d) := by
  induction cs generalizing fat c n with
  | nil =>
      obtain ⟨n, rfl⟩ := Nat.exists_eq_succ_of_ne_zero (Nat.ne_of_gt hn)
      exact ⟨c, freeChain_off h⟩
  | cons b cs ih =>
      obtain ⟨n, rfl⟩ := Nat.exists_eq_succ_of_ne_zero (Nat.ne_of_gt (Nat.zero_lt_of_lt hn))
      have hnodup := h.nodup linked_not_off
      obtain ⟨rfl, hlinked, hrest⟩ := h
      have hnot : c ∉ cs := (List.nodup_cons.mp hnodup).1
      rw [freeChain_linked hlinked]
      exact ih ((chain_update_iff hnot).mpr hrest) (by simpa using hn)

/-- And nothing else does: a cleared entry ends the loop. -/
theorem leaves_of_freeChain
    (h : freeChain v.geom.fatCacheEntries n fat c = .error (.fatIndex d)) :
    ∃ cs, Chain fat (Linked v) (OffFat v) c cs := by
  induction n generalizing fat c with
  | zero =>
      cases h
  | succ n ih =>
      rw [freeChain] at h
      split_ifs at h with hin hlt
      · obtain ⟨cs, hchain⟩ := ih h
        have hnot : c ∉ cs := by
          intro hmem
          have hnext := hchain.next_mem hmem
          rw [Function.update_self] at hnext
          rcases hnext with hnext | hnext
          · exact not_linked_freeMark (hchain.node hnext)
          · have hlow := hnext.1.1
            simp [freeMark] at hlow
        exact ⟨c :: cs, rfl, ⟨hin, hlt⟩, (chain_update_iff hnot).mp hchain⟩
      · exact ⟨[], hin, Nat.not_lt.mp hlt⟩

/-- The loop uses an index behind the FAT exactly if the chain leads there. -/
theorem leavesFat_iff
    (h : v.geom.fatCacheEntries < n) :
    LeavesFat v c ↔
      ∃ d, freeChain v.geom.fatCacheEntries n v.fat c = .error (.fatIndex d) := by
  constructor
  · rintro ⟨cs, hchain⟩
    have hle := length_le_of_nodup (hchain.nodup linked_not_off)
      (fun c hc => (hchain.node hc).2)
    exact freeChain_of_leaves hchain (by omega)
  · rintro ⟨d, hd⟩
    exact leaves_of_freeChain hd

/-- The loop panics in no other way. -/
theorem fatIndex_of_freeChain
    (h : freeChain v.geom.fatCacheEntries n fat c = .error e)
    (hn : v.geom.fatCacheEntries + 2 ≤ n) :
    ∃ d, freeChain v.geom.fatCacheEntries n fat c = .error (.fatIndex d) := by
  have hcases : ∀ (n : Nat) (fat : Nat → Nat) (c : Nat),
      freeChain v.geom.fatCacheEntries n fat c = .error e →
        e = .endless ∨ ∃ d, e = .fatIndex d := by
    intro n
    induction n with
    | zero =>
        intro fat c h
        cases h
        exact Or.inl rfl
    | succ n ih =>
        intro fat c h
        rw [freeChain] at h
        split_ifs at h
        · exact ih _ _ h
        · cases h
          exact Or.inr ⟨c, rfl⟩
  rcases hcases n fat c h with rfl | ⟨d, rfl⟩
  · exact absurd h (freeChain_ends hn fat c)
  · exact ⟨d, h⟩

/-- Afterwards an entry is free if it was free before or was met. -/
theorem freeChain_frees
    (h : freeChain v.geom.fatCacheEntries n fat c = .ok fat') :
    fat' d = freeMark ↔ fat d = freeMark ∨ Met fat (Linked v) c d := by
  induction n generalizing fat c with
  | zero =>
      cases h
  | succ n ih =>
      rw [freeChain] at h
      split_ifs at h with hin hlt
      · rw [ih h, met_iff ⟨hin, hlt⟩ not_linked_freeMark]
        by_cases hdc : d = c
        · simp [hdc]
        · simp [hdc]
      · have hnone : ¬ Met fat (Linked v) c d := fun hmet => hin hmet.start.1
        cases h
        simp [hnone]

end Loop

section Replaced

variable {name : CString}

/-- The writing loop can only fill the disk. -/
theorem writeClusters_panic
    {p : Progress} (h : writeClusters data n v p = .error (e, u)) : e = .diskFull := by
  induction n generalizing v p with
  | zero =>
      cases h
  | succ n ih =>
      cases halloc : allocCluster v with
      | none =>
          simp only [writeClusters, halloc] at h
          cases h
          rfl
      | some c =>
          rw [writeClusters_succ halloc] at h
          exact ih h

/-- The freeing succeeds exactly if the old chain does not leave the FAT. -/
theorem freesInside_iff :
    FreesInside v name ↔ ∃ fat, freeExisting v (scanSlots v name).1 = .ok fat := by
  unfold FreesInside OldCluster
  cases (scanSlots v name).1 with
  | none =>
      simp [freeExisting]
  | some e =>
      simp only [Option.some.injEq, freeExisting]
      have hleaves := leavesFat_iff (v := v)
        (c := (readDirent (rootBytes v) e).firstCluster)
        (Nat.lt_add_of_pos_right (n := v.geom.fatCacheEntries) Nat.two_pos)
      constructor
      · intro hstays
        have hin := hstays _ ⟨e, rfl, rfl⟩
        rw [hleaves] at hin
        cases hfree : freeChain v.geom.fatCacheEntries (v.geom.fatCacheEntries + 2)
            v.fat (readDirent (rootBytes v) e).firstCluster with
        | error e =>
            exact absurd (fatIndex_of_freeChain hfree (le_refl _)) hin
        | ok fat =>
            exact ⟨fat, rfl⟩
      · rintro ⟨fat, hok⟩ _ ⟨_, rfl, rfl⟩ hout
        obtain ⟨d, hd⟩ := hleaves.mp hout
        rw [hok] at hd
        cases hd

/-- Then the call ends with a panic of its own, or returns. -/
theorem fat16WriteFile_panic
    {serves : Nat → Bool} {size : Nat} (hfrees : FreesInside v name)
    (h : fat16WriteFile serves v name data size = .error (e, u)) : e.Own := by
  obtain ⟨fat, hfreed⟩ := freesInside_iff.mp hfrees
  by_cases hroot : kmallocOk serves v.geom.rootDirBytes
  · cases hslot : chooseSlot v name with
    | none =>
        rw [fat16WriteFile_rootFull hroot hslot] at h
        cases h
        trivial
    | some slot =>
        rw [fat16WriteFile_eq hroot hslot hfreed] at h
        cases hloop : writeClusters data (clustersNeeded v.geom size)
            { v with fat := fat } ⟨0, 0, 0, size⟩ with
        | error p =>
            rw [hloop] at h
            cases h
            rw [writeClusters_panic hloop]
            trivial
        | ok r =>
            rw [hloop] at h
            cases h
  · have hfail : readRootDir serves v = .error .rootAlloc := if_neg hroot
    simp only [fat16WriteFile, hfail] at h
    cases h
    trivial

/-- Then the free entries are those that could be freed. -/
theorem isFree_freeExisting
    (h : freeExisting v (scanSlots v name).1 = .ok fat) (d : Nat) :
    IsFree fat d ↔ Freeable v name d := by
  unfold IsFree Freeable OldCluster
  refine and_congr_right (fun _ => ?_)
  cases hold : (scanSlots v name).1 with
  | none =>
      rw [hold] at h
      cases h
      simp
  | some e =>
      rw [hold] at h
      rw [freeChain_frees h]
      refine or_congr_right ⟨fun hmet => ⟨_, ⟨e, rfl, rfl⟩, hmet⟩, ?_⟩
      rintro ⟨_, ⟨_, hsame, rfl⟩, hmet⟩
      cases hsame
      exact hmet

end Replaced

end Fat16
end RebornOS
