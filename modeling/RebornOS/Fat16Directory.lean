import RebornOS.Fat16Layout

/-!
# Directory scans and directory entries

What the two scans of the driver find.  An entry is visible when the directory
has not ended before it and it is neither deleted, nor a long-name fragment,
nor the volume label.  `find_entry_in_dir` and the scan of `fat16_write_file`
both find the first visible entry of a name; the latter also finds the slot for
a new entry.
-/

namespace RebornOS
namespace Fat16

open ByteStore

variable {buf : Store} {count e i n : Nat}

/-- Entry `e` of a directory with `count` entries is visible. -/
structure Visible (buf : Store) (count e : Nat) : Prop where
  lt : e < count
  not_ended : ∀ j, j ≤ e → firstByte buf j ≠ 0
  not_deleted : firstByte buf e ≠ 0xE5
  not_skipped : ¬ (readDirent buf e).Skipped

/-- An end mark in the second slot leaves only the first. -/
theorem eq_zero_of_visible
    (hend : firstByte buf 1 = 0) (hvis : Visible buf count e) : e = 0 := by
  by_contra hne
  exact hvis.not_ended 1 (Nat.one_le_iff_ne_zero.mpr hne) hend

section Scans

variable {want : List UInt8}

/-- Entry `e` has the name and is not hidden. -/
def Matches (buf : Store) (want : List UInt8) (e : Nat) : Prop :=
  (firstByte buf e ≠ 0xE5 ∧ ¬ (readDirent buf e).Skipped) ∧
    (readDirent buf e).name = want

/-- The first entry decides, or the search goes on. -/
theorem findFrom_ended
    (hzero : firstByte buf e = 0) : findFrom buf want (n + 1) e = none :=
  if_pos hzero

theorem findFrom_match
    (hzero : firstByte buf e ≠ 0) (hmatch : Matches buf want e) :
    findFrom buf want (n + 1) e = some e := by
  rw [findFrom, if_neg hzero, if_neg (not_or.mpr hmatch.1), if_pos hmatch.2]

theorem findFrom_other
    (hzero : firstByte buf e ≠ 0) (hother : ¬ Matches buf want e) :
    findFrom buf want (n + 1) e = findFrom buf want n (e + 1) := by
  rw [findFrom, if_neg hzero]
  by_cases hhidden : firstByte buf e = 0xE5 ∨ (readDirent buf e).Skipped
  · rw [if_pos hhidden]
  · rw [if_neg hhidden, if_neg (fun hname => hother ⟨not_or.mp hhidden, hname⟩)]

/-- The search from entry `e` on finds the first match before the end. -/
theorem findFrom_eq_some :
    findFrom buf want n e = some i ↔
      (e ≤ i ∧ i < e + n) ∧ (∀ j, e ≤ j → j ≤ i → firstByte buf j ≠ 0) ∧
        Matches buf want i ∧ ∀ j, e ≤ j → j < i → ¬ Matches buf want j := by
  induction n generalizing e with
  | zero =>
      simp only [findFrom, false_iff, reduceCtorEq]
      omega
  | succ n ih =>
      by_cases hzero : firstByte buf e = 0
      · rw [findFrom_ended hzero]
        simp only [reduceCtorEq, false_iff]
        rintro ⟨hrange, hend, _⟩
        exact hend e (le_refl e) hrange.1 hzero
      · by_cases hmatch : Matches buf want e
        · rw [findFrom_match hzero hmatch, Option.some.injEq]
          constructor
          · rintro rfl
            refine ⟨by omega, fun j hj hje => ?_, hmatch, fun j hj hje => by omega⟩
            rwa [Nat.le_antisymm hje hj]
          · rintro ⟨hrange, _, _, hfirst⟩
            by_contra hne
            exact hfirst e (le_refl e) (by omega) hmatch
        · rw [findFrom_other hzero hmatch, ih]
          constructor
          · rintro ⟨hrange, hend, hfound, hfirst⟩
            refine ⟨by omega, fun j hj hji => ?_, hfound, fun j hj hji => ?_⟩
            · rcases Nat.eq_or_lt_of_le hj with rfl | hlt
              · exact hzero
              · exact hend j hlt hji
            · rcases Nat.eq_or_lt_of_le hj with rfl | hlt
              · exact hmatch
              · exact hfirst j hlt hji
          · rintro ⟨hrange, hend, hfound, hfirst⟩
            have hne : i ≠ e := by
              rintro rfl
              exact hmatch hfound
            exact ⟨by omega, fun j hj => hend j (by omega), hfound,
              fun j hj => hfirst j (by omega)⟩

/-- `find_entry_in_dir` finds the first visible entry of the name. -/
theorem findFrom_zero_eq_some :
    findFrom buf want count 0 = some i ↔
      Visible buf count i ∧ (readDirent buf i).name = want ∧
        ∀ j, j < i → Visible buf count j → (readDirent buf j).name ≠ want := by
  rw [findFrom_eq_some]
  constructor
  · rintro ⟨hrange, hend, ⟨⟨hdel, hshown⟩, hname⟩, hfirst⟩
    refine ⟨⟨by omega, fun j hj => hend j (by omega) hj, hdel, hshown⟩, hname,
      ?_⟩
    intro j hj hvis hsame
    exact hfirst j (by omega) hj ⟨⟨hvis.not_deleted, hvis.not_skipped⟩, hsame⟩
  · rintro ⟨hvis, hname, hfirst⟩
    have hlt := hvis.lt
    refine ⟨by omega, fun j _ hj => hvis.not_ended j hj,
      ⟨⟨hvis.not_deleted, hvis.not_skipped⟩, hname⟩, ?_⟩
    rintro j _ hj ⟨⟨hdel, hshown⟩, hsame⟩
    refine hfirst j hj ⟨by omega, ?_, hdel, hshown⟩ hsame
    intro k hk
    exact hvis.not_ended k (by omega)

/-- A failed search: no visible entry has the name. -/
theorem findFrom_zero_eq_none :
    findFrom buf want count 0 = none ↔
      ∀ j, Visible buf count j → (readDirent buf j).name ≠ want := by
  constructor
  · intro hnone j hvis hname
    -- the first such entry would have been found
    obtain ⟨i, hi, hfirst⟩ : ∃ i,
        (Visible buf count i ∧ (readDirent buf i).name = want) ∧
          ∀ k, k < i →
            ¬ (Visible buf count k ∧ (readDirent buf k).name = want) := by
      classical
      have hex : ∃ i, Visible buf count i ∧ (readDirent buf i).name = want :=
        ⟨j, hvis, hname⟩
      exact ⟨Nat.find hex, Nat.find_spec hex, fun k hk => Nat.find_min hex hk⟩
    have hsome : findFrom buf want count 0 = some i := by
      refine findFrom_zero_eq_some.mpr ⟨hi.1, hi.2, ?_⟩
      intro k hk hvk hnk
      exact hfirst k hk ⟨hvk, hnk⟩
    rw [hnone] at hsome
    cases hsome
  · intro hno
    cases hfind : findFrom buf want count 0 with
    | none =>
        rfl
    | some i =>
        obtain ⟨hvis, hname, _⟩ := findFrom_zero_eq_some.mp hfind
        exact absurd hname (hno i hvis)

/-- The existing entry found by `fat16_write_file` is the one that opens. -/
theorem scanRoot_fst
    {free : Option Nat} : (scanRoot buf want n e free).1 = findFrom buf want n e := by
  induction n generalizing e free with
  | zero =>
      rfl
  | succ n ih =>
      rw [scanRoot, findFrom]
      by_cases hzero : firstByte buf e = 0
      · rw [if_pos hzero, if_pos hzero]
      · rw [if_neg hzero, if_neg hzero]
        by_cases hdel : firstByte buf e = 0xE5
        · rw [if_pos hdel, if_pos (Or.inl hdel), ih]
        · rw [if_neg hdel]
          by_cases hskip : (readDirent buf e).Skipped
          · rw [if_pos hskip, if_pos (Or.inr hskip), ih]
          · rw [if_neg hskip, if_neg (not_or.mpr ⟨hdel, hskip⟩)]
            by_cases hname : (readDirent buf e).name = want
            · rw [if_pos hname, if_pos hname]
            · rw [if_neg hname, if_neg hname, ih]

/-- A reusable slot: deleted, or the end of the directory. -/
def Reusable (buf : Store) (e : Nat) : Prop :=
  firstByte buf e = 0 ∨ firstByte buf e = 0xE5

/-- The free slot lies before the end of the directory. -/
theorem scanRoot_snd
    {free : Option Nat} (h : (scanRoot buf want n e free).2 = some i) :
    free = some i ∨
      (e ≤ i ∧ i < e + n ∧ (∀ j, e ≤ j → j < i → firstByte buf j ≠ 0) ∧
        Reusable buf i) := by
  induction n generalizing e free with
  | zero =>
      exact Or.inl h
  | succ n ih =>
      have hextend : firstByte buf e ≠ 0 → ∀ free',
          (scanRoot buf want n (e + 1) free').2 = some i →
          free' = some i ∨
            (e ≤ i ∧ i < e + (n + 1) ∧
              (∀ j, e ≤ j → j < i → firstByte buf j ≠ 0) ∧
              Reusable buf i) := by
        intro hzero free' h'
        refine (ih h').imp_right ?_
        rintro ⟨hle, hlt, hend, hre⟩
        refine ⟨by omega, by omega, ?_, hre⟩
        intro j hj hji
        by_cases hje : j = e
        · rwa [hje]
        · exact hend j (by omega) hji
      have hhere : firstByte buf e = 0 ∨ firstByte buf e = 0xE5 →
          free.or (some e) = some i →
          free = some i ∨
            (e ≤ i ∧ i < e + (n + 1) ∧
              (∀ j, e ≤ j → j < i → firstByte buf j ≠ 0) ∧
              Reusable buf i) := by
        intro hre h'
        cases free with
        | some f =>
            exact Or.inl h'
        | none =>
            simp only [Option.none_or, Option.some.injEq] at h'
            subst h'
            exact Or.inr ⟨le_refl _, by omega, fun j hj hji => by omega, hre⟩
      rw [scanRoot] at h
      by_cases hzero : firstByte buf e = 0
      · rw [if_pos hzero] at h
        exact hhere (Or.inl hzero) h
      · rw [if_neg hzero] at h
        by_cases hdel : firstByte buf e = 0xE5
        · rw [if_pos hdel] at h
          rcases hextend hzero _ h with hfree | hslot
          · exact hhere (Or.inr hdel) hfree
          · exact Or.inr hslot
        · rw [if_neg hdel] at h
          by_cases hskip : (readDirent buf e).Skipped
          · rw [if_pos hskip] at h
            exact hextend hzero _ h
          · rw [if_neg hskip] at h
            by_cases hname : (readDirent buf e).name = want
            · rw [if_pos hname] at h
              exact Or.inl h
            · rw [if_neg hname] at h
              exact hextend hzero _ h

end Scans

section Slots

variable {v : Volume} {name : CString} {slot : Nat}

/-- The slot that `fat16_write_file` uses. -/
structure SlotSpec (v : Volume) (name : CString) (slot : Nat) : Prop where
  lt : slot < v.geom.rootDirEntryCount
  before : ∀ j, j < slot → firstByte (rootBytes v) j ≠ 0
  kind :
    ((scanSlots v name).1 = some slot ∧
        Visible (rootBytes v) v.geom.rootDirEntryCount slot ∧
        (readDirent (rootBytes v) slot).name = format83 name.bytes) ∨
      ((scanSlots v name).1 = none ∧ Reusable (rootBytes v) slot)

theorem scanSlots_fst :
    (scanSlots v name).1 =
      findFrom (rootBytes v) (format83 name.bytes) v.geom.rootDirEntryCount 0 :=
  scanRoot_fst

theorem slotSpec_of_chooseSlot
    (h : chooseSlot v name = some slot) : SlotSpec v name slot := by
  unfold chooseSlot at h
  cases hexisting : (scanSlots v name).1 with
  | some e =>
      rw [hexisting, Option.some_or, Option.some.injEq] at h
      subst h
      have hfound := hexisting
      rw [scanSlots_fst] at hfound
      obtain ⟨hvis, hname, _⟩ := findFrom_zero_eq_some.mp hfound
      exact ⟨hvis.lt, fun j hj => hvis.not_ended j (by omega),
        Or.inl ⟨hexisting, hvis, hname⟩⟩
  | none =>
      rw [hexisting, Option.none_or] at h
      rcases scanRoot_snd h with hfree | ⟨_, hlt, hend, hre⟩
      · cases hfree
      · exact ⟨by omega, fun j hj => hend j (by omega) hj,
          Or.inr ⟨hexisting, hre⟩⟩

end Slots

section Entries

variable {buf' : Store}

/-- An entry depends only on its 32 bytes. -/
theorem readDirent_congr
    (h : AgreeOn buf buf' (direntSize * e) (direntSize * e + direntSize)) :
    readDirent buf' e = readDirent buf e := by
  have hsize : direntSize = 32 := rfl
  have hbyte : ∀ i, i < 32 →
      buf' (direntSize * e + i) = buf (direntSize * e + i) :=
    fun i hi => h _ (by omega) (by omega)
  have hfield : ∀ off n, off + n ≤ 32 →
      readLE buf' (direntSize * e + off) n =
        readLE buf (direntSize * e + off) n :=
    fun off n hn => readLE_congr (h.mono (by omega) (by omega))
  have hname : (List.range 11).map (fun i => buf' (direntSize * e + i)) =
      (List.range 11).map (fun i => buf (direntSize * e + i)) := by
    refine List.map_congr_left ?_
    intro i hi
    exact hbyte i (by have h := List.mem_range.mp hi; omega)
  simp only [readDirent, hname, hbyte 11 (by decide), hfield 20 2 (by decide),
    hfield 26 2 (by decide), hfield 28 4 (by decide)]

theorem firstByte_congr
    (h : AgreeOn buf buf' (direntSize * e) (direntSize * e + direntSize)) :
    firstByte buf' e = firstByte buf e := by
  have hsize : direntSize = 32 := rfl
  exact h _ (by omega) (by omega)

/-- The first byte of an entry is the first byte of its name. -/
theorem firstByte_eq_head : firstByte buf e = (readDirent buf e).name.headD 0 := by
  rfl

/-- Visibility depends only on the directory's bytes. -/
theorem Visible.congr
    (h : AgreeOn buf buf' 0 (direntSize * count)) (hvis : Visible buf count e) :
    Visible buf' count e := by
  have hentry : ∀ j, j < count →
      AgreeOn buf buf' (direntSize * j) (direntSize * j + direntSize) :=
    fun j hj => h.mono (Nat.zero_le _) (by unfold direntSize; omega)
  have hlt := hvis.lt
  refine ⟨hlt, ?_, ?_, ?_⟩
  · intro j hj
    rw [firstByte_congr (hentry j (by omega))]
    exact hvis.not_ended j hj
  · rw [firstByte_congr (hentry e hlt)]
    exact hvis.not_deleted
  · rw [readDirent_congr (hentry e hlt)]
    exact hvis.not_skipped

/-- So does a search. -/
theorem findFrom_congr
    {want : List UInt8} (h : AgreeOn buf buf' (direntSize * e) (direntSize * (e + n))) :
    findFrom buf' want n e = findFrom buf want n e := by
  induction n generalizing e with
  | zero =>
      rfl
  | succ n ih =>
      have hentry : AgreeOn buf buf' (direntSize * e)
          (direntSize * e + direntSize) :=
        h.mono (le_refl _) (by unfold direntSize; omega)
      have hrest : AgreeOn buf buf' (direntSize * (e + 1))
          (direntSize * (e + 1 + n)) :=
        h.mono (by unfold direntSize; omega) (by unfold direntSize; omega)
      rw [findFrom, findFrom, firstByte_congr hentry, readDirent_congr hentry, ih hrest]

/-- The entry that a lookup returns depends on the bytes of the directory only. -/
theorem lookup_congr
    (want : List UInt8) (h : AgreeOn buf buf' 0 (direntSize * count)) :
    (findFrom buf' want count 0).map (readDirent buf') =
      (findFrom buf want count 0).map (readDirent buf) := by
  have hfind : findFrom buf' want count 0 = findFrom buf want count 0 :=
    findFrom_congr (h.mono (le_refl _) (by rw [Nat.zero_add]))
  rw [hfind]
  cases hfound : findFrom buf want count 0 with
  | none =>
      rfl
  | some i =>
      have hlt := (findFrom_zero_eq_some.mp hfound).1.lt
      have hsame : readDirent buf' i = readDirent buf i :=
        readDirent_congr (h.mono (Nat.zero_le _) (by unfold direntSize; omega))
      rw [Option.map_some, Option.map_some, hsame]

variable {name : List UInt8} {first size : Nat}

/-- Other entries keep their bytes. -/
theorem writeDirent_outside
    {x : Nat}
    (h : x < direntSize * e ∨ direntSize * e + direntSize ≤ x) :
    writeDirent buf e name first size x = buf x := by
  have hsize : direntSize = 32 := rfl
  simp only [writeDirent]
  rw [writeLE_outside (by omega), writeLE_outside (by omega),
    writeLE_outside (by omega), fill_outside (by omega),
    copyIn_outside (by omega), fill_outside (by omega)]

theorem agreeOn_writeDirent
    {d : Nat} (hd : d ≠ e) :
    AgreeOn buf (writeDirent buf e name first size) (direntSize * d)
      (direntSize * d + direntSize) := by
  intro x hx hx'
  refine writeDirent_outside ?_
  unfold direntSize at hx hx' ⊢
  omega

/-- The name of the written entry. -/
theorem writeDirent_name
    (hi : i < 11) :
    writeDirent buf e name first size (direntSize * e + i) = name.getD i 0 := by
  simp only [writeDirent]
  rw [writeLE_outside (by omega), writeLE_outside (by omega),
    writeLE_outside (by omega), fill_outside (by omega)]
  unfold copyIn
  rw [if_pos (by omega), Nat.add_sub_cancel_left]

theorem writeDirent_attr :
    writeDirent buf e name first size (direntSize * e + 11) = attrArchive := by
  simp only [writeDirent]
  rw [writeLE_outside (by omega), writeLE_outside (by omega),
    writeLE_outside (by omega)]
  unfold fill
  rw [if_pos (by omega)]

/-- Reading back the entry that was written. -/
theorem readDirent_writeDirent
    (hname : name.length = 11) :
    readDirent (writeDirent buf e name first size) e =
      ⟨name, attrArchive, first / 2 ^ 16 % 2 ^ 16, first % 2 ^ 16,
        size % 2 ^ 32⟩ := by
  have hbytes :
      (List.range 11).map (fun i =>
        writeDirent buf e name first size (direntSize * e + i)) = name := by
    refine List.ext_getElem (by simp [hname]) ?_
    intro i hi hi'
    simp only [List.length_map, List.length_range] at hi
    rw [List.getElem_map, List.getElem_range, writeDirent_name hi]
    simp [List.getD, List.getElem?_eq_getElem hi']
  have hhi : readLE (writeDirent buf e name first size) (direntSize * e + 20) 2 =
      first / 2 ^ 16 % 2 ^ 16 := by
    simp only [writeDirent]
    rw [readLE_writeLE_of_disjoint (by omega),
      readLE_writeLE_of_disjoint (by omega), readLE_writeLE_same]
    rfl
  have hlo : readLE (writeDirent buf e name first size) (direntSize * e + 26) 2 =
      first % 2 ^ 16 := by
    simp only [writeDirent]
    rw [readLE_writeLE_of_disjoint (by omega), readLE_writeLE_same]
    exact Nat.mod_mod _ _
  have hsize : readLE (writeDirent buf e name first size) (direntSize * e + 28) 4 =
      size % 2 ^ 32 := by
    simp only [writeDirent]
    rw [readLE_writeLE_same]
    rfl
  simp only [readDirent, hbytes, writeDirent_attr, hhi, hlo, hsize]

end Entries

end Fat16
end RebornOS
