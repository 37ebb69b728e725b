import RebornOS.Acpi

/-!
# What the ACPI tables say

The contents of the tables, stated over the bytes in memory: an RSDP that names a
root table, the first table with the signature `APIC` in the root table, and a
MADT as a list of entries that tile it.  `acpi_find_local_apic_ids` reports the
ids of the first enabled Local APIC entries of that list.
-/

namespace RebornOS
namespace Acpi

open ByteStore BootMemory Fallible
open Traced (result_bind result_pure)

variable {mem : Store} {madt : Nat}

section Contents

variable (mem : Store)

/-- The `n` bytes from `a` on, if they are mapped. -/
def bytesAt (a : Nat) : Nat → Option (List Nat)
  | 0 => some []
  | n + 1 => (byteAt mem a).bind (fun b => (bytesAt (a + 1) n).map (fun bs => b :: bs))

/-- The bytes sum to zero in eight bits. -/
def ZeroSum (bytes : List Nat) : Prop := bytes.sum % 256 = 0
deriving Decidable

/-- An RSDP that passes its checks, and the root table that it names: an XSDT if
`revision` is at least two and the extended checksum holds. -/
structure RsdpNames (rsdp root : Nat) (isXsdt : Bool) : Prop where
  given : rsdp ≠ 0
  signature : bytesAt mem rsdp 8 = some rsdpSignature
  checksum : ∃ bytes, bytesAt mem rsdp 20 = some bytes ∧ ZeroSum bytes
  extended : ∃ revision, byteAt mem (rsdp + 15) = some revision ∧
    if 2 ≤ revision then
      ∃ length bytes, fieldAt mem (rsdp + 20) 4 = some length ∧
        bytesAt mem rsdp length = some bytes ∧ (isXsdt = true ↔ ZeroSum bytes)
    else
      isXsdt = false
  address :
    (if isXsdt then fieldAt mem (rsdp + 24) 8 else fieldAt mem (rsdp + 16) 4) =
      some root

/-- A root table with a correct checksum that has a whole header. -/
structure RootTable (root length : Nat) : Prop where
  length_eq : fieldAt mem (root + 4) 4 = some length
  header : sdtHeaderSize ≤ length
  checksum : ∃ bytes, bytesAt mem root length = some bytes ∧ ZeroSum bytes

/-- The `k`-th pointer of the root table is the first one to a table with the
signature `APIC`. -/
structure FirstApic (root : Nat) (isXsdt : Bool) (length madt k : Nat) : Prop where
  within : k < (length - sdtHeaderSize) / entrySize isXsdt
  pointer : rootEntry mem root isXsdt k = some madt
  signature : bytesAt mem madt 4 = some madtSignature
  before : ∀ j, j < k → ∃ table bytes, rootEntry mem root isXsdt j = some table ∧
    bytesAt mem table 4 = some bytes ∧ bytes ≠ madtSignature

/-- An entry of the MADT. -/
inductive MadtEntry
  | localApic (id flags length : Nat)
  | other (type length : Nat)

namespace MadtEntry

def length : MadtEntry → Nat
  | localApic _ _ length => length
  | other _ length => length

/-- The id of an enabled Local APIC entry. -/
def enabledId : MadtEntry → Option Nat
  | localApic id flags _ => if flags % 2 = 1 then some id else none
  | other _ _ => none

end MadtEntry

/-- The entry at `a`. -/
def EntryAt (a : Nat) : MadtEntry → Prop
  | .localApic id flags length =>
      byteAt mem a = some madtEntryLocalApic ∧ byteAt mem (a + 1) = some length ∧
        8 ≤ length ∧ byteAt mem (a + 3) = some id ∧ fieldAt mem (a + 4) 4 = some flags
  | .other type length =>
      byteAt mem a = some type ∧ type ≠ madtEntryLocalApic ∧
        byteAt mem (a + 1) = some length ∧ length ≠ 0

/-- The entries from `offset` on tile the rest of a table of `length` bytes. -/
def EntriesAt (madt length : Nat) : Nat → List MadtEntry → Prop
  | offset, [] => offset = length
  | offset, e :: es =>
      EntryAt mem (madt + offset) e ∧ EntriesAt madt length (offset + e.length) es

/-- A MADT with the given entries. -/
def MadtAt (madt : Nat) (es : List MadtEntry) : Prop :=
  ∃ length, fieldAt mem (madt + 4) 4 = some length ∧
    EntriesAt mem madt length (sdtHeaderSize + 8) es

end Contents

/-- The ids of the enabled Local APIC entries, in order. -/
def enabledIds (es : List MadtEntry) : List Nat := es.filterMap MadtEntry.enabledId

section Checks

variable {t : Table} {a i n : Nat} {bs bytes : List Nat}

theorem bytesAt_succ
    (h : bytesAt mem a (n + 1) = some bs) :
    ∃ b rest, byteAt mem a = some b ∧ bytesAt mem (a + 1) n = some rest ∧
      bs = b :: rest := by
  rw [bytesAt, Option.bind_eq_some_iff] at h
  obtain ⟨b, hb, hrest⟩ := h
  obtain ⟨rest, htail, rfl⟩ := Option.map_eq_some_iff.mp hrest
  exact ⟨b, rest, hb, htail, rfl⟩

theorem exists_zeroSum
    (h : (bytesAt mem a n).any (fun bs => decide (ZeroSum bs)) = true) :
    ∃ bytes, bytesAt mem a n = some bytes ∧ ZeroSum bytes := by
  obtain ⟨bytes, hbytes, hzero⟩ := (Option.any_eq_true _ _).mp h
  exact ⟨bytes, hbytes, of_decide_eq_true hzero⟩

/-- A field of one byte. -/
theorem fieldAt_one : fieldAt mem a 1 = byteAt mem a := by
  rw [fieldAt]
  cases byteAt mem a with
  | none =>
      rfl
  | some b =>
      rfl

theorem result_load_byte
    {offset b : Nat} (h : byteAt mem (t.addr + offset) = some b) :
    (load mem t offset 1).result = .ok b := by
  rw [result_load, fieldAt_one, h]

/-- `checksum_ok` adds up the bytes. -/
theorem result_checksumLoop
    {sum : Nat} (h : bytesAt mem (t.addr + i) n = some bs) (hsum : sum < 256) :
    (checksumLoop mem t n i sum).result = .ok (decide ((sum + bs.sum) % 256 = 0)) := by
  induction n generalizing i sum bs with
  | zero =>
      obtain rfl : [] = bs := Option.some.inj h
      rw [checksumLoop, result_pure, List.sum_nil, Nat.add_zero, Nat.mod_eq_of_lt hsum]
  | succ n ih =>
      obtain ⟨b, rest, hb, hrest, rfl⟩ := bytesAt_succ h
      rw [checksumLoop, result_bind, result_load_byte hb]
      refine (ih hrest (Nat.mod_lt _ (by decide))).trans ?_
      rw [List.sum_cons, Nat.mod_add_mod, Nat.add_assoc]

theorem sums_of_bytesAt
    (h : bytesAt mem t.addr n = some bs) : Sums mem t n (decide (ZeroSum bs)) := by
  have hresult := result_checksumLoop (i := 0) h (by decide : 0 < 256)
  rw [Nat.zero_add] at hresult
  exact hresult

theorem sums_of_zeroSum
    (h : ∃ bytes, bytesAt mem t.addr n = some bytes ∧ ZeroSum bytes) :
    Sums mem t n true := by
  obtain ⟨bytes, hbytes, hzero⟩ := h
  have hsums := sums_of_bytesAt hbytes
  rwa [decide_eq_true hzero] at hsums

/-- `memcmp` compares the bytes. -/
theorem result_memcmpEq
    (h : bytesAt mem (t.addr + i) bytes.length = some bs) :
    (memcmpEq mem t i bytes).result = .ok (decide (bs = bytes)) := by
  induction bytes generalizing i bs with
  | nil =>
      obtain rfl : [] = bs := Option.some.inj h
      rfl
  | cons c bytes ih =>
      obtain ⟨b, rest, hb, hrest, rfl⟩ := bytesAt_succ h
      rw [memcmpEq, result_bind, result_load_byte hb]
      by_cases hbc : b = c
      · refine Eq.trans ?_ ((ih (i := i + 1) hrest).trans ?_)
        · simp [hbc, Bind.bind, Except.bind]
        · simp [hbc]
      · simp [hbc, Bind.bind, Except.bind]

theorem signed_of_bytesAt
    (h : bytesAt mem t.addr bytes.length = some bs) :
    Signed mem t bytes (decide (bs = bytes)) :=
  result_memcmpEq (i := 0) h

theorem signed_of_signature
    (h : bytesAt mem t.addr bytes.length = some bytes) : Signed mem t bytes true := by
  have hsigned := signed_of_bytesAt h
  rwa [decide_eq_true rfl] at hsigned

end Checks

section Search

variable {k length root rsdp : Nat} {isXsdt : Bool}

theorem RsdpNames.namesRoot
    (h : RsdpNames mem rsdp root isXsdt) : NamesRoot mem rsdp root isXsdt where
  given := h.given
  signed := signed_of_signature h.signature
  sums := sums_of_zeroSum h.checksum
  extended := by
    obtain ⟨revision, hrevision, hrest⟩ := h.extended
    refine ⟨revision, fieldAt_one.trans hrevision, ?_⟩
    split_ifs at hrest ⊢ with htwo
    · obtain ⟨length, bytes, hlength, hbytes, hzero⟩ := hrest
      have hsums : Sums mem (.rsdp rsdp) length _ := sums_of_bytesAt hbytes
      have hsame : decide (ZeroSum bytes) = isXsdt := by
        rw [Bool.eq_iff_iff, decide_eq_true_iff]
        exact hzero.symm
      exact ⟨length, hlength, hsame ▸ hsums⟩
    · exact hrest
  address := h.address

theorem FirstApic.firstMadt
    (h : FirstApic mem root isXsdt length madt k) :
    FirstMadt mem root isXsdt ((length - sdtHeaderSize) / entrySize isXsdt) 0 madt := by
  refine ⟨k, h.within, ?_, ?_, fun j hj => ?_⟩
  · rw [Nat.zero_add]
    exact h.pointer
  · exact signed_of_signature h.signature
  · obtain ⟨table, bytes, hentry, hbytes, hne⟩ := h.before j hj
    have hsigned : Signed mem (.sdt table) madtSignature _ := signed_of_bytesAt hbytes
    rw [decide_eq_false hne] at hsigned
    rw [Nat.zero_add]
    exact ⟨table, hentry, hsigned⟩

end Search

section Walk

variable {length maxIds n offset : Nat} {e : MadtEntry} {es : List MadtEntry}
  {ids : List Nat}

/-- Entries do not reach beyond the end of the table they tile. -/
theorem EntriesAt.le
    (h : EntriesAt mem madt length offset es) : offset ≤ length := by
  induction es generalizing offset with
  | nil =>
      exact h.le
  | cons e es ih =>
      exact le_trans (Nat.le_add_right _ _) (ih h.2)

theorem EntryAt.length_eq
    {a : Nat} (h : EntryAt mem a e) :
    byteAt mem (a + 1) = some e.length ∧ e.length ≠ 0 := by
  cases e with
  | localApic id flags length =>
      obtain ⟨-, hlength, hge, -, -⟩ := h
      exact ⟨hlength, Nat.ne_zero_of_lt hge⟩
  | other type length =>
      exact ⟨h.2.2.1, h.2.2.2⟩

/-- The ids after an entry, of which at most `maxIds` are kept. -/
def keepId (maxIds : Nat) (ids : List Nat) (e : MadtEntry) : List Nat :=
  ids ++ e.enabledId.toList.take (maxIds - ids.length)

/-- A Local APIC entry: its id is kept if it is enabled and there is room. -/
theorem result_addLocalApic
    {id flags length : Nat} (maxIds : Nat) (ids : List Nat)
    (hid : byteAt mem (madt + offset + 3) = some id)
    (hflags : fieldAt mem (madt + offset + 4) 4 = some flags) :
    (addLocalApic mem maxIds madt offset ids).result =
      .ok (keepId maxIds ids (.localApic id flags length)) := by
  have hload : (load mem (.sdt madt) (offset + 4) 4).result = .ok flags :=
    result_load.mpr hflags
  have hloadId : (load mem (.sdt madt) (offset + 3) 1).result = .ok id :=
    result_load_byte hid
  rw [addLocalApic, result_bind, hload, ok_bind]
  by_cases henabled : flags % 2 = 1 ∧ ids.length < maxIds
  · have hroom : maxIds - ids.length = maxIds - ids.length - 1 + 1 := by omega
    rw [if_pos henabled, result_bind, hloadId, ok_bind,
      Traced.result_emit, keepId, MadtEntry.enabledId, if_pos henabled.1,
      Option.toList_some, hroom, List.take_succ_cons, List.take_nil]
  · rw [if_neg henabled, result_pure, keepId, MadtEntry.enabledId]
    split_ifs with hflag
    · have hfull : maxIds - ids.length = 0 := by
        rw [not_and] at henabled
        have hle := henabled hflag
        omega
      rw [hfull, List.take_zero, List.append_nil]
    · rw [Option.toList_none, List.take_nil, List.append_nil]

theorem result_visitEntry
    (maxIds : Nat) (ids : List Nat) (h : EntryAt mem (madt + offset) e) :
    ∃ type, byteAt mem (madt + offset) = some type ∧
      (visitEntry mem maxIds madt offset type ids).result =
        .ok (keepId maxIds ids e) := by
  cases e with
  | localApic id flags length =>
      obtain ⟨htype, -, -, hid, hflags⟩ := h
      refine ⟨madtEntryLocalApic, htype, ?_⟩
      rw [visitEntry, if_pos rfl]
      exact result_addLocalApic maxIds ids hid hflags
  | other type length =>
      refine ⟨type, h.1, ?_⟩
      rw [visitEntry, if_neg h.2.1, result_pure]
      simp [keepId, MadtEntry.enabledId]

/-- The ids of all entries, taken one entry after the other. -/
theorem keepId_append_enabledIds
    (maxIds : Nat) (ids : List Nat) (e : MadtEntry) (es : List MadtEntry) :
    keepId maxIds ids e ++ (enabledIds es).take (maxIds - (keepId maxIds ids e).length) =
      ids ++ (enabledIds (e :: es)).take (maxIds - ids.length) := by
  have hcons : enabledIds (e :: es) = e.enabledId.toList ++ enabledIds es := by
    rw [enabledIds, List.filterMap_cons]
    cases e.enabledId with
    | none =>
        rfl
    | some id =>
        rfl
  have hlength : maxIds - (keepId maxIds ids e).length =
      maxIds - ids.length - e.enabledId.toList.length := by
    rw [keepId, List.length_append, List.length_take]
    omega
  rw [hcons, List.take_append, hlength, keepId, List.append_assoc]

/-- The walk keeps the enabled ids of the entries that are left. -/
theorem result_walkMadt
    (maxIds : Nat) (ids : List Nat) (h : EntriesAt mem madt length offset es)
    (hmadt : madt < identityLimit) (hlength : length < 2 ^ 32)
    (hn : length - offset < n) :
    (walkMadt mem maxIds madt length n offset ids).result =
      .ok (ids ++ (enabledIds es).take (maxIds - ids.length)) := by
  induction es generalizing offset ids n with
  | nil =>
      obtain ⟨n, rfl⟩ := Nat.exists_eq_succ_of_ne_zero (Nat.ne_zero_of_lt hn)
      obtain rfl : offset = length := h
      rw [walkMadt, if_neg (lt_irrefl _), result_pure]
      simp [enabledIds]
  | cons e es ih =>
      obtain ⟨n, rfl⟩ := Nat.exists_eq_succ_of_ne_zero (Nat.ne_zero_of_lt hn)
      obtain ⟨hentry, hrest⟩ := h
      obtain ⟨hlen, hne⟩ := hentry.length_eq
      obtain ⟨type, htype, hvisit⟩ := result_visitEntry maxIds ids hentry
      have hle := hrest.le
      have hin : (madt + offset) % 2 ^ 64 < (madt + length) % 2 ^ 64 :=
        (cursor_lt_iff hmadt hlength (by omega)).mpr (by omega)
      have hloadLen : (load mem (.sdt madt) (offset + 1) 1).result = .ok e.length :=
        result_load_byte hlen
      have hloadType : (load mem (.sdt madt) offset 1).result = .ok type :=
        result_load_byte htype
      simp only [walkMadt, if_pos hin, result_bind, hloadLen, ok_bind,
        if_neg hne, hloadType, hvisit]
      rw [ih (keepId maxIds ids e) hrest (by omega), keepId_append_enabledIds]

end Walk

section Report

variable {k length maxIds root rsdp : Nat} {isXsdt : Bool} {es : List MadtEntry}

theorem result_collectIds
    (maxIds : Nat) (h : MadtAt mem madt es) (hmadt : madt < identityLimit) :
    (collectIds mem maxIds madt).result =
      .ok (decide (0 < ((enabledIds es).take maxIds).length),
        (enabledIds es).take maxIds) := by
  obtain ⟨length, hfield, hentries⟩ := h
  have hload : (load mem (.sdt madt) 4 4).result = .ok length := result_load.mpr hfield
  have hwalk := result_walkMadt maxIds [] hentries hmadt
    (fieldAt_lt 4 _ _ hfield) (by omega : length - (sdtHeaderSize + 8) < length + 1)
  simp only [collectIds, result_bind, hload, ok_bind, hwalk,
    result_pure, List.nil_append, List.length_nil, Nat.sub_zero]

/-- The search of a root table ends at its first MADT. -/
theorem result_searchRoot
    (maxIds : Nat) (hroot : RootTable mem root length)
    (hfirst : FirstApic mem root isXsdt length madt k) :
    (searchRoot mem maxIds root isXsdt).result =
      (collectIds mem maxIds madt).result := by
  have hload : (load mem (.sdt root) 4 4).result = .ok length :=
    result_load.mpr hroot.length_eq
  have hsums : (checksumOk mem (.sdt root) length).result = .ok true :=
    sums_of_zeroSum hroot.checksum
  have hfind : (findMadt mem root isXsdt (entryCount length isXsdt) 0).result =
      .ok (some madt) := by
    rw [entryCount_eq (fieldAt_lt 4 _ _ hroot.length_eq) hroot.header, result_findMadt]
    exact hfirst.firstMadt
  rw [searchRoot, result_bind, hload, ok_bind, result_bind, hsums, ok_bind,
    if_neg Bool.noConfusion, result_bind, hfind, ok_bind]

/-- **The MADT is parsed exactly.**  With a valid RSDP, a root table with a correct
checksum and a whole header, and a first table with the signature `APIC` that its
entries tile, the ids reported are those of the first `maxIds` enabled Local APIC
entries, and the result says whether there is one. -/
theorem acpiFindLocalApicIds_exact
    (hrsdp : RsdpNames mem rsdp root isXsdt) (hroot : RootTable mem root length)
    (hfirst : FirstApic mem root isXsdt length madt k) (hmadt : MadtAt mem madt es) :
    (acpiFindLocalApicIds mem maxIds rsdp).result =
      .ok (decide ((enabledIds es).take maxIds ≠ []), (enabledIds es).take maxIds) := by
  have hfindRoot : (findRoot mem rsdp).result = .ok (some (root, isXsdt)) :=
    result_findRoot.mpr hrsdp.namesRoot
  have hcollect := result_collectIds maxIds hmadt hfirst.firstMadt.mapped
  rw [decide_eq_decide.mpr List.length_pos_iff] at hcollect
  rw [acpiFindLocalApicIds, result_bind, hfindRoot, ok_bind]
  exact (result_searchRoot maxIds hroot hfirst).trans hcollect

/-- An RSDP at 4096, an RSDT at 4120 that lists a `FACP` table and a MADT, and the
MADT at 4168 with an I/O APIC between two processors. -/
def twoProcessors : Store :=
  placed 4096
    (sampleRsdp ++
      sdtHeader [82, 83, 68, 84] 44 234 ++ [68, 16, 0, 0, 72, 16, 0, 0] ++
      [70, 65, 67, 80] ++
      sdtHeader [65, 80, 73, 67] 72 0 ++ [0, 0, 224, 254, 1, 0, 0, 0] ++
      [0, 8, 0, 0, 1, 0, 0, 0] ++ [1, 12, 2, 0, 0, 0, 192, 254, 0, 0, 0, 0] ++
      [0, 8, 1, 3, 1, 0, 0, 0])

/-- Both ids are reported if there is room for them, and the first one otherwise. -/
theorem acpiFindLocalApicIds_exact_twoProcessors :
    (acpiFindLocalApicIds twoProcessors 16 4096).result = .ok (true, [0, 3]) ∧
      (acpiFindLocalApicIds twoProcessors 1 4096).result = .ok (true, [0]) := by
  have hrsdp : RsdpNames twoProcessors 4096 4120 false :=
    { given := by decide
      signature := by decide
      checksum := exists_zeroSum (by decide)
      extended := ⟨0, by decide, rfl⟩
      address := by decide }
  have hroot : RootTable twoProcessors 4120 44 :=
    { length_eq := by decide
      header := by decide
      checksum := exists_zeroSum (by decide) }
  have hfirst : FirstApic twoProcessors 4120 false 44 4168 1 :=
    { within := by decide
      pointer := by decide
      signature := by decide
      before := by
        intro j hj
        obtain rfl : j = 0 := by omega
        exact ⟨4164, [70, 65, 67, 80], by decide, by decide, by decide⟩ }
  have hmadt : MadtAt twoProcessors 4168
      [.localApic 0 1 8, .other 1 12, .localApic 3 1 8] := by
    refine ⟨72, by decide, ?_⟩
    refine ⟨?_, ?_, ?_, rfl⟩
    · exact ⟨by decide, by decide, by decide, by decide,
        by decide⟩
    · exact ⟨by decide, by decide, by decide, by decide⟩
    · exact ⟨by decide, by decide, by decide, by decide,
        by decide⟩
  exact ⟨acpiFindLocalApicIds_exact hrsdp hroot hfirst hmadt,
    acpiFindLocalApicIds_exact hrsdp hroot hfirst hmadt⟩

end Report

end Acpi
end RebornOS
