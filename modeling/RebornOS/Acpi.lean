import RebornOS.BootMemory
import RebornOS.Traced

/-!
# Reading the ACPI tables

`acpi_find_local_apic_ids` follows the firmware's pointers from the RSDP to the
root table and from there to the MADT, and collects the APIC ids of the enabled
processors.  Every length on the way is a field of the table it is about.

The trace has every load with the table it is made through, its offset in that
table and its width, and every store into `out_ids`.  A load outside the range
that `vmm_init` identity-maps is recorded before the page fault ends the call.

* `acpiFindLocalApicIds` is the function as the source computes it.
* `NamesRoot`, `FirstMadt` and `NextEntry` say what the tables contain, in terms
  of memory alone.
* `reads_bounded_iff` says for which tables every load stays inside them.
-/

namespace RebornOS
namespace Acpi

open ByteStore BootMemory Fallible
open Traced (result_bind)

variable {α : Type} {i k length madt maxIds n offset root rsdp table type : Nat}
  {isXsdt : Bool} {mem : Store} {ids : List Nat}

section Model

/-- A structure in memory, with its address. -/
inductive Table
  | rsdp (addr : Nat)
  | sdt (addr : Nat)
deriving DecidableEq

def Table.addr : Table → Nat
  | .rsdp a => a
  | .sdt a => a

inductive Access
  | load (table : Table) (offset width : Nat)
  | storeId (index : Nat)
deriving DecidableEq

/-- Why a call does not return. -/
inductive Stop
  /-- `exception_handler` panics on a page fault in ring 0. -/
  | pageFault
  /-- `panic("acpi: root system description table failed its checksum")`. -/
  | rootChecksum
  /-- The walk over the MADT does not end. -/
  | endless
deriving DecidableEq

/-- `sizeof(sdt_header_t)`. -/
def sdtHeaderSize : Nat := 36

/-- `MADT_ENTRY_LOCAL_APIC`. -/
def madtEntryLocalApic : Nat := 0

/-- The bytes of `"RSD PTR "`. -/
def rsdpSignature : List Nat := [82, 83, 68, 32, 80, 84, 82, 32]

/-- The bytes of `"APIC"`. -/
def madtSignature : List Nat := [65, 80, 73, 67]

variable (mem : Store)

/-- The byte at `a`, if that is mapped. -/
def byteAt (a : Nat) : Option Nat :=
  if a % 2 ^ 64 < identityLimit then some (mem (a % 2 ^ 64)).toNat else none

/-- The little-endian number in the `n` bytes from `a` on, if they are mapped. -/
def fieldAt (a : Nat) : Nat → Option Nat
  | 0 => some 0
  | n + 1 =>
      (byteAt mem a).bind (fun b => (fieldAt (a + 1) n).map (fun v => b + 256 * v))

/-- A load through a pointer to the table. -/
def load (t : Table) (offset width : Nat) : Traced Stop Access Nat where
  events := [.load t offset width]
  result :=
    match fieldAt mem (t.addr + offset) width with
    | some v => .ok v
    | none => .error .pageFault

/-- The loop of `checksum_ok` with `n` rounds left. -/
def checksumLoop (t : Table) : Nat → Nat → Nat → Traced Stop Access Bool
  | 0, _, sum => pure (sum = 0)
  | n + 1, i, sum => do
      let b ← load mem t i 1
      checksumLoop t n (i + 1) ((sum + b) % 256)

/-- `checksum_ok`. -/
def checksumOk (t : Table) (len : Nat) : Traced Stop Access Bool :=
  checksumLoop mem t len 0 0

/-- `memcmp(t + i, bytes, sizeof(bytes)) == 0`. -/
def memcmpEq (t : Table) : Nat → List Nat → Traced Stop Access Bool
  | _, [] => pure true
  | i, b :: bytes => do
      let a ← load mem t i 1
      if a = b then memcmpEq t (i + 1) bytes else pure false

/-- `rsdp->revision >= 2 && checksum_ok(rsdp, rsdp->length)`. -/
def extendedOk (rsdp : Nat) : Traced Stop Access Bool := do
  let revision ← load mem (.rsdp rsdp) 15 1
  if 2 ≤ revision then do
    let length ← load mem (.rsdp rsdp) 20 4
    checksumOk mem (.rsdp rsdp) length
  else
    pure false

/-- `rsdp->xsdt_address` or `rsdp->rsdt_address`. -/
def rootAddress (rsdp : Nat) (isXsdt : Bool) : Traced Stop Access Nat :=
  if isXsdt then load mem (.rsdp rsdp) 24 8 else load mem (.rsdp rsdp) 16 4

/-- The first part of the function: the root table, and whether it is an XSDT. -/
def findRoot (rsdp : Nat) : Traced Stop Access (Option (Nat × Bool)) :=
  if rsdp = 0 then
    pure none
  else do
    let signed ← memcmpEq mem (.rsdp rsdp) 0 rsdpSignature
    if signed = false then
      pure none
    else do
      let sums ← checksumOk mem (.rsdp rsdp) 20
      if sums = false then
        pure none
      else do
        let isXsdt ← extendedOk mem rsdp
        let root ← rootAddress mem rsdp isXsdt
        pure (some (root, isXsdt))

/-- `entry_size`. -/
def entrySize (isXsdt : Bool) : Nat := if isXsdt then 8 else 4

/-- `entry_count`, computed in 32 bits. -/
def entryCount (length : Nat) (isXsdt : Bool) : Nat :=
  (length + (2 ^ 32 - sdtHeaderSize)) % 2 ^ 32 / entrySize isXsdt

/-- The loop over the root table's entries, from entry `i` on. -/
def findMadt (root : Nat) (isXsdt : Bool) :
    Nat → Nat → Traced Stop Access (Option Nat)
  | 0, _ => pure none
  | n + 1, i => do
      let table ← load mem (.sdt root) (sdtHeaderSize + i * entrySize isXsdt)
        (entrySize isXsdt)
      let found ← memcmpEq mem (.sdt table) 0 madtSignature
      if found then pure (some table) else findMadt root isXsdt n (i + 1)

variable (maxIds : Nat)

/-- A Local APIC entry at `offset`. -/
def addLocalApic (madt offset : Nat) (ids : List Nat) :
    Traced Stop Access (List Nat) := do
  let flags ← load mem (.sdt madt) (offset + 4) 4
  if flags % 2 = 1 ∧ ids.length < maxIds then do
    let id ← load mem (.sdt madt) (offset + 3) 1
    .emit [.storeId ids.length] (ids ++ [id])
  else
    pure ids

/-- An entry of the given type at `offset`. -/
def visitEntry (madt offset type : Nat) (ids : List Nat) :
    Traced Stop Access (List Nat) :=
  if type = madtEntryLocalApic then
    addLocalApic mem maxIds madt offset ids
  else
    pure ids

/-- The walk over the MADT's entries; `cursor` is the table's address and `offset`. -/
def walkMadt (madt length : Nat) :
    Nat → Nat → List Nat → Traced Stop Access (List Nat)
  | 0, _, _ => .fail .endless
  | n + 1, offset, ids =>
      if (madt + offset) % 2 ^ 64 < (madt + length) % 2 ^ 64 then do
        let entryLength ← load mem (.sdt madt) (offset + 1) 1
        if entryLength = 0 then
          pure ids
        else do
          let type ← load mem (.sdt madt) offset 1
          let ids ← visitEntry mem maxIds madt offset type ids
          walkMadt madt length n (offset + entryLength) ids
      else
        pure ids

/-- What follows once the MADT is known. -/
def collectIds (madt : Nat) : Traced Stop Access (Bool × List Nat) := do
  let length ← load mem (.sdt madt) 4 4
  let ids ← walkMadt mem maxIds madt length (length + 1) (sdtHeaderSize + 8) []
  pure (decide (0 < ids.length), ids)

/-- What follows once the root table is known. -/
def searchRoot (root : Nat) (isXsdt : Bool) :
    Traced Stop Access (Bool × List Nat) := do
  let length ← load mem (.sdt root) 4 4
  let sums ← checksumOk mem (.sdt root) length
  if sums = false then
    .fail .rootChecksum
  else do
    match ← findMadt mem root isXsdt (entryCount length isXsdt) 0 with
    | none => pure (false, [])
    | some madt => collectIds mem maxIds madt

/-- `acpi_find_local_apic_ids`: its result and the ids in `out_ids`. -/
def acpiFindLocalApicIds (rsdp : Nat) : Traced Stop Access (Bool × List Nat) := do
  match ← findRoot mem rsdp with
  | none => pure (false, [])
  | some (root, isXsdt) => searchRoot mem maxIds root isXsdt

end Model

variable {P : Access → Prop} {G : ∀ {α : Type}, Traced Stop Access α → Prop}

section Specification

variable (mem : Store)

/-- The length field of the table at `addr`. -/
def sdtLength (addr : Nat) : Nat := (fieldAt mem (addr + 4) 4).getD 0

/-- Loads lie in the fixed header or below the table's length, stores in `out_ids`. -/
def Inside (maxIds : Nat) : Access → Prop
  | .load (.rsdp _) _ _ => True
  | .load (.sdt addr) offset width =>
      offset + width ≤ max sdtHeaderSize (sdtLength mem addr)
  | .storeId index => index < maxIds

/-- The call ends, and every access of it is inside. -/
structure BoundedAccess (maxIds : Nat)
    (t : Traced Stop Access (Bool × List Nat)) : Prop where
  ends : t.result ≠ .error .endless
  inside : t.All (Inside mem maxIds)

/-- The bytes of the table sum to zero (`b = true`) or not. -/
def Sums (t : Table) (len : Nat) (b : Bool) : Prop :=
  (checksumOk mem t len).result = .ok b

/-- The table begins with the bytes (`b = true`) or not. -/
def Signed (t : Table) (bytes : List Nat) (b : Bool) : Prop :=
  (memcmpEq mem t 0 bytes).result = .ok b

/-- The RSDP has an extended part with a correct checksum (`b = true`) or not. -/
def Extended (rsdp : Nat) (b : Bool) : Prop :=
  ∃ revision, fieldAt mem (rsdp + 15) 1 = some revision ∧
    if 2 ≤ revision then
      ∃ length, fieldAt mem (rsdp + 20) 4 = some length ∧ Sums mem (.rsdp rsdp) length b
    else
      b = false

/-- The RSDP is valid and names the root table. -/
structure NamesRoot (rsdp root : Nat) (isXsdt : Bool) : Prop where
  given : rsdp ≠ 0
  signed : Signed mem (.rsdp rsdp) rsdpSignature true
  sums : Sums mem (.rsdp rsdp) 20 true
  extended : Extended mem rsdp isXsdt
  address :
    (if isXsdt then fieldAt mem (rsdp + 24) 8 else fieldAt mem (rsdp + 16) 4) =
      some root

/-- Entry `i` of the root table. -/
def rootEntry (root : Nat) (isXsdt : Bool) (i : Nat) : Option Nat :=
  fieldAt mem (root + (sdtHeaderSize + i * entrySize isXsdt)) (entrySize isXsdt)

/-- The first of `n` entries, from entry `i` on, that names a MADT. -/
def FirstMadt (root : Nat) (isXsdt : Bool) (n i madt : Nat) : Prop :=
  ∃ k, k < n ∧ rootEntry mem root isXsdt (i + k) = some madt ∧
    Signed mem (.sdt madt) madtSignature true ∧
    ∀ j, j < k → ∃ table, rootEntry mem root isXsdt (i + j) = some table ∧
      Signed mem (.sdt table) madtSignature false

/-- The entry at `offset` is followed by one at `offset'`. -/
def NextEntry (madt length offset offset' : Nat) : Prop :=
  offset < length ∧
    ∃ entryLength type, fieldAt mem (madt + (offset + 1)) 1 = some entryLength ∧
      fieldAt mem (madt + offset) 1 = some type ∧ entryLength ≠ 0 ∧
      offset' = offset + entryLength ∧
      (type = madtEntryLocalApic → fieldAt mem (madt + (offset + 4)) 4 ≠ none)

/-- The entry at `offset` does not straddle the end, as far as it is looked at. -/
def EntryFits (madt length offset : Nat) : Prop :=
  offset < length →
    offset + 2 ≤ length ∧
      ∀ entryLength, fieldAt mem (madt + (offset + 1)) 1 = some entryLength →
        entryLength ≠ 0 →
        fieldAt mem (madt + offset) 1 = some madtEntryLocalApic →
          offset + 8 ≤ length

/-- Every entry fits that is reached by following the lengths from `offset` on. -/
def EntriesFit (madt length offset : Nat) : Prop :=
  ∀ offset', Relation.ReflTransGen (NextEntry mem madt length) offset offset' →
    EntryFits mem madt length offset'

/--
A root table with a correct checksum is at least as long as its header, and if it
lists a MADT, no entry of that straddles the end.
-/
def TablesFit (rsdp : Nat) : Prop :=
  ∀ root isXsdt length, NamesRoot mem rsdp root isXsdt →
    fieldAt mem (root + 4) 4 = some length → Sums mem (.sdt root) length true →
      sdtHeaderSize ≤ length ∧
        ∀ madt madtLength,
          FirstMadt mem root isXsdt ((length - sdtHeaderSize) / entrySize isXsdt) 0
            madt →
          fieldAt mem (madt + 4) 4 = some madtLength →
            EntriesFit mem madt madtLength (sdtHeaderSize + 8)

end Specification

section Primitives

variable {t : Table} {a v width : Nat}

theorem byteAt_lt
    (h : byteAt mem a = some v) : v < 256 ∧ a % 2 ^ 64 < identityLimit := by
  unfold byteAt at h
  split_ifs at h with hmapped
  cases h
  exact ⟨(mem (a % 2 ^ 64)).toNat_lt, hmapped⟩

/-- A field that can be read is mapped from its first byte on. -/
theorem mapped_of_fieldAt
    (h : fieldAt mem a (n + 1) = some v) : a % 2 ^ 64 < identityLimit := by
  rw [fieldAt, Option.bind_eq_some_iff] at h
  obtain ⟨b, hb, _⟩ := h
  exact (byteAt_lt hb).2

theorem fieldAt_lt
    (n : Nat) : ∀ a v, fieldAt mem a n = some v → v < 256 ^ n := by
  induction n with
  | zero =>
      intro a v h
      cases h
      exact Nat.one_pos
  | succ n ih =>
      intro a v h
      rw [fieldAt, Option.bind_eq_some_iff] at h
      obtain ⟨b, hb, hv⟩ := h
      obtain ⟨w, hw, rfl⟩ := Option.map_eq_some_iff.mp hv
      have hb' := (byteAt_lt hb).1
      have hw' := ih (a + 1) w hw
      rw [Nat.pow_succ]
      omega

/-- A mapped byte can be read. -/
theorem fieldAt_one_of_mapped
    (h : a % 2 ^ 64 < identityLimit) : ∃ v, fieldAt mem a 1 = some v := by
  refine ⟨(mem (a % 2 ^ 64)).toNat + 256 * 0, ?_⟩
  rw [fieldAt, byteAt, if_pos h]
  rfl

theorem result_load :
    (load mem t offset width).result = .ok v ↔
      fieldAt mem (t.addr + offset) width = some v := by
  unfold load
  cases fieldAt mem (t.addr + offset) width with
  | none =>
      simp
  | some w =>
      simp

/--
A property of computations that holds if it holds of the accesses they make: to
have no access outside, and not to be endless.
-/
structure AccessRule (G : ∀ {α : Type}, Traced Stop Access α → Prop)
    (P : Access → Prop) : Prop where
  sequential : Traced.Sequential (@G)
  load : ∀ {mem : Store} {t : Table} {offset width : Nat},
    G (load mem t offset width) ↔ P (.load t offset width)
  storeId : ∀ {index : Nat} {ids : List Nat},
    G (Traced.emit [.storeId index] ids) ↔ P (.storeId index)

theorem accessRule_all
    (P : Access → Prop) : AccessRule (Traced.All P) P :=
  ⟨Traced.sequential_all P, List.forall_mem_singleton, List.forall_mem_singleton⟩

theorem accessRule_ends :
    AccessRule (fun {_} t => t.result ≠ .error Stop.endless) (fun _ => True) := by
  refine
    ⟨Traced.sequential_result_ne Stop.endless, ?_, iff_of_true (by simp) trivial⟩
  intro mem t offset width
  refine iff_of_true ?_ trivial
  unfold load
  cases fieldAt mem (t.addr + offset) width with
  | none =>
      simp
  | some w =>
      simp

/-- A load, and what is done with its value. -/
theorem AccessRule.load_bind
    (hG : AccessRule (@G) P) {f : Nat → Traced Stop Access α} :
    G (Acpi.load mem t offset width >>= f) ↔
      P (.load t offset width) ∧
        ∀ v, fieldAt mem (t.addr + offset) width = some v → G (f v) := by
  rw [hG.sequential.bind, hG.load]
  simp only [result_load]

theorem AccessRule.checksumLoop
    (hG : AccessRule (@G) P) (n : Nat) :
    ∀ i sum, (∀ k, i ≤ k → k < i + n → P (.load t k 1)) →
      G (checksumLoop mem t n i sum) := by
  induction n with
  | zero =>
      intro i sum _
      exact hG.sequential.pure _
  | succ n ih =>
      intro i sum h
      refine hG.load_bind.mpr ⟨h i (le_refl i) (by omega), fun b _ => ?_⟩
      exact ih (i + 1) _ (fun k hk hlt => h k (by omega) (by omega))

theorem AccessRule.checksumOk
    (hG : AccessRule (@G) P) {len : Nat} (h : ∀ k, k < len → P (.load t k 1)) :
    G (checksumOk mem t len) :=
  hG.checksumLoop len 0 0 (fun k _ hk => h k (by omega))

theorem AccessRule.memcmpEq
    (hG : AccessRule (@G) P) (bytes : List Nat) :
    ∀ i, (∀ k, i ≤ k → k < i + bytes.length → P (.load t k 1)) →
      G (memcmpEq mem t i bytes) := by
  induction bytes with
  | nil =>
      intro i _
      exact hG.sequential.pure _
  | cons b bytes ih =>
      intro i h
      rw [List.length_cons] at h
      refine hG.load_bind.mpr ⟨h i (le_refl i) (by omega), fun a _ => ?_⟩
      split_ifs
      · exact ih (i + 1) (fun k hk hlt => h k (by omega) (by omega))
      · exact hG.sequential.pure _

/-- A signature that is there is mapped, so that the table's address is too. -/
theorem mapped_of_signed
    {b : Nat} {bytes : List Nat} (h : Signed mem t (b :: bytes) true) :
    t.addr % 2 ^ 64 < identityLimit := by
  unfold Signed at h
  rw [memcmpEq, result_bind, bind_eq_ok] at h
  obtain ⟨v, hv, _⟩ := h
  rw [result_load, Nat.add_zero] at hv
  exact mapped_of_fieldAt hv

end Primitives

section Root

/-- Up to the root table's address, every load is from the RSDP. -/
theorem AccessRule.findRoot
    (hG : AccessRule (@G) P)
    (hrsdp : ∀ offset width, P (.load (.rsdp rsdp) offset width)) :
    G (findRoot mem rsdp) := by
  unfold Acpi.findRoot
  split_ifs
  · exact hG.sequential.pure _
  refine (hG.sequential.bind _ _).mpr
    ⟨hG.memcmpEq _ 0 (fun k _ _ => hrsdp k 1), fun signed _ => ?_⟩
  split_ifs
  · exact hG.sequential.pure _
  refine (hG.sequential.bind _ _).mpr
    ⟨hG.checksumOk (fun k _ => hrsdp k 1), fun sums _ => ?_⟩
  split_ifs
  · exact hG.sequential.pure _
  refine (hG.sequential.bind _ _).mpr ⟨?_, fun isXsdt _ => ?_⟩
  · refine hG.load_bind.mpr ⟨hrsdp 15 1, fun revision _ => ?_⟩
    split_ifs
    · exact hG.load_bind.mpr
        ⟨hrsdp 20 4, fun length _ => hG.checksumOk (fun k _ => hrsdp k 1)⟩
    · exact hG.sequential.pure _
  · refine (hG.sequential.bind_pure _ _).mpr ?_
    unfold rootAddress
    split_ifs
    · exact hG.load.mpr (hrsdp 24 8)
    · exact hG.load.mpr (hrsdp 16 4)

theorem result_extendedOk :
    (extendedOk mem rsdp).result = .ok isXsdt ↔ Extended mem rsdp isXsdt := by
  unfold extendedOk Extended Sums
  rw [result_bind, bind_eq_ok]
  simp only [result_load, Table.addr]
  refine exists_congr (fun revision => and_congr_right (fun _ => ?_))
  split_ifs
  · rw [result_bind, bind_eq_ok]
    simp only [result_load, Table.addr]
  · rw [Traced.result_pure, Except.ok.injEq, eq_comm]

theorem result_rootAddress :
    (rootAddress mem rsdp isXsdt).result = .ok root ↔
      (if isXsdt then fieldAt mem (rsdp + 24) 8 else fieldAt mem (rsdp + 16) 4) =
        some root := by
  unfold rootAddress
  split_ifs
  · exact result_load
  · exact result_load

/-- A test in front of the rest: only if it succeeds can something be found. -/
theorem result_guard
    {t : Traced Stop Access Bool} {f : Traced Stop Access (Option α)} {x : α} :
    (t >>= fun b => if b = false then pure none else f).result = .ok (some x) ↔
      t.result = .ok true ∧ f.result = .ok (some x) := by
  rw [result_bind, bind_eq_ok]
  constructor
  · rintro ⟨b, hb, hrest⟩
    cases b with
    | false =>
        cases hrest
    | true =>
        exact ⟨hb, hrest⟩
  · rintro ⟨hb, hrest⟩
    exact ⟨true, hb, hrest⟩

/-- The root table is found exactly when a valid RSDP names it. -/
theorem result_findRoot :
    (findRoot mem rsdp).result = .ok (some (root, isXsdt)) ↔
      NamesRoot mem rsdp root isXsdt := by
  unfold findRoot
  split_ifs with hzero
  · refine iff_of_false (fun h => by cases h) (fun h => h.given hzero)
  rw [result_guard, result_guard, result_bind, bind_eq_ok]
  simp only [result_bind, bind_eq_ok, Traced.result_pure, Except.ok.injEq,
    Option.some.injEq, Prod.mk.injEq, result_extendedOk, result_rootAddress]
  constructor
  · rintro ⟨hsigned, hsums, _, hext, _, haddr, rfl, rfl⟩
    exact ⟨hzero, hsigned, hsums, hext, haddr⟩
  · rintro ⟨_, hsigned, hsums, hext, haddr⟩
    exact ⟨hsigned, hsums, isXsdt, hext, root, haddr, rfl, rfl⟩

/-- The loop over the root table loads its entries and the signatures they name. -/
theorem AccessRule.findMadt
    (hG : AccessRule (@G) P)
    (hsigned : ∀ table k, k < 4 → P (.load (.sdt table) k 1)) (n : Nat) :
    ∀ i,
      (∀ k, i ≤ k → k < i + n →
        P (.load (.sdt root) (sdtHeaderSize + k * entrySize isXsdt)
          (entrySize isXsdt))) →
      G (findMadt mem root isXsdt n i) := by
  induction n with
  | zero =>
      intro i _
      exact hG.sequential.pure _
  | succ n ih =>
      intro i h
      refine hG.load_bind.mpr ⟨h i (le_refl i) (by omega), fun table _ => ?_⟩
      refine (hG.sequential.bind _ _).mpr
        ⟨hG.memcmpEq _ 0 (fun k _ hk => hsigned table k (by simpa [madtSignature] using hk)),
          ?_⟩
      intro found _
      split_ifs
      · exact hG.sequential.pure _
      · exact ih (i + 1) (fun k hk hlt => h k (by omega) (by omega))

/-- With an entry to look at, the first one is loaded. -/
theorem AccessRule.first_of_findMadt
    (hG : AccessRule (@G) P) (h : G (Acpi.findMadt mem root isXsdt (n + 1) i)) :
    P (.load (.sdt root) (sdtHeaderSize + i * entrySize isXsdt)
      (entrySize isXsdt)) :=
  (hG.load_bind.mp h).1

/-- The table found is the first one with the signature. -/
theorem result_findMadt
    (n : Nat) :
    ∀ i, (findMadt mem root isXsdt n i).result = .ok (some madt) ↔
      FirstMadt mem root isXsdt n i madt := by
  induction n with
  | zero =>
      intro i
      refine iff_of_false (fun h => by cases h) ?_
      rintro ⟨k, hk, _⟩
      exact Nat.not_lt_zero k hk
  | succ n ih =>
      intro i
      rw [findMadt, result_bind, bind_eq_ok]
      simp only [result_bind, bind_eq_ok, result_load]
      constructor
      · rintro ⟨table, htable, found, hfound, hrest⟩
        cases found with
        | true =>
            cases hrest
            exact
              ⟨0, by omega, htable, hfound, fun j hj => absurd hj (Nat.not_lt_zero j)⟩
        | false =>
            obtain ⟨k, hk, hentry, hsigned, hbefore⟩ := (ih (i + 1)).mp hrest
            refine ⟨k + 1, by omega, ?_, hsigned, fun j hj => ?_⟩
            · rw [show i + (k + 1) = i + 1 + k by omega]
              exact hentry
            · cases j with
              | zero =>
                  exact ⟨table, htable, hfound⟩
              | succ j =>
                  rw [show i + (j + 1) = i + 1 + j by omega]
                  exact hbefore j (by omega)
      · rintro ⟨k, hk, hentry, hsigned, hbefore⟩
        cases k with
        | zero =>
            exact ⟨madt, hentry, true, hsigned, rfl⟩
        | succ k =>
            obtain ⟨table, htable, hnot⟩ := hbefore 0 (by omega)
            refine ⟨table, htable, false, hnot, (ih (i + 1)).mpr ?_⟩
            refine ⟨k, by omega, ?_, hsigned, fun j hj => ?_⟩
            · rw [show i + 1 + k = i + (k + 1) by omega]
              exact hentry
            · rw [show i + 1 + j = i + (j + 1) by omega]
              exact hbefore (j + 1) (by omega)

/-- For a table with a whole header, `entry_count` is what one expects. -/
theorem entryCount_eq
    (hlength : length < 2 ^ 32) (h : sdtHeaderSize ≤ length) :
    entryCount length isXsdt = (length - sdtHeaderSize) / entrySize isXsdt := by
  unfold entryCount
  unfold sdtHeaderSize at h ⊢
  rw [show (length + (2 ^ 32 - 36)) % 2 ^ 32 = length - 36 by omega]

/-- For a shorter one the subtraction wraps around, and there is an entry. -/
theorem entryCount_pos
    (h : length < sdtHeaderSize) : 0 < entryCount length isXsdt := by
  unfold entryCount
  unfold sdtHeaderSize at h ⊢
  refine Nat.div_pos ?_ ?_
  · have hsize : entrySize isXsdt ≤ 8 := by cases isXsdt <;> decide
    omega
  · cases isXsdt <;> decide

end Root

section Walk

/-- What holds wherever a relation leads holds here and wherever it leads next. -/
theorem forall_reached_iff
    {r : α → α → Prop} {Q : α → Prop} {a : α} :
    (∀ c, Relation.ReflTransGen r a c → Q c) ↔
      Q a ∧ ∀ b, r a b → ∀ c, Relation.ReflTransGen r b c → Q c := by
  constructor
  · intro h
    exact ⟨h a .refl, fun b hb c hc => h c (.head hb hc)⟩
  · rintro ⟨ha, hnext⟩ c hc
    rcases hc.cases_head with rfl | ⟨b, hb, hbc⟩
    · exact ha
    · exact hnext b hb c hbc

/-- A mapped table is nowhere near the end of the address space. -/
theorem cursor_lt_iff
    (hmadt : madt < identityLimit) (hlength : length < 2 ^ 32)
    (hoffset : offset < 2 ^ 33) :
    (madt + offset) % 2 ^ 64 < (madt + length) % 2 ^ 64 ↔ offset < length := by
  have hlimit : identityLimit = 2 ^ 32 := rfl
  rw [Nat.mod_eq_of_lt (by omega), Nat.mod_eq_of_lt (by omega)]
  omega

/-- What the walk asks of the accesses at the entry at `offset`. -/
def Looked (mem : Store) (P : Access → Prop) (madt length offset : Nat) : Prop :=
  offset < length →
    P (.load (.sdt madt) (offset + 1) 1) ∧
      ∀ entryLength, fieldAt mem (madt + (offset + 1)) 1 = some entryLength →
        entryLength ≠ 0 →
          P (.load (.sdt madt) offset 1) ∧
            (fieldAt mem (madt + offset) 1 = some madtEntryLocalApic →
              P (.load (.sdt madt) (offset + 4) 4))

/-- An id is stored only below `max_ids`, and loaded from before the flags. -/
theorem AccessRule.addLocalApic
    (hG : AccessRule (@G) P) (hstore : ∀ index, index < maxIds → P (.storeId index))
    (hdown : ∀ o, P (.load (.sdt madt) (o + 4) 4) → P (.load (.sdt madt) (o + 3) 1)) :
    G (addLocalApic mem maxIds madt offset ids) ↔
      P (.load (.sdt madt) (offset + 4) 4) := by
  unfold Acpi.addLocalApic
  rw [hG.load_bind]
  refine and_iff_left_of_imp (fun hflags flags _ => ?_)
  split_ifs with henabled
  · exact hG.load_bind.mpr
      ⟨hdown offset hflags, fun id _ => hG.storeId.mpr (hstore _ henabled.2)⟩
  · exact hG.sequential.pure _

/-- If the flags are mapped, so is the id before them. -/
theorem addLocalApic_ok
    {flags : Nat} (hmadt : madt < identityLimit) (hoffset : offset < 2 ^ 33)
    (h : fieldAt mem (madt + (offset + 4)) 4 = some flags) :
    ∃ ids', (addLocalApic mem maxIds madt offset ids).result = .ok ids' := by
  have hmapped := mapped_of_fieldAt h
  have hlimit : identityLimit = 2 ^ 32 := rfl
  have hid : (madt + (offset + 3)) % 2 ^ 64 < identityLimit := by omega
  obtain ⟨id, hid⟩ : ∃ v, fieldAt mem (madt + (offset + 3)) 1 = some v :=
    fieldAt_one_of_mapped hid
  unfold addLocalApic
  simp only [result_bind, bind_eq_ok, result_load]
  by_cases henabled : flags % 2 = 1 ∧ ids.length < maxIds
  · refine ⟨ids ++ [id], flags, h, ?_⟩
    rw [if_pos henabled, result_bind, bind_eq_ok]
    exact ⟨id, result_load.mpr hid, rfl⟩
  · exact ⟨ids, flags, h, by rw [if_neg henabled]; rfl⟩

theorem AccessRule.visitEntry
    (hG : AccessRule (@G) P) (hstore : ∀ index, index < maxIds → P (.storeId index))
    (hdown : ∀ o, P (.load (.sdt madt) (o + 4) 4) → P (.load (.sdt madt) (o + 3) 1)) :
    G (visitEntry mem maxIds madt offset type ids) ↔
      (type = madtEntryLocalApic → P (.load (.sdt madt) (offset + 4) 4)) := by
  unfold Acpi.visitEntry
  split_ifs with hapic
  · rw [hG.addLocalApic hstore hdown, forall_prop_of_true hapic]
  · exact iff_of_true (hG.sequential.pure _) (fun h => absurd h hapic)

/-- An entry is passed if the flags of a Local APIC entry are mapped. -/
theorem visitEntry_ok_iff
    (hmadt : madt < identityLimit) (hoffset : offset < 2 ^ 33) :
    (∃ ids', (visitEntry mem maxIds madt offset type ids).result = .ok ids') ↔
      (type = madtEntryLocalApic → fieldAt mem (madt + (offset + 4)) 4 ≠ none) := by
  unfold visitEntry
  split_ifs with hapic
  · rw [forall_prop_of_true hapic]
    constructor
    · rintro ⟨ids', hids⟩
      rw [addLocalApic, result_bind, bind_eq_ok] at hids
      obtain ⟨flags, hf, _⟩ := hids
      rw [result_load] at hf
      exact Option.ne_none_iff_exists'.mpr ⟨flags, hf⟩
    · intro hflags
      obtain ⟨flags, hf⟩ := Option.ne_none_iff_exists'.mp hflags
      exact addLocalApic_ok hmadt hoffset hf
  · exact iff_of_true ⟨ids, rfl⟩ (fun h => absurd h hapic)

/--
The walk, by induction on its rounds: they suffice, because every entry is at
least one byte long, and it looks at the entries that the lengths lead to.
-/
theorem AccessRule.walkMadt
    (hG : AccessRule (@G) P) (hstore : ∀ index, index < maxIds → P (.storeId index))
    (hdown : ∀ o, P (.load (.sdt madt) (o + 4) 4) → P (.load (.sdt madt) (o + 3) 1))
    (hmadt : madt < identityLimit) (hlength : length < 2 ^ 32) (n : Nat) :
    ∀ offset ids, length - offset < n → offset < 2 ^ 33 →
      (G (walkMadt mem maxIds madt length n offset ids) ↔
        ∀ offset', Relation.ReflTransGen (NextEntry mem madt length) offset offset' →
          Looked mem P madt length offset') := by
  induction n with
  | zero =>
      intro offset ids hn
      exact absurd hn (Nat.not_lt_zero _)
  | succ n ih =>
      intro offset ids hn hoffset
      rw [forall_reached_iff, Acpi.walkMadt]
      by_cases hlt : offset < length
      · rw [if_pos ((cursor_lt_iff hmadt hlength hoffset).mpr hlt)]
        -- the entry after one of length `e`
        have hstep : ∀ e ids', fieldAt mem (madt + (offset + 1)) 1 = some e → e ≠ 0 →
            (G (Acpi.walkMadt mem maxIds madt length n (offset + e) ids') ↔
              ∀ offset',
                Relation.ReflTransGen (NextEntry mem madt length) (offset + e) offset' →
                  Looked mem P madt length offset') := by
          intro e ids' he hne
          have he' := fieldAt_lt 1 _ e he
          exact ih (offset + e) ids' (by omega) (by omega)
        rw [hG.load_bind]
        constructor
        · rintro ⟨hhead, hrest⟩
          refine ⟨fun _ => ⟨hhead, fun e he hne => ?_⟩, ?_⟩
          · have hentry := hrest e he
            rw [if_neg hne, hG.load_bind] at hentry
            refine ⟨hentry.1, fun htype => ?_⟩
            have hvisit := ((hG.sequential.bind _ _).mp (hentry.2 _ htype)).1
            exact (hG.visitEntry hstore hdown).mp hvisit rfl
          · rintro _ ⟨_, e, type, he, htype, hne, rfl, hflags⟩
            have hentry := hrest e he
            rw [if_neg hne, hG.load_bind] at hentry
            have hafter := ((hG.sequential.bind _ _).mp (hentry.2 type htype)).2
            obtain ⟨ids', hids⟩ := (visitEntry_ok_iff hmadt hoffset).mpr hflags
            exact (hstep e ids' he hne).mp (hafter ids' hids)
        · rintro ⟨hlooked, hnext⟩
          obtain ⟨hhead, hentry⟩ := hlooked hlt
          refine ⟨hhead, fun e he => ?_⟩
          split_ifs with hzero
          · exact hG.sequential.pure _
          obtain ⟨hfirst, hflags⟩ := hentry e he hzero
          refine hG.load_bind.mpr ⟨hfirst, fun type htype => ?_⟩
          refine (hG.sequential.bind _ _).mpr ⟨?_, fun ids' hids => ?_⟩
          · exact (hG.visitEntry hstore hdown).mpr (fun hapic => hflags (hapic ▸ htype))
          · refine (hstep e ids' he hzero).mpr (hnext _ ?_)
            exact
              ⟨hlt, e, type, he, htype, hzero, rfl,
                (visitEntry_ok_iff hmadt hoffset).mp ⟨ids', hids⟩⟩
      · rw [if_neg (mt (cursor_lt_iff hmadt hlength hoffset).mp hlt)]
        refine iff_of_true (hG.sequential.pure _) ⟨fun h => absurd h hlt, ?_⟩
        intro b hb
        exact absurd hb.1 hlt

/-- Inside the MADT, the accesses to an entry are those that fit. -/
theorem looked_inside_iff
    (hsdt : sdtLength mem madt = length) (hoffset : sdtHeaderSize ≤ offset) :
    Looked mem (Inside mem maxIds) madt length offset ↔
      EntryFits mem madt length offset := by
  refine imp_congr_right (fun hlt => ?_)
  have hmax : max sdtHeaderSize (sdtLength mem madt) = length := by omega
  simp only [Inside, hmax]
  refine and_congr (by omega) (forall_congr' fun e => forall_congr' fun _ => ?_)
  refine forall_congr' fun _ => ?_
  rw [and_iff_right (show offset + 1 ≤ length by omega)]

theorem offset_le_of_reached
    {offset' : Nat}
    (h : Relation.ReflTransGen (NextEntry mem madt length) offset offset') :
    offset ≤ offset' := by
  induction h with
  | refl =>
      exact le_refl _
  | tail _ hstep ih =>
      obtain ⟨_, e, _, _, _, _, rfl, _⟩ := hstep
      omega

end Walk

section Bounds

theorem inside_header
    (hk : k < 4) : Inside mem maxIds (.load (.sdt table) k 1) := by
  unfold Inside sdtHeaderSize
  omega

theorem inside_length : Inside mem maxIds (.load (.sdt table) 4 4) := by
  unfold Inside sdtHeaderSize
  omega

theorem sdtLength_of_fieldAt
    (h : fieldAt mem (table + 4) 4 = some length) :
    sdtLength mem table = length ∧ length < 2 ^ 32 := by
  unfold sdtLength
  rw [h]
  exact ⟨rfl, fieldAt_lt 4 _ length h⟩

/-- Collecting the ids stays inside exactly if the MADT's entries fit. -/
theorem all_collectIds_iff
    (hmadt : madt < identityLimit) :
    (collectIds mem maxIds madt).All (Inside mem maxIds) ↔
      ∀ length, fieldAt mem (madt + 4) 4 = some length →
        EntriesFit mem madt length (sdtHeaderSize + 8) := by
  have hG := accessRule_all (Inside mem maxIds)
  unfold collectIds
  rw [hG.load_bind, and_iff_right inside_length]
  refine forall_congr' (fun length => forall_congr' (fun hlen => ?_))
  obtain ⟨hsdt, hlt⟩ := sdtLength_of_fieldAt hlen
  rw [hG.sequential.bind_pure,
    hG.walkMadt (fun _ h => h) (fun o h => by unfold Inside at h ⊢; omega) hmadt hlt
      (length + 1) _ _ (by omega) (by unfold sdtHeaderSize; omega)]
  refine forall_congr' (fun offset => forall_congr' (fun hreach => ?_))
  have hoffset := offset_le_of_reached hreach
  exact looked_inside_iff hsdt (by omega)

theorem collectIds_ends
    (hmadt : madt < identityLimit) :
    (collectIds mem maxIds madt).result ≠ .error .endless := by
  have hG := accessRule_ends
  unfold collectIds
  refine hG.load_bind.mpr ⟨trivial, fun length hlen => ?_⟩
  refine (hG.sequential.bind_pure _ _).mpr ?_
  refine (hG.walkMadt (fun _ _ => trivial) (fun _ _ => trivial) hmadt
    (sdtLength_of_fieldAt hlen).2 (length + 1) _ _ (by omega)
    (by unfold sdtHeaderSize; omega)).mpr ?_
  exact fun _ _ _ => ⟨trivial, fun _ _ _ => ⟨trivial, fun _ => trivial⟩⟩

/-- Only the mapped part of memory can hold a MADT. -/
theorem FirstMadt.mapped
    (h : FirstMadt mem root isXsdt n i madt) : madt < identityLimit := by
  obtain ⟨k, _, hentry, hsigned, _⟩ := h
  have hlt : madt < 2 ^ 64 := by
    refine lt_of_lt_of_le (fieldAt_lt _ _ _ hentry) ?_
    cases isXsdt <;> decide
  have hmapped := mapped_of_signed hsigned
  rwa [Table.addr, Nat.mod_eq_of_lt hlt] at hmapped

/-- Entries below `entry_count` are inside the root table. -/
theorem inside_rootEntry
    (hroot : sdtLength mem root = length) (hheader : sdtHeaderSize ≤ length)
    (hk : k < (length - sdtHeaderSize) / entrySize isXsdt) :
    Inside mem maxIds
      (.load (.sdt root) (sdtHeaderSize + k * entrySize isXsdt) (entrySize isXsdt)) := by
  have hmul : (k + 1) * entrySize isXsdt ≤ length - sdtHeaderSize :=
    le_trans (Nat.mul_le_mul_right _ hk) (Nat.div_mul_le_self _ _)
  rw [Nat.succ_mul] at hmul
  unfold Inside
  omega

/-- The entry that a short root table is taken to have is outside. -/
theorem not_inside_first
    (hroot : sdtLength mem root = length) (hshort : length < sdtHeaderSize) :
    ¬ Inside mem maxIds
      (.load (.sdt root) (sdtHeaderSize + 0 * entrySize isXsdt) (entrySize isXsdt)) := by
  have hsize : 0 < entrySize isXsdt := by cases isXsdt <;> decide
  unfold Inside
  omega

/-- What the search from the root table on needs to stay inside. -/
theorem all_searchRoot_iff :
    (searchRoot mem maxIds root isXsdt).All (Inside mem maxIds) ↔
      ∀ length, fieldAt mem (root + 4) 4 = some length →
        Sums mem (.sdt root) length true →
        sdtHeaderSize ≤ length ∧
          ∀ madt madtLength,
            FirstMadt mem root isXsdt ((length - sdtHeaderSize) / entrySize isXsdt) 0
              madt →
            fieldAt mem (madt + 4) 4 = some madtLength →
              EntriesFit mem madt madtLength (sdtHeaderSize + 8) := by
  have hG := accessRule_all (Inside mem maxIds)
  unfold searchRoot
  rw [hG.load_bind, and_iff_right inside_length]
  simp only [Table.addr]
  refine forall_congr' (fun length => forall_congr' (fun hlen => ?_))
  obtain ⟨hroot, hlt⟩ := sdtLength_of_fieldAt hlen
  have hsums : (checksumOk mem (.sdt root) length).All (Inside mem maxIds) :=
    hG.checksumOk (fun k hk => by unfold Inside; omega)
  rw [hG.sequential.bind, and_iff_right hsums]
  constructor
  · intro h htrue
    have hsearch := h true htrue
    simp only [Bool.true_eq_false, if_false] at hsearch
    obtain ⟨hfind, hcollect⟩ := (hG.sequential.bind _ _).mp hsearch
    have hheader : sdtHeaderSize ≤ length := by
      by_contra hshort
      rw [not_le] at hshort
      have hpos : 0 < entryCount length isXsdt := entryCount_pos hshort
      obtain ⟨n, hn⟩ := Nat.exists_eq_succ_of_ne_zero hpos.ne'
      rw [hn] at hfind
      exact not_inside_first hroot hshort (hG.first_of_findMadt hfind)
    refine ⟨hheader, fun madt madtLength hfirst hmlen => ?_⟩
    rw [← entryCount_eq hlt hheader] at hfirst
    exact
      (all_collectIds_iff hfirst.mapped).mp
        (hcollect _ ((result_findMadt _ 0).mpr hfirst)) madtLength hmlen
  · intro h sums hres
    cases sums with
    | false =>
        exact Traced.all_fail _
    | true =>
        obtain ⟨hheader, hentries⟩ := h hres
        simp only [Bool.true_eq_false, if_false]
        rw [entryCount_eq hlt hheader]
        refine (hG.sequential.bind _ _).mpr
          ⟨hG.findMadt (fun table k hk => inside_header hk) _ 0
            (fun k _ hk => inside_rootEntry hroot hheader (by omega)),
          fun found hfound => ?_⟩
        cases found with
        | none =>
            exact Traced.all_pure _
        | some madt =>
            have hfirst := (result_findMadt _ 0).mp hfound
            exact (all_collectIds_iff hfirst.mapped).mpr (hentries madt · hfirst)

theorem searchRoot_ends :
    (searchRoot mem maxIds root isXsdt).result ≠ .error .endless := by
  have hG := accessRule_ends
  unfold searchRoot
  refine hG.load_bind.mpr ⟨trivial, fun length _ => ?_⟩
  refine (hG.sequential.bind _ _).mpr
    ⟨hG.checksumOk (fun _ _ => trivial), fun sums _ => ?_⟩
  split_ifs
  · simp
  refine (hG.sequential.bind _ _).mpr
    ⟨hG.findMadt (fun _ _ _ => trivial) _ 0 (fun _ _ _ => trivial),
      fun found hfound => ?_⟩
  cases found with
  | none =>
      exact hG.sequential.pure _
  | some madt =>
      exact collectIds_ends ((result_findMadt _ 0).mp hfound).mapped

/--
**When the ACPI tables are read within their bounds.**  For all contents of
memory the call ends and stores at most `maxIds` ids; and it reads the root table
and the MADT inside their headers or below their length fields if and only if a
root table with a correct checksum is not shorter than its header, and no entry
of the MADT it lists straddles that table's end.
-/
theorem reads_bounded_iff
    (mem : Store) (maxIds rsdp : Nat) :
    BoundedAccess mem maxIds (acpiFindLocalApicIds mem maxIds rsdp) ↔
      TablesFit mem rsdp := by
  have hends : (acpiFindLocalApicIds mem maxIds rsdp).result ≠ .error .endless := by
    have hG := accessRule_ends
    refine (hG.sequential.bind _ _).mpr
      ⟨hG.findRoot (fun _ _ => trivial), fun found _ => ?_⟩
    cases found with
    | none =>
        exact hG.sequential.pure _
    | some r =>
        exact searchRoot_ends
  have hinside : (acpiFindLocalApicIds mem maxIds rsdp).All (Inside mem maxIds) ↔
      TablesFit mem rsdp := by
    have hG := accessRule_all (Inside mem maxIds)
    unfold acpiFindLocalApicIds
    rw [hG.sequential.bind, and_iff_right (hG.findRoot (fun _ _ => trivial))]
    constructor
    · intro h root isXsdt length hroot
      exact all_searchRoot_iff.mp (h _ (result_findRoot.mpr hroot)) length
    · intro h found hfound
      cases found with
      | none =>
          exact Traced.all_pure _
      | some r =>
          obtain ⟨root, isXsdt⟩ := r
          exact
            all_searchRoot_iff.mpr (fun length =>
              h root isXsdt length (result_findRoot.mp hfound))
  exact ⟨fun h => hinside.mp h.inside, fun h => ⟨hends, hinside.mpr h⟩⟩

/-- The bytes from `addr` on. -/
def placed (addr : Nat) (bytes : List UInt8) : Store :=
  fun a => if addr ≤ a then bytes.getD (a - addr) 0 else 0

/-- The header of a table with a signature, a length and a checksum. -/
def sdtHeader (signature : List UInt8) (length checksum : UInt8) : List UInt8 :=
  signature ++ [length, 0, 0, 0, 1, checksum] ++ List.replicate 26 0

/-- An RSDP with the address 4120 of an RSDT. -/
def sampleRsdp : List UInt8 :=
  [82, 83, 68, 32, 80, 84, 82, 32, 185, 0, 0, 0, 0, 0, 0, 0, 24, 16, 0, 0, 0, 0, 0, 0]

/--
An RSDP at 4096, an RSDT at 4120 with one entry, and a MADT at 4160 that ends
after the first two bytes of a Local APIC entry.
-/
def truncatedMadt : Store :=
  placed 4096
    (sampleRsdp ++
      sdtHeader [82, 83, 68, 84] 40 74 ++ [64, 16, 0, 0] ++
      sdtHeader [65, 80, 73, 67] 46 0 ++ [0, 0, 224, 254, 1, 0, 0, 0, 0, 8] ++
      [3, 7, 1, 0, 0, 0])

/-- The flags and the id of that entry are read behind the table's 46 bytes. -/
theorem truncated_madt_overread :
    sdtLength truncatedMadt 4160 = 46 ∧
      Access.load (.sdt 4160) 48 4 ∈ (acpiFindLocalApicIds truncatedMadt 16 4096).events ∧
      (acpiFindLocalApicIds truncatedMadt 16 4096).result.toOption = some (true, [7]) ∧
      ¬ BoundedAccess truncatedMadt 16 (acpiFindLocalApicIds truncatedMadt 16 4096) := by
  have hlength : sdtLength truncatedMadt 4160 = 46 := by decide
  have hload : Access.load (.sdt 4160) 48 4 ∈
      (acpiFindLocalApicIds truncatedMadt 16 4096).events := by
    decide
  refine ⟨hlength, hload, by decide, fun h => ?_⟩
  have hinside : 48 + 4 ≤ max sdtHeaderSize (sdtLength truncatedMadt 4160) :=
    h.inside _ hload
  rw [hlength] at hinside
  exact absurd hinside (by decide)

end Bounds

end Acpi
end RebornOS
