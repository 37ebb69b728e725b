import RebornOS.SystemRuns
import RebornOS.Traced

/-!
# Strings from user memory: `copy_user_string`

A system call that takes a string copies it byte by byte into a buffer of its
own.  The pointer is checked with `vmm_check_range` at the first byte and again
at every page start, and never in between.

The trace of a call records each accepted check, each byte of user memory that
is dereferenced and each byte of the buffer that is written.  Reading an address
without a translation raises an exception in ring 0, which ends in a panic; an
address in the lower half is followed by such addresses at the upper end.
-/

namespace RebornOS
namespace Syscall

open ByteStore PageWalk Vmm Elf Function

variable {P : Nat → Prop} {i n : Nat} {out : Store}

section Model

/-- Why a call does not return. -/
inductive Stop
  /-- `panic("syscall_dispatch: %s got an invalid pointer 0x%lx", ...)`. -/
  | invalidPointer (syscallName : String) (userPtr : Nat)
  /-- `exception_handler` panics on an exception in ring 0. -/
  | kernelException (addr : Nat)
  /-- `vmm_check_range` does not return. -/
  | endless

/-- What `copy_user_string` does to memory. -/
inductive Access
  | accepted (addr : Nat)
  | read (addr : Nat)
  | write (i : Nat)

variable (mem : Store) (cr3 : Nat)

/-- The call of `vmm_check_range` on one byte. -/
def checkByte (syscallName : String) (userPtr addr : Nat) :
    Traced Stop Access Unit :=
  match vmmCheckRange mem cr3 addr 1 false with
  | some true => .emit [.accepted addr] ()
  | some false => .fail (.invalidPointer syscallName userPtr)
  | none => .fail .endless

/-- `*(const char *)addr`. -/
def loadByte (addr : Nat) : Traced Stop Access UInt8 where
  events := [.read addr]
  result :=
    match translateAddr mem cr3 addr with
    | some t => .ok (mem t.phys)
    | none => .error (.kernelException addr)

/-- The loop with `n` rounds left; the results are `i` and the buffer. -/
def copyLoop (syscallName : String) (userPtr : Nat) :
    Nat → Nat → Store → Traced Stop Access (Nat × Store)
  | 0, i, out => pure (i, out)
  | n + 1, i, out => do
      let addr := (userPtr + i) % 2 ^ 64
      if addr % pmmPageSize = 0 ∨ i = 0 then
        checkByte mem cr3 syscallName userPtr addr
      else
        pure ()
      let c ← loadByte mem cr3 addr
      if c = 0 then
        pure (i, out)
      else do
        let out ← .emit [.write i] (update out i c)
        copyLoop syscallName userPtr n (i + 1) out

/-- `copy_user_string`; `out` is the buffer, by index. -/
def copyUserString (userPtr : Nat) (syscallName : String) (out : Store)
    (outSize : Nat) : Traced Stop Access Store := do
  let r ← copyLoop mem cr3 syscallName userPtr ((outSize + (2 ^ 32 - 1)) % 2 ^ 32)
    0 out
  .emit [.write r.1] (update r.2 r.1 0)

end Model

section Specification

variable (mem : Store) (cr3 : Nat)

/-- The byte that an access at `v` finds. -/
def userByte (v : Nat) : Option UInt8 :=
  (translateAddr mem cr3 v).map (fun t => mem t.phys)

/-- The first `n` bytes from `userPtr` on are readable and none of them is NUL. -/
def Unended (userPtr n : Nat) : Prop :=
  ∀ k, k < n → ∃ c, userByte mem cr3 (userPtr + k) = some c ∧ c ≠ 0

/--
`out'` is `out` with the string up to its first NUL, or its first `outSize - 1`
bytes, and a NUL after them.
-/
def Copied (userPtr : Nat) (out : Store) (outSize : Nat) (out' : Store) : Prop :=
  ∃ n, n ≤ outSize - 1 ∧ Unended mem cr3 userPtr n ∧
    (n = outSize - 1 ∨ userByte mem cr3 (userPtr + n) = some 0) ∧
    (∀ k, k < n → userByte mem cr3 (userPtr + k) = some (out' k)) ∧
    out' n = 0 ∧ ∀ k, n < k → out' k = out k

/--
One of the bytes up to the first NUL, within the first `outSize - 1`, is in a
page that ring 3 cannot read.
-/
def Unreadable (userPtr outSize : Nat) : Prop :=
  ∃ k, k < outSize - 1 ∧ Unended mem cr3 userPtr k ∧
    ¬ UserAccess mem cr3 (userPtr + k) false

/-- What a call guarantees. -/
structure SafeCopy (userPtr : Nat) (out : Store) (outSize : Nat)
    (t : Traced Stop Access Store) : Prop where
  copied : ∀ out', t.result = .ok out' → Copied mem cr3 userPtr out outSize out'
  panics : ∀ e, t.result = .error e → Unreadable mem cr3 userPtr outSize
  writes : ∀ i, .write i ∈ t.events → i < outSize
  accepted :
    ∀ p, .accepted p ∈ t.events → vmmCheckRange mem cr3 p 1 false = some true
  reads :
    ∀ earlier v later, t.events = earlier ++ .read v :: later →
      ∃ p, .accepted p ∈ earlier ∧ p / 4096 = v / 4096

end Specification

section Guarded

/--
Every byte read lies in a page that has been accepted before, or that `P`
contains.
-/
def Guarded : (Nat → Prop) → List Access → Prop
  | _, [] => True
  | P, .accepted p :: es => Guarded (fun page => P page ∨ page = p / 4096) es
  | P, .read v :: es => P (v / 4096) ∧ Guarded P es
  | P, .write _ :: es => Guarded P es

/-- A guarded read has its check in front of it. -/
theorem Guarded.exists_accepted
    {earlier later : List Access} {v : Nat}
    (h : Guarded P (earlier ++ .read v :: later)) :
    P (v / 4096) ∨ ∃ p, .accepted p ∈ earlier ∧ p / 4096 = v / 4096 := by
  induction earlier generalizing P with
  | nil =>
      exact Or.inl h.1
  | cons e es ih =>
      cases e with
      | accepted p =>
          rcases ih h with (hP | hp) | ⟨q, hq, hpage⟩
          · exact Or.inl hP
          · exact Or.inr ⟨p, List.mem_cons_self, hp.symm⟩
          · exact Or.inr ⟨q, List.mem_cons_of_mem _ hq, hpage⟩
      | read w =>
          exact
            (ih h.2).imp_right
              (fun ⟨q, hq, hpage⟩ => ⟨q, List.mem_cons_of_mem _ hq, hpage⟩)
      | write i =>
          exact
            (ih h).imp_right
              (fun ⟨q, hq, hpage⟩ => ⟨q, List.mem_cons_of_mem _ hq, hpage⟩)

/-- Writes at the end need no check. -/
theorem Guarded.append_write
    {es : List Access} (h : Guarded P es) (i : Nat) : Guarded P (es ++ [.write i]) := by
  induction es generalizing P with
  | nil =>
      trivial
  | cons e es ih =>
      cases e with
      | accepted p => exact ih h
      | read w => exact ⟨h.1, ih h.2⟩
      | write i => exact ih h

end Guarded

section Loop

variable {mem : Store} {cr3 userPtr : Nat} {syscallName : String}

/-- What `n` rounds from index `i` on do, with the pages `P` accepted before. -/
structure LoopOk (mem : Store) (cr3 userPtr : Nat) (P : Nat → Prop)
    (n i : Nat) (out : Store) (t : Traced Stop Access (Nat × Store)) : Prop where
  copied :
    ∀ j out', t.result = .ok (j, out') →
      i ≤ j ∧ j ≤ i + n ∧
      (j = i + n ∨ userByte mem cr3 (userPtr + j) = some 0) ∧
      (∀ k, i ≤ k → k < j →
        userByte mem cr3 (userPtr + k) = some (out' k) ∧ out' k ≠ 0) ∧
      ∀ k, k < i ∨ j ≤ k → out' k = out k
  panics :
    ∀ e, t.result = .error e →
      ∃ k, i ≤ k ∧ k < i + n ∧
        (∀ j, i ≤ j → j < k →
          ∃ c, userByte mem cr3 (userPtr + j) = some c ∧ c ≠ 0) ∧
        ¬ UserAccess mem cr3 (userPtr + k) false
  writes : ∀ k, .write k ∈ t.events → k < i + n
  accepted :
    ∀ p, .accepted p ∈ t.events → vmmCheckRange mem cr3 p 1 false = some true
  guarded : Guarded P t.events

/-- A round that ends the loop without reading. -/
theorem loopOk_refused
    {e : Stop} (hno : ¬ UserAccess mem cr3 (userPtr + i) false) :
    LoopOk mem cr3 userPtr P (n + 1) i out (.fail e) where
  copied _ _ h := by cases h
  panics _ _ := ⟨i, le_refl i, by omega, fun j hj hlt => by omega, hno⟩
  writes _ h := by cases h
  accepted _ h := by cases h
  guarded := trivial

/-- The check in front does not matter for what follows it. -/
theorem LoopOk.checked
    {p : Nat} {t : Traced Stop Access (Nat × Store)}
    (hcheck : vmmCheckRange mem cr3 p 1 false = some true)
    (h : LoopOk mem cr3 userPtr (fun page => P page ∨ page = p / 4096) n i out t) :
    LoopOk mem cr3 userPtr P n i out
      { t with events := .accepted p :: t.events } where
  copied := h.copied
  panics := h.panics
  writes k hk := h.writes k ((List.mem_cons.mp hk).resolve_left nofun)
  accepted q hq := by
    rcases List.mem_cons.mp hq with hq | hq
    · cases hq
      exact hcheck
    · exact h.accepted q hq
  guarded := h.guarded

/-- A byte that is not mapped ends the loop. -/
theorem loopOk_fault
    {e : Stop} (hpage : P ((userPtr + i) / 4096))
    (htrans : translateAddr mem cr3 (userPtr + i) = none) :
    LoopOk mem cr3 userPtr P (n + 1) i out
      { events := [.read (userPtr + i)], result := .error e } := by
  refine
    { copied := fun _ _ h => by cases h
      panics := fun _ _ => ⟨i, le_refl i, by omega, fun j hj hlt => by omega, ?_⟩
      writes := fun k hk => by cases List.mem_singleton.mp hk
      accepted := fun p hp => by cases List.mem_singleton.mp hp
      guarded := ⟨hpage, trivial⟩ }
  rintro ⟨t, ht, _⟩
  rw [htrans] at ht
  cases ht

/-- So does the first NUL. -/
theorem loopOk_nul
    (hpage : P ((userPtr + i) / 4096)) (hbyte : userByte mem cr3 (userPtr + i) = some 0) :
    LoopOk mem cr3 userPtr P (n + 1) i out
      { events := [.read (userPtr + i)], result := .ok (i, out) } := by
  refine
    { copied := fun j out' h => ?_
      panics := fun _ h => by cases h
      writes := fun k hk => by cases List.mem_singleton.mp hk
      accepted := fun p hp => by cases List.mem_singleton.mp hp
      guarded := ⟨hpage, trivial⟩ }
  cases h
  exact
    ⟨le_refl i, by omega, Or.inr hbyte, fun k hk hlt => by omega, fun _ _ => rfl⟩

/-- Any other byte is copied, and the loop goes on behind it. -/
theorem LoopOk.stored
    {c : UInt8} {t : Traced Stop Access (Nat × Store)}
    (hpage : P ((userPtr + i) / 4096)) (hbyte : userByte mem cr3 (userPtr + i) = some c)
    (hc : c ≠ 0) (h : LoopOk mem cr3 userPtr P n (i + 1) (update out i c) t) :
    LoopOk mem cr3 userPtr P (n + 1) i out
      { t with events := .read (userPtr + i) :: .write i :: t.events } := by
  refine
    { copied := fun j out' hret => ?_
      panics := fun e hret => ?_
      writes := fun k hk => ?_
      accepted := fun p hp => ?_
      guarded := ⟨hpage, h.guarded⟩ }
  · obtain ⟨hij, hjn, hend, hbytes, hsame⟩ := h.copied j out' hret
    have hi : out' i = c := by
      rw [hsame i (Or.inl (by omega)), update_self]
    refine ⟨by omega, by omega, hend.imp_left (fun h => by omega), ?_, ?_⟩
    · intro k hk hkj
      by_cases hki : k = i
      · subst hki
        rw [hi]
        exact ⟨hbyte, hc⟩
      · exact hbytes k (by omega) hkj
    · intro k hk
      rw [hsame k (by omega), update_of_ne (by omega)]
  · obtain ⟨k, hik, hkn, hbefore, hno⟩ := h.panics e hret
    refine ⟨k, by omega, by omega, fun j hj hjk => ?_, hno⟩
    by_cases hji : j = i
    · subst hji
      exact ⟨c, hbyte, hc⟩
    · exact hbefore j (by omega) hjk
  · have hk := (List.mem_cons.mp hk).resolve_left nofun
    rcases List.mem_cons.mp hk with hk | hk
    · cases hk
      omega
    · have hlt := h.writes k hk
      omega
  · have hp := (List.mem_cons.mp hp).resolve_left nofun
    exact h.accepted p ((List.mem_cons.mp hp).resolve_left nofun)

/-- Reading a byte of an accepted page, and what comes after it. -/
theorem loopOk_read
    {next : UInt8 → Traced Stop Access (Nat × Store)} (hpage : P ((userPtr + i) / 4096))
    (hnul : next 0 = pure (i, out))
    (hnext : ∀ c, userByte mem cr3 (userPtr + i) = some c → c ≠ 0 →
      ∃ t, next c = { t with events := .write i :: t.events } ∧
        LoopOk mem cr3 userPtr P n (i + 1) (update out i c) t) :
    LoopOk mem cr3 userPtr P (n + 1) i out
      (loadByte mem cr3 (userPtr + i) >>= next) := by
  cases htrans : translateAddr mem cr3 (userPtr + i) with
  | none =>
      have hstop : (loadByte mem cr3 (userPtr + i) >>= next) =
          { events := [.read (userPtr + i)]
            result := .error (.kernelException (userPtr + i)) } := by
        show Traced.bind _ _ = _
        simp only [Traced.bind, loadByte, htrans]
      rw [hstop]
      exact loopOk_fault hpage htrans
  | some tr =>
      have hbyte : userByte mem cr3 (userPtr + i) = some (mem tr.phys) := by
        rw [userByte, htrans]
        rfl
      have hgo : (loadByte mem cr3 (userPtr + i) >>= next) =
          { events := .read (userPtr + i) :: (next (mem tr.phys)).events
            result := (next (mem tr.phys)).result } := by
        show Traced.bind _ _ = _
        simp only [Traced.bind, loadByte, htrans, List.singleton_append]
      rw [hgo]
      by_cases hzero : mem tr.phys = 0
      · rw [hzero] at hbyte ⊢
        rw [hnul]
        exact loopOk_nul hpage hbyte
      · obtain ⟨t, ht, hok⟩ := hnext _ hbyte hzero
        rw [ht]
        exact hok.stored hpage hbyte hzero

variable {D r : Nat} {roots held : Set Nat} {g : Ghost}

/-- A check of one byte in or right above the lower half. -/
theorem vmmCheckRange_byte
    (h : SpacesInv D (entries mem) roots held g) (hr : r ∈ roots) {v : Nat}
    (hv : v < 2 ^ 48) :
    vmmCheckRange mem (r * 4096) v 1 false = some true ∨
      vmmCheckRange mem (r * 4096) v 1 false = some false ∧
        ¬ UserAccess mem (r * 4096) v false := by
  obtain ⟨res, hres, hiff⟩ :=
    h.vmmCheckRange_spec hr (show v < 2 ^ 64 by omega) Nat.one_pos (by decide) false
  cases res with
  | true =>
      exact Or.inl hres
  | false =>
      refine Or.inr ⟨hres, fun haccess => Bool.false_ne_true (hiff.mpr ?_)⟩
      refine ⟨by omega, fun b hb hbe => ?_⟩
      obtain rfl : b = v := by omega
      -- an address with access is its own canonical form
      have hcanon : Canonical b := by
        by_contra hnot
        obtain ⟨t, ht, _⟩ := haccess
        rw [translate_not_canonical hnot] at ht
        cases ht
      rw [canonicalForm_of_canonical hcanon]
      exact haccess

/--
The loop, by induction on the rounds left.  A byte that is not checked lies in
the page of the byte before it, which has been accepted.
-/
theorem copyLoop_ok
    (h : SpacesInv D (entries mem) roots held g) (hr : r ∈ roots) (n : Nat) :
    ∀ i out (P : Nat → Prop), userPtr + (i + n) < 2 ^ 48 →
      (i ≠ 0 → P ((userPtr + i - 1) / 4096)) →
      LoopOk mem (r * 4096) userPtr P n i out
        (copyLoop mem (r * 4096) syscallName userPtr n i out) := by
  induction n with
  | zero =>
      intro i out P _ _
      refine
        { copied := fun j out' hret => ?_
          panics := fun _ h => by cases h
          writes := fun _ h => by cases h
          accepted := fun _ h => by cases h
          guarded := trivial }
      cases hret
      exact
        ⟨le_refl i, le_refl i, Or.inl rfl, fun k hk hlt => by omega, fun _ _ => rfl⟩
  | succ n ih =>
      intro i out P hbound hP
      have haddr : (userPtr + i) % 2 ^ 64 = userPtr + i := by omega
      -- the rest of the round, once the page is known to be accepted
      have hread : ∀ Q : Nat → Prop, Q ((userPtr + i) / 4096) →
          LoopOk mem (r * 4096) userPtr Q (n + 1) i out
            (loadByte mem (r * 4096) (userPtr + i) >>= fun c =>
              if c = 0 then pure (i, out)
              else
                Traced.emit [.write i] (update out i c) >>= fun out =>
                  copyLoop mem (r * 4096) syscallName userPtr n (i + 1) out) := by
        intro Q hQ
        refine loopOk_read hQ (if_pos rfl) (fun c _ hc => ?_)
        refine ⟨_, by rw [if_neg hc]; rfl, ih (i + 1) _ Q (by omega) (fun _ => ?_)⟩
        exact hQ
      rw [copyLoop]
      simp only [haddr]
      by_cases hcheck : (userPtr + i) % pmmPageSize = 0 ∨ i = 0
      · rw [if_pos hcheck]
        rcases vmmCheckRange_byte h hr (show userPtr + i < 2 ^ 48 by omega) with
          hyes | ⟨hno, haccess⟩
        · have hfirst : checkByte mem (r * 4096) syscallName userPtr (userPtr + i) =
              .emit [.accepted (userPtr + i)] () := by
            rw [checkByte, hyes]
          rw [hfirst]
          exact (hread _ (Or.inr rfl)).checked hyes
        · have hfirst : checkByte mem (r * 4096) syscallName userPtr (userPtr + i) =
              .fail (.invalidPointer syscallName userPtr) := by
            rw [checkByte, hno]
          rw [hfirst]
          exact loopOk_refused haccess
      · rw [if_neg hcheck]
        obtain ⟨hmiddle, hi⟩ := not_or.mp hcheck
        unfold pmmPageSize at hmiddle
        refine hread P ?_
        rw [show (userPtr + i) / 4096 = (userPtr + i - 1) / 4096 by omega]
        exact hP hi

end Loop

variable {σ : Type} {alloc : σ → Nat × σ} {Valid : σ → Prop}
  {held : σ → Set Nat} {fb : Framebuffer} {K : Finset Nat} {s : Spaces σ}

/--
**Copying a user string is safe and exact.**  In every address space of every
reachable state and for every pointer into the lower half: the call writes the
string up to its first NUL, cut at `outSize - 1` bytes and terminated, or it
panics because ring 3 could not have read that far; it writes nothing beyond the
buffer; and it reads only in pages that `vmm_check_range` has accepted before.
-/
theorem copy_user_string_exact
    (hs : Reachable alloc Valid held fb K s) {cr3 : Nat} (hcr3 : cr3 ∈ s.roots)
    {userPtr outSize : Nat} (hptr : userPtr < 2 ^ 47) (hpos : 1 ≤ outSize)
    (hsize : outSize < 2 ^ 32) (syscallName : String) (out : Store) :
    SafeCopy s.machine.mem cr3 userPtr out outSize
      (copyUserString s.machine.mem cr3 userPtr syscallName out outSize) := by
  have hok := hs.systemOk
  obtain ⟨r, rfl⟩ := hok.frames _ hcr3
  obtain ⟨g, hg⟩ := hok.inv
  have hrounds : (outSize + (2 ^ 32 - 1)) % 2 ^ 32 = outSize - 1 := by omega
  have hloop :
      LoopOk s.machine.mem (r * 4096) userPtr (fun _ => False) (outSize - 1) 0 out
        (copyLoop s.machine.mem (r * 4096) syscallName userPtr (outSize - 1) 0 out) :=
    copyLoop_ok hg.inv.spaces hcr3 (outSize - 1) 0 out (fun _ => False)
      (by omega) (fun h => absurd rfl h)
  unfold copyUserString
  rw [hrounds]
  generalize copyLoop s.machine.mem (r * 4096) syscallName userPtr (outSize - 1) 0
    out = t at hloop ⊢
  obtain ⟨events, e | ⟨n, out₁⟩⟩ := t
  · obtain ⟨k, _, hk, hbefore, hno⟩ := hloop.panics e rfl
    refine
      { copied := fun _ h => by cases h
        panics := fun _ _ =>
          ⟨k, by omega, fun j hj => hbefore j (Nat.zero_le j) hj, hno⟩
        writes := fun i hi => ?_
        accepted := hloop.accepted
        reads := fun earlier v later hev => ?_ }
    · have hlt := hloop.writes i hi
      omega
    · have hguarded : Guarded (fun _ => False) (earlier ++ .read v :: later) :=
        hev ▸ hloop.guarded
      exact hguarded.exists_accepted.resolve_left id
  · obtain ⟨_, hn, hend, hbytes, hsame⟩ := hloop.copied n out₁ rfl
    refine
      { copied := fun out' h => ?_
        panics := fun _ h => by cases h
        writes := fun i hi => ?_
        accepted := fun p hp => ?_
        reads := fun earlier v later hev => ?_ }
    · cases h
      refine ⟨n, by omega, fun k hk => ?_, hend.imp_left (fun h => by omega), ?_,
        update_self .., ?_⟩
      · exact ⟨_, hbytes k (Nat.zero_le k) hk⟩
      · intro k hk
        rw [update_of_ne (by omega)]
        exact (hbytes k (Nat.zero_le k) hk).1
      · intro k hk
        rw [update_of_ne (by omega)]
        exact hsame k (Or.inr (by omega))
    · rcases List.mem_append.mp hi with hi | hi
      · have hlt := hloop.writes i hi
        omega
      · cases List.mem_singleton.mp hi
        omega
    · rcases List.mem_append.mp hp with hp | hp
      · exact hloop.accepted p hp
      · cases List.mem_singleton.mp hp
    · have hguarded : Guarded (fun _ => False) (earlier ++ .read v :: later) :=
        hev ▸ hloop.guarded.append_write n
      exact hguarded.exists_accepted.resolve_left id

/-- A process with `"hi"` in the last two bytes of its only private page. -/
def bootString : Option (Spaces Nat) :=
  bootFile []
    [.process .createAddressSpace, .userStore 90112 (2 ^ 39 + 4094) 104,
      .userStore 90112 (2 ^ 39 + 4095) 105]

/-- A buffer of three bytes is filled without a look at the page behind. -/
theorem copy_user_string_hi :
    ∃ s, bootString = some s ∧
      (copyUserString s.machine.mem 90112 (2 ^ 39 + 4094) "SYS_WRITE" (fun _ => 255)
        3).result.toOption.any
          (fun out => out 0 = 104 ∧ out 1 = 105 ∧ out 2 = 0 ∧ out 3 = 255) = true ∧
      SafeCopy s.machine.mem 90112 (2 ^ 39 + 4094) (fun _ => 255) 3
        (copyUserString s.machine.mem 90112 (2 ^ 39 + 4094) "SYS_WRITE"
          (fun _ => 255) 3) := by
  have hrun :
      bootString.any (fun s =>
        decide (90112 ∈ s.roots) &&
          (copyUserString s.machine.mem 90112 (2 ^ 39 + 4094) "SYS_WRITE"
            (fun _ => 255) 3).result.toOption.any
              (fun out => out 0 = 104 ∧ out 1 = 105 ∧ out 2 = 0 ∧ out 3 = 255)) =
        true := by
    decide
  obtain ⟨s, hs, hstate⟩ := (Option.any_eq_true _ _).mp hrun
  rw [Bool.and_eq_true, decide_eq_true_eq] at hstate
  exact
    ⟨s, hs, hstate.2,
      copy_user_string_exact (reachable_of_bootFile hs) hstate.1 (by decide)
        (by decide) (by decide) _ _⟩

end Syscall
end RebornOS
