import RebornOS.Smp

/-!
# The mailbox of `smp_init`

One mailbox serves all processors.  What the boot core keeps about it is `Mail`:
the values of the current turn are in it until the next turn stores its own, and
the table gives a processor the index that was stored in its turn.

`Reads` is about a started processor: every value that it reads was stored for some
processor, its own turn or not.
-/

namespace RebornOS
namespace Smp

open LabeledRun Function

variable {b : BootStage} {a before id n : Nat} {rest : List Nat}
  {indexFrom stackFrom : Nat → Option Nat}

/-- The processors whose turn in the loop of `smp_init` is not over. -/
def BootStage.pending : BootStage → List Nat
  | .loop rest => rest
  | .stackStored id rest | .indexStored id rest => id :: rest
  | .sampled id rest _ | .spinning id rest _ | .leaving id rest _ => id :: rest
  | .signalled | .joined => []

/-- The processor whose stack the boot core has just stored. -/
def BootStage.stackFor : BootStage → Option Nat
  | .stackStored id _ | .indexStored id _ => some id
  | .sampled id _ _ | .spinning id _ _ | .leaving id _ _ => some id
  | _ => none

/-- The processor whose index the boot core has just stored. -/
def BootStage.indexFor : BootStage → Option Nat
  | .indexStored id _ => some id
  | .sampled id _ _ | .spinning id _ _ | .leaving id _ _ => some id
  | _ => none

/-- The processor that the boot core is waiting for. -/
def BootStage.sentFor : BootStage → Option Nat
  | .spinning id _ _ | .leaving id _ _ => some id
  | _ => none

def ApStage.stack : ApStage → Option Nat
  | .off | .started => none
  | .onStack top | .indexed top _ | .counted top _ | .joined top _ => some top

def ApStage.index : ApStage → Option Nat
  | .off | .started | .onStack _ => none
  | .indexed _ index | .counted _ index | .joined _ index => some index

/-- `id` is entry `k` of `core_apic_ids`, and not the boot core's. -/
def Listed (s : State) (id k : Nat) : Prop :=
  1 ≤ k ∧ k < s.cpuCount ∧ s.coreApicIds k = id

/-- The mailbox and the table, as the boot core keeps them. -/
structure Mail (bsp : Nat) (s : State) (h : History) : Prop where
  nodup : s.boot.pending.Nodup
  unstacked :
    ∀ a, a ∈ s.boot.pending → s.boot.stackFor ≠ some a → h.stackTop a = none
  unassigned :
    ∀ a, a ∈ s.boot.pending → s.boot.indexFor ≠ some a → h.assigned a = none
  stackFor : ∀ a, s.boot.stackFor = some a → a ≠ bsp ∧ h.stackOwner = some a
  indexFor :
    ∀ a, s.boot.indexFor = some a →
      h.indexOwner = some a ∧ s.apCoreIndex = s.cpuCount
  stackOwner : ∀ b, h.stackOwner = some b → h.stackTop b = some s.apStackTop
  indexOwner : ∀ b, h.indexOwner = some b → h.assigned b = some s.apCoreIndex
  boot_core : 1 ≤ s.cpuCount ∧ s.coreApicIds 0 = bsp
  listed :
    ∀ a k, Listed s a k → a ≠ bsp ∧ h.assigned a = some k ∧ a ∉ s.boot.pending
  positive : ∀ a k, h.assigned a = some k → 1 ≤ k

section Moves

variable {bsp : Nat} {s s' : State} {h h' : History} {e : Event}

/-- From `b` to `b'` the boot core stores nothing into the mailbox. -/
structure Passes (b b' : BootStage) : Prop where
  pending : b'.pending.Sublist b.pending
  stackFor : ∀ a, b'.stackFor = some a → b.stackFor = some a
  indexFor : ∀ a, b'.indexFor = some a → b.indexFor = some a
  stack_stays :
    ∀ a, a ∈ b'.pending → b.stackFor = some a → b'.stackFor = some a
  index_stays :
    ∀ a, a ∈ b'.pending → b.indexFor = some a → b'.indexFor = some a

/-- The turn goes on. -/
theorem Passes.same
    {b' : BootStage} (hpending : b'.pending = b.pending)
    (hstack : b'.stackFor = b.stackFor) (hindex : b'.indexFor = b.indexFor) :
    Passes b b' where
  pending := by rw [hpending]
  stackFor a ha := by rwa [← hstack]
  indexFor a ha := by rwa [← hindex]
  stack_stays a _ ha := by rwa [hstack]
  index_stays a _ ha := by rwa [hindex]

/-- The end of a turn. -/
theorem Passes.next
    (hpending : b.pending = id :: rest) (hnodup : b.pending.Nodup)
    (hstack : b.stackFor = none ∨ b.stackFor = some id)
    (hindex : b.indexFor = none ∨ b.indexFor = some id) : Passes b (.loop rest) := by
  rw [hpending] at hnodup
  have hover : id ∉ rest := (List.nodup_cons.mp hnodup).1
  refine ⟨?_, nofun, nofun, ?_, ?_⟩
  · rw [hpending]
    exact List.sublist_cons_self id rest
  · intro a ha hb
    rcases hstack with hnone | hsome
    · exact absurd (hnone.symm.trans hb) nofun
    · obtain rfl : id = a := Option.some.inj (hsome.symm.trans hb)
      exact absurd ha hover
  · intro a ha hb
    rcases hindex with hnone | hsome
    · exact absurd (hnone.symm.trans hb) nofun
    · obtain rfl : id = a := Option.some.inj (hsome.symm.trans hb)
      exact absurd ha hover

theorem Mail.passes_of_leaving
    (hm : Mail bsp s h) (hboot : s.boot = .leaving id rest before) :
    Passes s.boot (.loop rest) := by
  have hnodup := hm.nodup
  rw [hboot] at hnodup ⊢
  exact .next rfl hnodup (Or.inr rfl) (Or.inr rfl)

theorem Mail.pass
    {ready : Bool} {ap : Nat → ApStage} (hm : Mail bsp s h) (hpass : Passes s.boot b) :
    Mail bsp
      { s with apStartedCount := n, schedulerReady := ready, boot := b, ap := ap }
      { h with stackFrom := stackFrom, indexFrom := indexFrom } where
  nodup := hpass.pending.nodup hm.nodup
  unstacked a ha hb :=
    hm.unstacked a (hpass.pending.subset ha) (fun hs => hb (hpass.stack_stays a ha hs))
  unassigned a ha hb :=
    hm.unassigned a (hpass.pending.subset ha) (fun hs => hb (hpass.index_stays a ha hs))
  stackFor a ha := hm.stackFor a (hpass.stackFor a ha)
  indexFor a ha := hm.indexFor a (hpass.indexFor a ha)
  stackOwner := hm.stackOwner
  indexOwner := hm.indexOwner
  boot_core := hm.boot_core
  listed a k hk :=
    have hspec := hm.listed a k hk
    ⟨hspec.1, hspec.2.1, fun ha => hspec.2.2 (hpass.pending.subset ha)⟩
  positive := hm.positive

theorem Mail.storeStack
    {top : Nat} {heap : Heap.State} (hm : Mail bsp s h)
    (hboot : s.boot = .loop (id :: rest)) (hid : id ≠ bsp) :
    Mail bsp
      { s with heap := heap, apStackTop := top, boot := .stackStored id rest }
      { h with
        stackTop := update h.stackTop id (some top)
        stackOwner := some id } := by
  obtain ⟨hnodup, hstack, hindex, -, -, -, hindexOwner, hcore, hlisted, hpos⟩ := hm
  rw [hboot] at hnodup hstack hindex hlisted
  refine ⟨hnodup, ?_, fun a ha _ => hindex a ha nofun, ?_, nofun, ?_, hindexOwner,
    hcore, hlisted, hpos⟩
  · intro a ha hne
    have hother : a ≠ id := fun heq => hne (congrArg some heq.symm)
    exact (update_of_ne hother _ _).trans (hstack a ha nofun)
  · rintro _ ⟨⟩
    exact ⟨hid, rfl⟩
  · rintro _ ⟨⟩
    exact update_self ..

theorem Mail.storeIndex
    (hm : Mail bsp s h) (hboot : s.boot = .stackStored id rest) :
    Mail bsp
      { s with apCoreIndex := s.cpuCount, boot := .indexStored id rest }
      { h with
        assigned := update h.assigned id (some s.cpuCount)
        indexOwner := some id } := by
  obtain ⟨hnodup, hstack, hindex, hstackFor, -, hstackOwner, -, hcore, hlisted,
    hpos⟩ := hm
  rw [hboot] at hnodup hstack hindex hstackFor hlisted
  refine ⟨hnodup, hstack, ?_, hstackFor, ?_, hstackOwner, ?_, hcore, ?_, ?_⟩
  · intro a ha hne
    have hother : a ≠ id := fun heq => hne (congrArg some heq.symm)
    exact (update_of_ne hother _ _).trans (hindex a ha nofun)
  · rintro _ ⟨⟩
    exact ⟨rfl, rfl⟩
  · rintro _ ⟨⟩
    exact update_self ..
  · -- the turns of the processors in the table are over
    intro a k hk
    obtain ⟨hne, hassigned, hover⟩ := hlisted a k hk
    have hother : a ≠ id := fun heq => hover (heq ▸ List.mem_cons_self)
    exact ⟨hne, (update_of_ne hother _ _).trans hassigned, hover⟩
  · intro a k hk
    change update h.assigned id (some s.cpuCount) a = some k at hk
    by_cases ha : a = id
    · rw [ha, update_self, Option.some.injEq] at hk
      exact hk ▸ hcore.1
    · rw [update_of_ne ha] at hk
      exact hpos a k hk

/-- The table after `addCore`. -/
theorem listed_addCore
    {k : Nat} (hcore : 1 ≤ s.cpuCount) :
    Listed (addCore s id) a k ↔ Listed s a k ∨ (a = id ∧ k = s.cpuCount) := by
  show (1 ≤ k ∧ k < s.cpuCount + 1 ∧
    update s.coreApicIds s.cpuCount id k = a) ↔ _
  by_cases heq : k = s.cpuCount
  · rw [heq, update_self]
    constructor
    · rintro ⟨_, _, rfl⟩
      exact Or.inr ⟨rfl, rfl⟩
    · rintro (⟨_, hlt, _⟩ | ⟨rfl, _⟩)
      · exact absurd hlt (lt_irrefl _)
      · exact ⟨hcore, Nat.lt_succ_self _, rfl⟩
  · rw [update_of_ne heq]
    constructor
    · rintro ⟨hpos, hlt, htable⟩
      exact Or.inl ⟨hpos, by omega, htable⟩
    · rintro (⟨hpos, hlt, htable⟩ | ⟨_, hk⟩)
      · exact ⟨hpos, by omega, htable⟩
      · exact absurd hk heq

/-- The processor gets the index that was stored for it. -/
theorem Mail.addCore
    (hm : Mail bsp s h) (hboot : s.boot = .leaving id rest before) :
    Mail bsp { addCore s id with boot := .loop rest } h := by
  have hm' : Mail bsp { s with boot := .loop rest } h :=
    hm.pass (hm.passes_of_leaving hboot)
  have hstackFor := hm.stackFor id (by rw [hboot]; rfl)
  have hindexFor := hm.indexFor id (by rw [hboot]; rfl)
  have hassigned := hm.indexOwner id hindexFor.1
  have hrest : id ∉ rest := by
    have hnodup := hm.nodup
    rw [hboot] at hnodup
    exact (List.nodup_cons.mp hnodup).1
  refine ⟨hm'.nodup, hm'.unstacked, hm'.unassigned, nofun, nofun, hm.stackOwner,
    hm.indexOwner, ?_, ?_, hm.positive⟩
  · obtain ⟨hcore, hzero⟩ := hm.boot_core
    refine ⟨Nat.le_add_right_of_le hcore, ?_⟩
    exact (update_of_ne (by omega) _ _).trans hzero
  · intro a k hk
    rcases (listed_addCore hm.boot_core.1).mp hk with hk | ⟨rfl, rfl⟩
    · exact hm'.listed a k hk
    · exact ⟨hstackFor.1, hassigned.trans (by rw [hindexFor.2]), hrest⟩

theorem Mail.move
    (hm : Mail bsp s h) (hmove : Move bsp s h e s' h') : Mail bsp s' h' := by
  cases hmove with
  | signal hboot =>
      exact hm.pass (by rw [hboot]; exact .same rfl rfl rfl)
  | join hboot =>
      exact hm.pass (by rw [hboot]; exact .same rfl rfl rfl)
  | skip hboot =>
      have hnodup := hm.nodup
      rw [hboot] at hnodup
      exact hm.pass (by rw [hboot]; exact .next rfl hnodup (Or.inl rfl) (Or.inl rfl))
  | storeStack hboot hid hk hp =>
      exact hm.storeStack hboot hid
  | storeIndex hboot =>
      exact hm.storeIndex hboot
  | sample hboot =>
      exact hm.pass (by rw [hboot]; exact .same rfl rfl rfl)
  | sendStartup hboot =>
      exact hm.pass (by rw [hboot]; exact .same rfl rfl rfl)
  | see hboot hseen =>
      exact hm.pass (by rw [hboot]; exact .same rfl rfl rfl)
  | timeout hboot hunseen =>
      exact hm.pass (by rw [hboot]; exact .same rfl rfl rfl)
  | drop hboot hunseen =>
      exact hm.pass (hm.passes_of_leaving hboot)
  | credit hboot hseen =>
      exact hm.addCore hboot
  | readStack hap =>
      exact hm.pass (.same rfl rfl rfl)
  | readIndex hap =>
      exact hm.pass (.same rfl rfl rfl)
  | count hap =>
      exact hm.pass (.same rfl rfl rfl)
  | enter hap hready =>
      exact hm.pass (.same rfl rfl rfl)

/-- What the boot core has recorded is not taken back. -/
structure Grows (h h' : History) : Prop where
  stackTop : ∀ b top, h.stackTop b = some top → h'.stackTop b = some top
  assigned : ∀ b k, h.assigned b = some k → h'.assigned b = some k

theorem Grows.pass :
    Grows h { h with stackFrom := stackFrom, indexFrom := indexFrom } where
  stackTop _ _ hb := hb
  assigned _ _ hb := hb

/-- A value recorded for the first time. -/
theorem update_of_none
    {f : Nat → Option Nat} {b x : Nat} {y : Option Nat} (hnone : f a = none)
    (hb : f b = some x) : update f a y b = some x := by
  have hne : b ≠ a := by
    rintro rfl
    exact absurd (hnone.symm.trans hb) nofun
  rw [update_of_ne hne, hb]

theorem Mail.grows
    (hm : Mail bsp s h) (hmove : Move bsp s h e s' h') : Grows h h' := by
  cases hmove with
  | storeStack hboot hid hk hp =>
      have hnone := hm.unstacked
      rw [hboot] at hnone
      exact ⟨fun _ _ => update_of_none (hnone _ List.mem_cons_self nofun), fun _ _ hb => hb⟩
  | storeIndex hboot =>
      have hnone := hm.unassigned
      rw [hboot] at hnone
      exact ⟨fun _ _ hb => hb, fun _ _ => update_of_none (hnone _ List.mem_cons_self nofun)⟩
  | _ =>
      exact .pass

/-- A started processor, and where the values it has read come from. -/
structure Reads (bsp : Nat) (s : State) (h : History) (a : Nat) : Prop where
  ne_boot : a ≠ bsp
  stackOwner : ∃ b, h.stackOwner = some b
  indexOwner : ∃ b, h.indexOwner = some b
  stack :
    ∀ top, (s.ap a).stack = some top →
      ∃ b, h.stackFrom a = some b ∧ h.stackTop b = some top
  index :
    ∀ k, (s.ap a).index = some k →
      ∃ b, h.indexFrom a = some b ∧ h.assigned b = some k

/-- A processor that does not move itself. -/
theorem Reads.grow
    (hr : Reads bsp s h a) (hgrow : Grows h h') (hap : s'.ap a = s.ap a)
    (hstack : h'.stackFrom a = h.stackFrom a) (hindex : h'.indexFrom a = h.indexFrom a)
    (hstackOwner : ∃ b, h'.stackOwner = some b)
    (hindexOwner : ∃ b, h'.indexOwner = some b) : Reads bsp s' h' a := by
  refine ⟨hr.ne_boot, hstackOwner, hindexOwner, ?_, ?_⟩
  · rw [hap, hstack]
    intro top htop
    obtain ⟨b, hfrom, hb⟩ := hr.stack top htop
    exact ⟨b, hfrom, hgrow.stackTop b top hb⟩
  · rw [hap, hindex]
    intro k hk
    obtain ⟨b, hfrom, hb⟩ := hr.index k hk
    exact ⟨b, hfrom, hgrow.assigned b k hb⟩

/-- The processor moves itself. -/
theorem Reads.own
    {x : ApStage} (hr : Reads bsp s h a) (hstack : ∀ top, x.stack = some top →
      ∃ b, stackFrom a = some b ∧ h.stackTop b = some top)
    (hindex : ∀ k, x.index = some k →
      ∃ b, indexFrom a = some b ∧ h.assigned b = some k) :
    Reads bsp
      { s with apStartedCount := n, ap := update s.ap a x }
      { h with stackFrom := stackFrom, indexFrom := indexFrom } a := by
  refine ⟨hr.ne_boot, hr.stackOwner, hr.indexOwner, ?_, ?_⟩
  · show ∀ top, (update s.ap a x a).stack = some top → _
    rw [update_self]
    exact hstack
  · show ∀ k, (update s.ap a x a).index = some k → _
    rw [update_self]
    exact hindex

/-- It reads nothing. -/
theorem Reads.keep
    {x : ApStage} (hr : Reads bsp s h a) (hstack : x.stack = (s.ap a).stack)
    (hindex : x.index = (s.ap a).index) :
    Reads bsp { s with apStartedCount := n, ap := update s.ap a x } h a := by
  refine hr.own ?_ ?_
  · rw [hstack]
    exact hr.stack
  · rw [hindex]
    exact hr.index

/-- What holds of every reachable state. -/
structure Inv (bsp : Nat) (s : State) (h : History) : Prop where
  mail : Mail bsp s h
  reads : ∀ a, s.ap a ≠ .off → Reads bsp s h a

/-- A started processor that does not move itself. -/
theorem Inv.reads_still
    (hi : Inv bsp s h) (hmove : Move bsp s h e s' h') (hap : s'.ap a = s.ap a)
    (hstack : h'.stackFrom a = h.stackFrom a) (hindex : h'.indexFrom a = h.indexFrom a)
    (ha : s.ap a ≠ .off) : Reads bsp s' h' a := by
  have hr := hi.reads a ha
  have hgrow := hi.mail.grows hmove
  cases hmove with
  | storeStack hboot hid hk hp =>
      exact hr.grow hgrow hap hstack hindex ⟨_, rfl⟩ hr.indexOwner
  | storeIndex hboot =>
      exact hr.grow hgrow hap hstack hindex hr.stackOwner ⟨_, rfl⟩
  | _ =>
      exact hr.grow hgrow hap hstack hindex hr.stackOwner hr.indexOwner

/-- The startup interrupts reach a processor in its own turn. -/
theorem Inv.reads_sendStartup
    (hi : Inv bsp s h) (hboot : s.boot = .sampled id rest before) :
    Reads bsp
      { s with
        ap := update s.ap id .started
        boot := .spinning id rest before } h id := by
  have hstackFor := hi.mail.stackFor id (by rw [hboot]; rfl)
  have hindexFor := hi.mail.indexFor id (by rw [hboot]; rfl)
  refine ⟨hstackFor.1, ⟨id, hstackFor.2⟩, ⟨id, hindexFor.1⟩, ?_, ?_⟩
  · intro top htop
    change (update s.ap id .started id).stack = some top at htop
    rw [update_self] at htop
    cases htop
  · intro k hk
    change (update s.ap id .started id).index = some k at hk
    rw [update_self] at hk
    cases hk

theorem Inv.move
    (hi : Inv bsp s h) (hmove : Move bsp s h e s' h') : Inv bsp s' h' := by
  refine ⟨hi.mail.move hmove, ?_⟩
  intro a ha
  have hstill := hi.reads_still (a := a) hmove
  cases hmove with
  | @sendStartup id _ _ hboot =>
      by_cases hid : a = id
      · subst hid
        exact hi.reads_sendStartup hboot
      · have hsame := update_of_ne hid ApStage.started s.ap
        exact hstill hsame rfl rfl (hsame ▸ ha)
  | @readStack id hap =>
      by_cases hid : a = id
      · subst hid
        have hr := hi.reads a (by rw [hap]; nofun)
        obtain ⟨b, hb⟩ := hr.stackOwner
        refine hr.own ?_ nofun
        rintro _ ⟨⟩
        exact ⟨b, (update_self ..).trans hb, hi.mail.stackOwner b hb⟩
      · have hsame := update_of_ne hid (.onStack s.apStackTop) s.ap
        exact hstill hsame (update_of_ne hid _ _) rfl (hsame ▸ ha)
  | @readIndex id top hap =>
      by_cases hid : a = id
      · subst hid
        have hr := hi.reads a (by rw [hap]; nofun)
        obtain ⟨b, hb⟩ := hr.indexOwner
        refine hr.own ?_ ?_
        · have hstack := hr.stack
          rwa [hap] at hstack
        · rintro _ ⟨⟩
          exact ⟨b, (update_self ..).trans hb, hi.mail.indexOwner b hb⟩
      · have hsame := update_of_ne hid (.indexed top s.apCoreIndex) s.ap
        exact hstill hsame rfl (update_of_ne hid _ _) (hsame ▸ ha)
  | @count id top index hap =>
      by_cases hid : a = id
      · subst hid
        have hr := hi.reads a (by rw [hap]; nofun)
        exact hr.keep (by rw [hap]; rfl) (by rw [hap]; rfl)
      · have hsame := update_of_ne hid (.counted top index) s.ap
        exact hstill hsame rfl rfl (hsame ▸ ha)
  | @enter id top index hap =>
      by_cases hid : a = id
      · subst hid
        have hr := hi.reads a (by rw [hap]; nofun)
        exact hr.keep (by rw [hap]; rfl) (by rw [hap]; rfl)
      · have hsame := update_of_ne hid (.joined top index) s.ap
        exact hstill hsame rfl rfl (hsame ▸ ha)
  | _ =>
      exact hstill rfl rfl rfl ha

end Moves

end Smp
end RebornOS
