import RebornOS.SmpMailbox

/-!
# The identities of the started processors

Every processor that reaches `scheduler_start` needs its own stack, its own task
state segment, and its own entry in the table of `smp_current_cpu_index`.  An
acknowledgement does not say who sent it, but as long as the boot core never runs
into its timeout, it comes from the processor whose turn it is (`Prompt`), and the
identities are the processors' own (`own_identities_of_no_timeout`).
-/

namespace RebornOS
namespace Smp

open LabeledRun Function

variable {a bsp id index k n top top' : Nat} {s s' : State} {h h' : History} {e : Event}
  {i : Identity} {x : ApStage} {xs : List Heap.Block} {heap : Heap.State}
  {b : BootStage}

section Stacks

variable {heap' : Heap.State} {stackTop : Nat → Option Nat}

/-- The stacks are blocks of the heap, each for one processor. -/
def Stacks (heap : Heap.State) (stackTop : Nat → Option Nat) : Prop :=
  ∃ xs,
    Heap.Represents heap xs ∧
      (∀ a top, stackTop a = some top →
        ∃ x, x ∈ xs ∧ x.free = false ∧ apStackSize ≤ x.size ∧
          top = x.ptr + apStackSize) ∧
      ∀ a b top, stackTop a = some top → stackTop b = some top → a = b

theorem Stacks.kmalloc
    {p : Nat} (id : Nat)
    (hs : Stacks heap stackTop)
    (hk : Heap.kmalloc heap apStackSize = some (p, heap')) (hp : p ≠ 0) :
    Stacks heap' (update stackTop id (some (p + apStackSize))) := by
  obtain ⟨xs, hr, hblocks, hinj⟩ := hs
  obtain ⟨p', heap'', ys, hk', hr', hcase⟩ := hr.kmalloc apStackSize
  rw [hk, Option.some.injEq, Prod.mk.injEq] at hk'
  obtain ⟨rfl, rfl⟩ := hk'
  obtain ⟨_, halloc⟩ := hcase.resolve_left (fun hnull => hp hnull.1)
  have hround : Heap.roundUp apStackSize = apStackSize := by
    decide
  rw [hround] at halloc
  obtain ⟨x, hx, hptr, hused, hbig⟩ := Heap.exists_mem_allocList halloc
  -- the new pointer was not live before
  have hfresh : ∀ b, stackTop b ≠ some (p + apStackSize) := by
    intro b hb
    obtain ⟨y, hy, hyused, _, hytop⟩ := hblocks b _ hb
    have hnodup : (p :: Heap.livePtrs xs).Nodup :=
      (Heap.allocList_livePtrs halloc).nodup_iff.mp hr'.tiles.livePtrs_nodup
    refine (List.nodup_cons.mp hnodup).1 (Heap.mem_livePtrs.mpr ⟨y, hy, hyused, ?_⟩)
    exact (Nat.add_right_cancel hytop).symm
  refine ⟨ys, hr', ?_, ?_⟩
  · intro a top ha
    by_cases hid : a = id
    · rw [hid, update_self, Option.some.injEq] at ha
      exact ⟨x, hx, hused, hbig, by rw [hptr, ha]⟩
    · rw [update_of_ne hid] at ha
      obtain ⟨y, hy, hyused, hspec⟩ := hblocks a top ha
      exact ⟨y, Heap.mem_allocList_of_used halloc hy hyused, hyused, hspec⟩
  · intro a b top ha hb
    by_cases hid : a = id <;> by_cases hid' : b = id
    · rw [hid, hid']
    · rw [hid, update_self, Option.some.injEq] at ha
      rw [update_of_ne hid', ← ha] at hb
      exact absurd hb (hfresh b)
    · rw [hid', update_self, Option.some.injEq] at hb
      rw [update_of_ne hid, ← hb] at ha
      exact absurd ha (hfresh a)
    · rw [update_of_ne hid] at ha
      rw [update_of_ne hid'] at hb
      exact hinj a b top ha hb

theorem Stacks.apart
    {b : Nat} (hs : Stacks heap stackTop) (ha : stackTop a = some top)
    (hb : stackTop b = some top') (hne : a ≠ b) : Apart (some top) (some top') := by
  obtain ⟨xs, hr, hblocks, hinj⟩ := hs
  obtain ⟨x, hx, _, hxsize, rfl⟩ := hblocks a top ha
  obtain ⟨y, hy, _, hysize, rfl⟩ := hblocks b top' hb
  have hxy : x ≠ y := by
    rintro rfl
    exact hne (hinj a b _ ha hb)
  have hord := hr.tiles.ordered hx hy hxy
  simp only [Apart, Heap.Block.finish, Heap.Block.ptr] at *
  omega

theorem Stacks.move
    (hs : Stacks s.heap h.stackTop) (hmove : Move bsp s h e s' h') :
    Stacks s'.heap h'.stackTop := by
  cases hmove with
  | storeStack hboot hid hk hp =>
      exact hs.kmalloc _ hk hp
  | _ =>
      exact hs

end Stacks

section Identities

/-- `smp_current_cpu_index` finds the only entry for `id`. -/
theorem smpCurrentCpuIndex_eq
    (hk : k < s.cpuCount) (hid : s.coreApicIds k = id)
    (hunique : ∀ i, i < s.cpuCount → s.coreApicIds i = id → i = k) :
    smpCurrentCpuIndex s id = k := by
  unfold smpCurrentCpuIndex
  cases hfind : (List.range s.cpuCount).find? (fun i => s.coreApicIds i = id) with
  | none =>
      have hnone := List.find?_eq_none.mp hfind k (List.mem_range.mpr hk)
      exact absurd hid (by simpa using hnone)
  | some i =>
      have hi : i < s.cpuCount := List.mem_range.mp (List.mem_of_find?_eq_some hfind)
      exact hunique i hi (by simpa using List.find?_some hfind)

/-- In the table, the boot core is entry 0 and no other. -/
theorem Mail.smpCurrentCpuIndex_boot
    (hm : Mail bsp s h) : smpCurrentCpuIndex s bsp = 0 := by
  refine smpCurrentCpuIndex_eq hm.boot_core.1 hm.boot_core.2 ?_
  intro i hi hid
  by_contra hne
  exact (hm.listed bsp i ⟨Nat.one_le_iff_ne_zero.mpr hne, hi, hid⟩).1 rfl

theorem Mail.smpCurrentCpuIndex_listed
    (hm : Mail bsp s h) (hk : Listed s id k) : smpCurrentCpuIndex s id = k := by
  obtain ⟨hne, hassigned, _⟩ := hm.listed id k hk
  refine smpCurrentCpuIndex_eq hk.2.1 hk.2.2 ?_
  intro i hi hid
  have hpos : 1 ≤ i := by
    by_contra hzero
    obtain rfl : i = 0 := by omega
    exact hne (hid.symm.trans hm.boot_core.2)
  obtain ⟨_, hassigned', _⟩ := hm.listed id i ⟨hpos, hi, hid⟩
  exact Option.some.inj (hassigned'.symm.trans hassigned)

/-- A core in `scheduler_start` is the boot core or a processor that has joined. -/
theorem identity_eq_some
    (hid : identity bsp s id = some i) :
    (id = bsp ∧ i = ⟨none, 0⟩) ∨
      (id ≠ bsp ∧ ∃ top index, s.ap id = .joined top index ∧ i = ⟨some top, index⟩) := by
  unfold identity at hid
  split_ifs at hid with hbsp hjoined
  · exact Or.inl ⟨hbsp, (Option.some.inj hid).symm⟩
  · refine Or.inr ⟨hbsp, ?_⟩
    split at hid
    case h_1 top index hap =>
      exact ⟨top, index, hap, (Option.some.inj hid).symm⟩
    case h_2 =>
      cases hid

/--
Every processor in `scheduler_start` was counted in some turn of its own, has read
its own index, and shares its stack with no other one.
-/
structure InTurn (s : State) (h : History) : Prop where
  listed :
    ∀ a top index, s.ap a = .joined top index → ∃ k, Listed s a k
  index :
    ∀ a top index, s.ap a = .joined top index → h.indexFrom a = some a
  stack :
    ∀ a b top top' index index', s.ap a = .joined top index →
      s.ap b = .joined top' index' → a ≠ b → h.stackFrom a ≠ h.stackFrom b

/-- A processor that was in turn is listed under the index it has read. -/
theorem Inv.listed_of_inTurn
    (hi : Inv bsp s h) (ht : InTurn s h) (hap : s.ap id = .joined top index) :
    Listed s id index ∧ h.assigned id = some index := by
  have hr := hi.reads id (by rw [hap]; nofun)
  obtain ⟨b, hfrom, hassigned⟩ := hr.index index (by rw [hap]; rfl)
  obtain rfl : id = b :=
    Option.some.inj ((ht.index id top index hap).symm.trans hfrom)
  obtain ⟨k, hk⟩ := ht.listed id top index hap
  obtain rfl : k = index :=
    Option.some.inj ((hi.mail.listed id k hk).2.1.symm.trans hassigned)
  exact ⟨hk, hassigned⟩

/-- The index of a core leads back to it. -/
theorem Inv.core_of_identity
    (hi : Inv bsp s h) (ht : InTurn s h) (hid : identity bsp s id = some i) :
    smpCurrentCpuIndex s id = i.tss ∧ s.coreApicIds i.tss = id := by
  rcases identity_eq_some hid with ⟨rfl, rfl⟩ | ⟨_, top, index, hap, rfl⟩
  · exact ⟨hi.mail.smpCurrentCpuIndex_boot, hi.mail.boot_core.2⟩
  · obtain ⟨hlisted, _⟩ := hi.listed_of_inTurn ht hap
    exact ⟨hi.mail.smpCurrentCpuIndex_listed hlisted, hlisted.2.2⟩

/-- Two processors in `scheduler_start` do not share a stack. -/
theorem Inv.apart_of_joined
    {b index' : Nat} (hi : Inv bsp s h) (hs : Stacks s.heap h.stackTop)
    (ht : InTurn s h) (ha : s.ap a = .joined top index)
    (hb : s.ap b = .joined top' index') (hne : a ≠ b) :
    Apart (some top) (some top') := by
  obtain ⟨c, hc, htop⟩ :=
    (hi.reads a (by rw [ha]; nofun)).stack top (by rw [ha]; rfl)
  obtain ⟨d, hd, htop'⟩ :=
    (hi.reads b (by rw [hb]; nofun)).stack top' (by rw [hb]; rfl)
  refine hs.apart htop htop' ?_
  rintro rfl
  exact ht.stack a b top top' index index' ha hb hne (hc.trans hd.symm)

theorem Inv.ownIdentities_of_inTurn
    (hi : Inv bsp s h) (hs : Stacks s.heap h.stackTop) (ht : InTurn s h) :
    OwnIdentities bsp s h := by
  have htss : ∀ a b i j, identity bsp s a = some i → identity bsp s b = some j →
      a ≠ b → i.tss ≠ j.tss := by
    intro a b i j ha hb hne heq
    apply hne
    rw [← (hi.core_of_identity ht ha).2, heq, (hi.core_of_identity ht hb).2]
  refine ⟨?_, fun a i ha => (hi.core_of_identity ht ha).1, ?_, htss, ?_⟩
  · intro a i ha hne
    rcases identity_eq_some ha with ⟨rfl, _⟩ | ⟨_, top, index, hap, rfl⟩
    · exact absurd rfl hne
    · exact (hi.listed_of_inTurn ht hap).2
  · intro a b i j ha hb hne
    rw [(hi.core_of_identity ht ha).1, (hi.core_of_identity ht hb).1]
    exact htss a b i j ha hb hne
  · intro a b i j ha hb hne
    rcases identity_eq_some ha with ⟨rfl, rfl⟩ | ⟨_, top, index, hap, rfl⟩
    · rcases identity_eq_some hb with ⟨rfl, rfl⟩ | ⟨_, top', index', hap', rfl⟩
      · exact absurd rfl hne
      · trivial
    · rcases identity_eq_some hb with ⟨rfl, rfl⟩ | ⟨_, top', index', hap', rfl⟩
      · trivial
      · exact hi.apart_of_joined hs ht hap hap' hne

end Identities

section Prompt

/-- The processor has incremented `ap_started_count`. -/
def ApStage.acknowledged : ApStage → Bool
  | .counted _ _ | .joined _ _ => true
  | _ => false

/-- What the counter says during a turn. -/
def Counter (s : State) : BootStage → Prop
  | .sampled _ _ before => s.apStartedCount = before
  | .spinning id _ before =>
      (s.ap id).acknowledged = true ∨ s.apStartedCount = before
  | .leaving id _ before =>
      (s.ap id).acknowledged = true ∧ s.apStartedCount ≠ before
  | _ => True

/-- No processor is late. -/
structure Prompt (s : State) (h : History) : Prop where
  stack : ∀ a top, (s.ap a).stack = some top → h.stackFrom a = some a
  index : ∀ a k, (s.ap a).index = some k → h.indexFrom a = some a
  counted :
    ∀ a, s.ap a ≠ .off → s.boot.sentFor ≠ some a →
      (s.ap a).acknowledged = true ∧ ∃ k, Listed s a k
  counter : Counter s s.boot
  ready : s.schedulerReady = true → s.boot = .signalled ∨ s.boot = .joined
  gate : ∀ a top k, s.ap a = .joined top k → s.schedulerReady = true

/-- A processor that has not acknowledged is the one that is waited for. -/
theorem Prompt.spinning_of_unacknowledged
    (hp : Prompt s h) (hon : s.ap id ≠ .off) (hun : (s.ap id).acknowledged = false) :
    ∃ rest before, s.boot = .spinning id rest before := by
  have hsent : s.boot.sentFor = some id := by
    by_contra hne
    exact absurd ((hp.counted id hon hne).1.symm.trans hun) nofun
  have hcounter := hp.counter
  cases hboot : s.boot with
  | spinning id' rest before =>
      rw [hboot] at hsent
      obtain ⟨⟩ := hsent
      exact ⟨rest, before, rfl⟩
  | leaving id' rest before =>
      rw [hboot] at hsent hcounter
      obtain ⟨⟩ := hsent
      exact absurd (hcounter.1.symm.trans hun) nofun
  | _ =>
      rw [hboot] at hsent
      cases hsent

/-- The boot core moves, and no processor does. -/
theorem Prompt.boot
    (hp : Prompt s h) (hap : s'.ap = s.ap)
    (hstack : h'.stackFrom = h.stackFrom) (hindex : h'.indexFrom = h.indexFrom)
    (hcounted : ∀ a, s.ap a ≠ .off → s'.boot.sentFor ≠ some a →
      (s.ap a).acknowledged = true ∧ ∃ k, Listed s' a k)
    (hcounter : Counter s' s'.boot)
    (hready : s'.schedulerReady = true → s'.boot = .signalled ∨ s'.boot = .joined)
    (hstays : s.schedulerReady = true → s'.schedulerReady = true) : Prompt s' h' := by
  refine ⟨?_, ?_, ?_, hcounter, hready, ?_⟩
  · rw [hap, hstack]
    exact hp.stack
  · rw [hap, hindex]
    exact hp.index
  · rw [hap]
    exact hcounted
  · rw [hap]
    exact fun a top k ha => hstays (hp.gate a top k ha)

/-- The processor `id` moves, or is started by the boot core. -/
theorem Prompt.ap
    {stackFrom indexFrom : Nat → Option Nat} (hp : Prompt s h)
    (hstack : ∀ top, x.stack = some top → stackFrom id = some id)
    (hindex : ∀ k, x.index = some k → indexFrom id = some id) (hothers : ∀ a, a ≠ id →
      stackFrom a = h.stackFrom a ∧ indexFrom a = h.indexFrom a)
    (hcounted : b.sentFor ≠ some id → x.acknowledged = true ∧ ∃ k, Listed s id k)
    (hsent : ∀ a, a ≠ id → s.boot.sentFor = some a → b.sentFor = some a)
    (hcounter : Counter
      { s with apStartedCount := n, ap := update s.ap id x } b)
    (hready : s.schedulerReady = true → b = .signalled ∨ b = .joined)
    (hgate : ∀ top k, x = .joined top k → s.schedulerReady = true) :
    Prompt
      { s with apStartedCount := n, boot := b, ap := update s.ap id x }
      { h with stackFrom := stackFrom, indexFrom := indexFrom } := by
  have hsplit : ∀ {P : Nat → ApStage → Prop}, P id x → (∀ a, a ≠ id → P a (s.ap a)) →
      ∀ a, P a (update s.ap id x a) := fun hone hall =>
    (forall_update_iff s.ap _).mpr ⟨hone, hall⟩
  refine ⟨?_, ?_, ?_, hcounter, hready, ?_⟩
  · refine hsplit (P := fun a y => ∀ top, y.stack = some top → _) hstack ?_
    intro a ha top htop
    exact (hothers a ha).1.trans (hp.stack a top htop)
  · refine hsplit (P := fun a y => ∀ k, y.index = some k → _) hindex ?_
    intro a ha k hk
    exact (hothers a ha).2.trans (hp.index a k hk)
  · refine hsplit (P := fun a y => y ≠ .off → _ → y.acknowledged = true ∧ _) ?_ ?_
    · exact fun _ => hcounted
    · exact fun a ha hon hne => hp.counted a hon (fun hs => hne (hsent a ha hs))
  · exact hsplit (P := fun a y => ∀ top k, y = .joined top k → _) hgate
      (fun a _ => hp.gate a)

theorem Counter.mono
    (hc : Counter s b) (hcount : s'.apStartedCount = s.apStartedCount)
    (hack : ∀ a, (s.ap a).acknowledged = true → (s'.ap a).acknowledged = true) :
    Counter s' b := by
  cases b with
  | sampled id rest before =>
      exact hcount.trans hc
  | spinning id rest before =>
      exact hc.imp (hack id) hcount.trans
  | leaving id rest before =>
      exact ⟨hack id hc.1, hcount ▸ hc.2⟩
  | _ =>
      trivial

/-- A processor that reads or joins does not change the counter. -/
theorem Counter.update
    (hc : Counter s s.boot)
    (hack : (s.ap id).acknowledged = true → x.acknowledged = true) :
    Counter { s with ap := update s.ap id x } s.boot := by
  refine hc.mono rfl ?_
  intro a ha
  by_cases hid : a = id
  · subst hid
    exact (congrArg _ (update_self a x s.ap)).trans (hack ha)
  · exact (congrArg _ (update_of_ne hid x s.ap)).trans ha

theorem Prompt.unready
    (hp : Prompt s h) (hsignalled : s.boot ≠ .signalled) (hjoined : s.boot ≠ .joined) :
    s.schedulerReady ≠ true :=
  fun hr => (hp.ready hr).elim hsignalled hjoined

/-- The boot core's moves before the startup interrupts of a turn. -/
theorem Prompt.between
    {m : Nat} (hp : Prompt s h) (hsent : s.boot.sentFor = none)
    (hcounter : Counter { s with boot := b } b) (hunready : s.schedulerReady ≠ true)
    (hstack : h'.stackFrom = h.stackFrom) (hindex : h'.indexFrom = h.indexFrom) :
    Prompt { s with heap := heap, apStackTop := n, apCoreIndex := m, boot := b } h' := by
  refine hp.boot rfl hstack hindex ?_ hcounter (fun hr => absurd hr hunready) (fun hr => hr)
  intro a ha _
  exact hp.counted a ha (by rw [hsent]; nofun)

/-- A processor that is counted in its own turn is listed. -/
theorem Prompt.addCore
    {before : Nat} {rest : List Nat} (hp : Prompt s h) (hm : Mail bsp s h)
    (hboot : s.boot = .leaving id rest before) :
    Prompt { addCore s id with boot := .loop rest } h := by
  have hcounter := hp.counter
  rw [hboot] at hcounter
  have hunready := hp.unready (by rw [hboot]; nofun) (by rw [hboot]; nofun)
  refine hp.boot rfl rfl rfl ?_ trivial (fun hr => absurd hr hunready) (fun hr => hr)
  intro a ha _
  by_cases hid : a = id
  · subst hid
    exact ⟨hcounter.1, s.cpuCount,
      (listed_addCore hm.boot_core.1).mpr (Or.inr ⟨rfl, rfl⟩)⟩
  · have hother : s.boot.sentFor ≠ some a := by
      rw [hboot]
      exact fun heq => hid (Option.some.inj heq).symm
    obtain ⟨hack, k, hk⟩ := hp.counted a ha hother
    exact ⟨hack, k, (listed_addCore hm.boot_core.1).mpr (Or.inl hk)⟩

theorem Prompt.move
    (hp : Prompt s h) (hi : Inv bsp s h) (hmove : Move bsp s h e s' h')
    (he : e ≠ .giveUp) : Prompt s' h' := by
  have hcounter := hp.counter
  cases hmove with
  | signal hboot =>
      refine hp.boot rfl rfl rfl ?_ trivial (fun _ => Or.inl rfl) (fun _ => rfl)
      exact fun a ha _ => hp.counted a ha (by rw [hboot]; nofun)
  | join hboot =>
      refine hp.boot rfl rfl rfl ?_ trivial (fun _ => Or.inr rfl) (fun hr => hr)
      exact fun a ha _ => hp.counted a ha (by rw [hboot]; nofun)
  | skip hboot | storeStack hboot | storeIndex hboot =>
      have hunready := hp.unready (by rw [hboot]; nofun) (by rw [hboot]; nofun)
      exact hp.between (by rw [hboot]; rfl) trivial hunready rfl rfl
  | sample hboot =>
      have hunready := hp.unready (by rw [hboot]; nofun) (by rw [hboot]; nofun)
      exact hp.between (by rw [hboot]; rfl) rfl hunready rfl rfl
  | sendStartup hboot =>
      have hunready := hp.unready (by rw [hboot]; nofun) (by rw [hboot]; nofun)
      rw [hboot] at hcounter
      refine hp.ap nofun nofun (fun _ _ => ⟨rfl, rfl⟩) (fun hne => absurd rfl hne) ?_
        (Or.inr hcounter) (fun hr => absurd hr hunready) nofun
      rw [hboot]
      nofun
  | see hboot hseen =>
      have hunready := hp.unready (by rw [hboot]; nofun) (by rw [hboot]; nofun)
      rw [hboot] at hcounter
      refine hp.boot rfl rfl rfl ?_ ⟨hcounter.resolve_right hseen, hseen⟩
        (fun hr => absurd hr hunready) (fun hr => hr)
      have hcounted := hp.counted
      rwa [hboot] at hcounted
  | timeout =>
      exact absurd rfl he
  | drop hboot hunseen =>
      rw [hboot] at hcounter
      exact absurd hunseen hcounter.2
  | credit hboot hseen =>
      exact hp.addCore hi.mail hboot
  | @readStack id hap =>
      have hun : (s.ap id).acknowledged = false := by rw [hap]; rfl
      obtain ⟨rest, before, hboot⟩ :=
        hp.spinning_of_unacknowledged (by rw [hap]; nofun) hun
      have howner := (hi.mail.stackFor id (by rw [hboot]; rfl)).2
      refine hp.ap ?_ nofun ?_ ?_ (fun _ _ hs => hs) ?_ hp.ready nofun
      · exact fun _ _ => (update_self ..).trans howner
      · exact fun a ha => ⟨update_of_ne ha _ _, rfl⟩
      · exact fun hne => absurd (by rw [hboot]; rfl) hne
      · exact hcounter.update (fun hack => absurd (hun.symm.trans hack) nofun)
  | @readIndex id top hap =>
      have hun : (s.ap id).acknowledged = false := by rw [hap]; rfl
      obtain ⟨rest, before, hboot⟩ :=
        hp.spinning_of_unacknowledged (by rw [hap]; nofun) hun
      have howner := (hi.mail.indexFor id (by rw [hboot]; rfl)).1
      have hstack := hp.stack id top (by rw [hap]; rfl)
      refine hp.ap ?_ ?_ ?_ ?_ (fun _ _ hs => hs) ?_ hp.ready nofun
      · exact fun _ _ => hstack
      · exact fun _ _ => (update_self ..).trans howner
      · exact fun a ha => ⟨rfl, update_of_ne ha _ _⟩
      · exact fun hne => absurd (by rw [hboot]; rfl) hne
      · exact hcounter.update (fun hack => absurd (hun.symm.trans hack) nofun)
  | @count id top index hap =>
      have hun : (s.ap id).acknowledged = false := by rw [hap]; rfl
      obtain ⟨rest, before, hboot⟩ :=
        hp.spinning_of_unacknowledged (by rw [hap]; nofun) hun
      have hstack := hp.stack id top (by rw [hap]; rfl)
      have hindex := hp.index id index (by rw [hap]; rfl)
      refine hp.ap ?_ ?_ ?_ ?_ (fun _ _ hs => hs) ?_ hp.ready nofun
      · exact fun _ _ => hstack
      · exact fun _ _ => hindex
      · exact fun a _ => ⟨rfl, rfl⟩
      · exact fun hne => absurd (by rw [hboot]; rfl) hne
      · rw [hboot]
        exact Or.inl (by simp [ApStage.acknowledged])
  | @enter id top index hap hready =>
      have hstack := hp.stack id top (by rw [hap]; rfl)
      have hindex := hp.index id index (by rw [hap]; rfl)
      refine hp.ap ?_ ?_ ?_ ?_ (fun _ _ hs => hs) ?_ hp.ready (fun _ _ _ => hready)
      · exact fun _ _ => hstack
      · exact fun _ _ => hindex
      · exact fun a _ => ⟨rfl, rfl⟩
      · exact fun hne => ⟨rfl, (hp.counted id (by rw [hap]; nofun) hne).2⟩
      · exact hcounter.update (fun _ => rfl)

theorem Prompt.inTurn
    (hp : Prompt s h) : InTurn s h := by
  refine ⟨?_, fun a top index ha => hp.index a index (by rw [ha]; rfl), ?_⟩
  · intro a top index ha
    refine (hp.counted a (by rw [ha]; nofun) ?_).2
    rcases hp.ready (hp.gate a top index ha) with hboot | hboot
    all_goals
      rw [hboot]
      nofun
  · intro a b top top' index index' ha hb hne
    rw [hp.stack a top (by rw [ha]; rfl), hp.stack b top' (by rw [hb]; rfl)]
    exact fun heq => hne (Option.some.inj heq)

end Prompt

section Runs

variable {madt : List Nat}

theorem inv_smpInit
    (heap : Heap.State) (bsp : Nat) (hmadt : madt.Nodup) :
    Inv bsp (smpInit heap bsp madt) initialHistory := by
  have hlisted : ∀ a k, ¬ Listed (smpInit heap bsp madt) a k := by
    rintro a k ⟨hpos, hlt, _⟩
    exact absurd hlt (Nat.not_lt.mpr hpos)
  refine ⟨⟨?_, fun _ _ _ => rfl, fun _ _ _ => rfl, nofun, nofun, nofun, nofun, ?_, ?_,
    nofun⟩, ?_⟩
  · exact (List.take_sublist smpMaxCpus madt).nodup hmadt
  · exact ⟨le_refl 1, by simp [smpInit]⟩
  · exact fun a k hk => absurd hk (hlisted a k)
  · exact fun a ha => absurd rfl ha

/-- No stack is allocated yet. -/
theorem stacks_initialHistory
    (hheap : Heap.Represents heap xs) : Stacks heap initialHistory.stackTop := by
  refine ⟨xs, hheap, ?_, ?_⟩
  · intro a top ha
    exact absurd ha (by simp [initialHistory])
  · intro a b top ha
    exact absurd ha (by simp [initialHistory])

/-- The invariants hold after every run. -/
theorem inv_of_run
    {events : List Event} (hheap : Heap.Represents heap xs) (hmadt : madt.Nodup)
    (hrun : runAll (withHistory (step bsp) record)
      (smpInit heap bsp madt, initialHistory) events = some (s, h)) :
    Inv bsp s h ∧ Stacks s.heap h.stackTop := by
  refine runAll_invariant
    (P := fun x : State × History => Inv bsp x.1 x.2 ∧ Stacks x.1.heap x.2.stackTop)
    ?_ ⟨inv_smpInit heap bsp hmadt, stacks_initialHistory hheap⟩ hrun
  rintro x e y ⟨hi, hs⟩ hstep
  exact ⟨hi.move (move_of_step hstep), hs.move (move_of_step hstep)⟩

theorem prompt_smpInit
    (heap : Heap.State) (bsp : Nat) (madt : List Nat) :
    Prompt (smpInit heap bsp madt) initialHistory where
  stack _ _ ha := nomatch ha
  index _ _ ha := nomatch ha
  counted _ ha := absurd rfl ha
  counter := trivial
  ready hr := nomatch hr
  gate _ _ _ ha := nomatch ha

/--
**Identities of the cores.**  In every run in which the boot core does not run into
its timeout, all cores in `scheduler_start` have identities of their own, however
long the processors take and in whatever order the cores move.
-/
theorem own_identities_of_no_timeout
    (heap : Heap.State) (xs : List Heap.Block) (bsp : Nat) (madt : List Nat)
    (events : List Event) (s : State) (h : History)
    (hheap : Heap.Represents heap xs) (hmadt : madt.Nodup)
    (hwaits : Event.giveUp ∉ events)
    (hrun : runAll (withHistory (step bsp) record)
      (smpInit heap bsp madt, initialHistory) events = some (s, h)) :
    OwnIdentities bsp s h := by
  obtain ⟨hi, hs⟩ := inv_of_run hheap hmadt hrun
  refine hi.ownIdentities_of_inTurn hs (Prompt.inTurn (runAll_invariant_of_forall
    (P := fun x : State × History => Inv bsp x.1 x.2 ∧ Prompt x.1 x.2)
    (C := fun e => e ≠ .giveUp) ?_
    ⟨inv_smpInit heap bsp hmadt, prompt_smpInit heap bsp madt⟩ ?_ hrun).2)
  · rintro x e y ⟨hi, hp⟩ he hstep
    exact ⟨hi.move (move_of_step hstep), hp.move hi (move_of_step hstep) he⟩
  · rintro e he rfl
    exact hwaits he

/-- Processor 1 reads the mailbox after the boot core has filled it for processor 2. -/
def lateProcessor : List Event :=
  [.boot, .boot, .boot, .boot, .boot, .giveUp, .boot,
    .boot, .boot, .boot, .boot, .ap 1, .ap 1, .ap 1, .boot, .boot,
    .boot, .boot, .ap 2, .ap 2, .ap 2, .ap 2, .ap 1]

/-- Both then run on one stack under index 1, and processor 1 passes for the boot core. -/
theorem late_processor_shares_identity :
    ∃ s h,
      runAll (withHistory (step 0) record)
          (smpInit (Heap.heapInit (fun _ => 0)) 0 [0, 1, 2], initialHistory)
          lateProcessor = some (s, h) ∧
        identity 0 s 0 = some ⟨none, 0⟩ ∧
        identity 0 s 1 = some ⟨some s.apStackTop, 1⟩ ∧
        identity 0 s 2 = some ⟨some s.apStackTop, 1⟩ ∧
        smpCurrentCpuIndex s 0 = 0 ∧ smpCurrentCpuIndex s 1 = 0 ∧
        ¬ OwnIdentities 0 s h := by
  have hfinal :
      (runAll (step 0) (smpInit (Heap.heapInit (fun _ => 0)) 0 [0, 1, 2])
        lateProcessor).any (fun s =>
          identity 0 s 0 = some ⟨none, 0⟩ ∧
            identity 0 s 1 = some ⟨some s.apStackTop, 1⟩ ∧
            identity 0 s 2 = some ⟨some s.apStackTop, 1⟩ ∧
            smpCurrentCpuIndex s 0 = 0 ∧ smpCurrentCpuIndex s 1 = 0) := by
    decide
  obtain ⟨s, hs, hspec⟩ := (Option.any_eq_true _ _).mp hfinal
  obtain ⟨h, hrun⟩ := exists_history record initialHistory hs
  obtain ⟨hzero, hone, htwo, hboot, hother⟩ := of_decide_eq_true hspec
  refine ⟨s, h, hrun, hzero, hone, htwo, hboot, hother, ?_⟩
  exact fun ho => ho.tss 1 2 _ _ hone htwo (by decide) rfl

/-- Both processors come up in their own turns. -/
def bothInTurn : List Event :=
  [.boot, .boot, .boot, .boot, .boot, .ap 1, .ap 1, .ap 1, .boot, .boot,
    .boot, .boot, .boot, .boot, .ap 2, .ap 2, .ap 2, .boot, .boot,
    .boot, .ap 2, .boot, .ap 1]

theorem own_identities_both_in_turn :
    ∃ s h,
      runAll (withHistory (step 0) record)
          (smpInit (Heap.heapInit (fun _ => 0)) 0 [0, 1, 2], initialHistory)
          bothInTurn = some (s, h) ∧
        identity 0 s 0 ≠ none ∧ identity 0 s 1 ≠ none ∧ identity 0 s 2 ≠ none ∧
        OwnIdentities 0 s h := by
  have hfinal :
      (runAll (step 0) (smpInit (Heap.heapInit (fun _ => 0)) 0 [0, 1, 2])
        bothInTurn).any (fun s =>
          identity 0 s 0 ≠ none ∧ identity 0 s 1 ≠ none ∧ identity 0 s 2 ≠ none) := by
    decide
  obtain ⟨s, hs, hspec⟩ := (Option.any_eq_true _ _).mp hfinal
  obtain ⟨h, hrun⟩ := exists_history record initialHistory hs
  obtain ⟨hzero, hone, htwo⟩ := of_decide_eq_true hspec
  exact ⟨s, h, hrun, hzero, hone, htwo,
    own_identities_of_no_timeout _ _ 0 _ _ s h (Heap.represents_heapInit _) (by decide)
      (by decide) hrun⟩

end Runs

end Smp
end RebornOS
