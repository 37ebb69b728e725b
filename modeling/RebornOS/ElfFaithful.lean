import RebornOS.ArgvRoundTrip
import RebornOS.ElfSegments

/-!
# The loaded program is the program in the file

For an image whose segments lie in pages of their own, the space that
`elf_load_user_program` leaves is determined page by page: a page that a segment
overlaps holds the segment's part of the file and zeroes, with the rights of the
program header; the stack page is zero below the argument block; every other
page is as it was.
-/

namespace RebornOS
namespace Elf

open ByteStore WordBits PageWalk Fallible Vmm PagedSpace

variable {σ : Type} {argvPtr elfData r stackTop v : Nat} {K : Finset Nat}
  {roots : Set Nat} {mem mem₀ mem' : Store} {argv : List (List UInt8)} {ph : Phdr}
  {S : Space (UInt8 × Rights)} {alloc : σ → Nat × σ} {Valid : σ → Prop}
  {held : σ → Set Nat} {P : Target σ} {m m' : Machine σ}

section Layout

/-- What is asked of a single segment. -/
structure Phdr.LaidOut (ph : Phdr) : Prop where
  memsz_pos : 0 < ph.memsz
  filesz_le : ph.filesz ≤ ph.memsz
  file_end : ph.offset + ph.filesz < 2 ^ 64
  above : 2 ^ 39 ≤ ph.vaddr
  below : ph.vaddr + ph.memsz ≤ 2 ^ 47

/-- A page that the segment overlaps. -/
def Phdr.Overlaps (ph : Phdr) (page : Nat) : Prop :=
  ph.vaddr < (page + 1) * 4096 ∧ page * 4096 < ph.vaddr + ph.memsz

/-- The page below `ELF_USER_STACK_TOP`. -/
def stackPage : Nat := elfUserStackTop / 4096 - 1

/-- Header `i` describes a segment. -/
def IsLoad (mem : Store) (elfData i : Nat) : Prop :=
  i < phnum mem elfData ∧ (phdrAt mem elfData i).type = ptLoad

/-- The segments of an image, in pages of their own and off the stack. -/
structure SegmentsLaidOut (mem : Store) (elfData : Nat) : Prop where
  each : ∀ i, IsLoad mem elfData i → (phdrAt mem elfData i).LaidOut
  apart :
    ∀ i j page, IsLoad mem elfData i → IsLoad mem elfData j → i ≠ j →
      (phdrAt mem elfData i).Overlaps page →
        ¬ (phdrAt mem elfData j).Overlaps page
  off_stack :
    ∀ i, IsLoad mem elfData i → ¬ (phdrAt mem elfData i).Overlaps stackPage

/-- The rights of a page of the segment. -/
def Phdr.rights (ph : Phdr) : Rights :=
  { user := true
    writable := decide (ph.flags &&& pfW ≠ 0)
    noExecute := decide (ph.flags &&& pfX = 0) }

theorem mapRights_segmentFlags
    (ph : Phdr) : mapRights (segmentFlags ph) = ph.rights := by
  unfold mapRights segmentFlags Phdr.rights
  by_cases hw : ph.flags &&& pfW = 0
  · by_cases hx : ph.flags &&& pfX = 0
    · simp [hw, hx, vmmMapWrite, vmmMapExec]
    · simp [hw, hx, vmmMapWrite, vmmMapExec]
  · by_cases hx : ph.flags &&& pfX = 0
    · simp [hw, hx, vmmMapWrite, vmmMapExec]
    · simp [hw, hx, vmmMapWrite, vmmMapExec]

/-- The pages that are mapped for the segment are those that it overlaps. -/
theorem Phdr.LaidOut.pages
    (h : ph.LaidOut) (q : Nat) :
    (ph.firstPage ≤ q ∧ q < ph.firstPage + ph.pageCount) ↔ ph.Overlaps q := by
  have hpos := h.memsz_pos
  have hbelow := h.below
  have hdown : pageAlignDown ph.vaddr = ph.vaddr / 4096 * 4096 :=
    land_highMask (show ph.vaddr < 2 ^ 64 by omega) (by decide)
  have hmod : (ph.vaddr + ph.memsz) % 2 ^ 64 = ph.vaddr + ph.memsz :=
    Nat.mod_eq_of_lt (by omega)
  have hup : pageAlignUp ((ph.vaddr + ph.memsz) % 2 ^ 64) =
      (ph.vaddr + ph.memsz + 4096 - 1) / 4096 * 4096 := by
    unfold pageAlignUp pmmPageSize
    rw [hmod, Nat.mod_eq_of_lt (by omega)]
    exact land_highMask (by omega) (by decide)
  unfold Phdr.firstPage Phdr.pageCount Phdr.Overlaps pmmPageSize
  rw [hup, hdown]
  omega

/-- The hardware finds such a page where it is. -/
theorem Phdr.LaidOut.canonicalPage_eq
    (h : ph.LaidOut) {q : Nat} (hq : ph.Overlaps q) : canonicalPage q = q := by
  have hbelow := h.below
  unfold Phdr.Overlaps at hq
  unfold canonicalPage canonicalForm
  split_ifs <;> omega

/-- File bytes, zeroes behind them, zeroes around the segment. -/
theorem Phdr.LaidOut.segmentByte_eq
    (h : ph.LaidOut) (mem : Store) (elfData v : Nat) :
    segmentByte mem elfData ph v =
      if ph.vaddr ≤ v ∧ v < ph.vaddr + ph.filesz then
        imageByte mem elfData (ph.offset + (v - ph.vaddr))
      else
        0 := by
  have hfile := h.filesz_le
  have hbelow := h.below
  unfold segmentByte
  rw [Nat.mod_eq_of_lt (show ph.vaddr + ph.filesz < 2 ^ 64 by omega)]

end Layout

section Headers

/-- The pages that a header maps, under the layout. -/
theorem SegmentsLaidOut.maps_iff
    (h : SegmentsLaidOut mem elfData) {j : Nat} (hj : j < phnum mem elfData)
    (v : Nat) :
    (∃ q, SegmentMaps mem elfData j q ∧ canonicalPage q = v / 4096) ↔
      IsLoad mem elfData j ∧ (phdrAt mem elfData j).Overlaps (v / 4096) := by
  constructor
  · rintro ⟨q, ⟨hload, hq⟩, hplace⟩
    have hlaid := h.each j ⟨hj, hload⟩
    have hover := (hlaid.pages q).mp hq
    rw [← hplace, hlaid.canonicalPage_eq hover]
    exact ⟨⟨hj, hload⟩, hover⟩
  · rintro ⟨hload, hover⟩
    have hlaid := h.each j hload
    exact
      ⟨v / 4096, ⟨hload.2, (hlaid.pages _).mpr hover⟩,
        hlaid.canonicalPage_eq hover⟩

/-- A page of a segment after the first `n` headers. -/
theorem SegmentsLaidOut.headersSpace_eq
    (h : SegmentsLaidOut mem elfData) {n : Nat} (hn : n ≤ phnum mem elfData)
    (hslots : ∀ i, i < n → (phdrAt mem elfData i).type = ptLoad →
      PrivatePages (phdrAt mem elfData i)) :
    (∀ i, i < n → IsLoad mem elfData i →
      (phdrAt mem elfData i).Overlaps (v / 4096) →
        headersSpace mem elfData S n v =
          some (segmentByte mem elfData (phdrAt mem elfData i) v,
            (phdrAt mem elfData i).rights)) ∧
    ((∀ i, i < n → IsLoad mem elfData i →
      ¬ (phdrAt mem elfData i).Overlaps (v / 4096)) →
        headersSpace mem elfData S n v = S v) := by
  induction n with
  | zero =>
      exact ⟨fun i hi => absurd hi (Nat.not_lt_zero i), fun _ => rfl⟩
  | succ n ih =>
      obtain ⟨hpage, hnone⟩ :=
        ih (Nat.le_of_succ_le hn)
          (fun i hi => hslots i (Nat.lt_succ_of_lt hi))
      rw [headersSpace]
      rcases headerSpace_cases (hslots n (Nat.lt_succ_self n)) v with
        ⟨q, hq, hplace, hmapped⟩ | ⟨hskip, hkept⟩
      · -- header `n` maps the page, so no other one does
        obtain ⟨hload, hover⟩ := (h.maps_iff hn v).mp ⟨q, hq, hplace⟩
        have hlaid := h.each n hload
        have haddr : q * 4096 + v % 4096 = v := by
          rw [hlaid.canonicalPage_eq ((hlaid.pages q).mp hq.2)] at hplace
          omega
        rw [haddr, mapRights_segmentFlags] at hmapped
        refine ⟨fun i _ hi hoveri => ?_, fun hall => ?_⟩
        · by_cases hin : i = n
          · rw [hin]
            exact hmapped
          · exact absurd hover (h.apart i n _ hi hload hin hoveri)
        · exact absurd hover (hall n (Nat.lt_succ_self n) hload)
      · have hover : ∀ i, i < n + 1 → IsLoad mem elfData i →
            (phdrAt mem elfData i).Overlaps (v / 4096) → i < n := by
          intro i hi hload hover
          rcases Nat.lt_succ_iff_lt_or_eq.mp hi with hlt | rfl
          · exact hlt
          · obtain ⟨q, hq, hplace⟩ := (h.maps_iff hn v).mpr ⟨hload, hover⟩
            exact absurd hplace (hskip q hq)
        rw [hkept]
        exact
          ⟨fun i hi hload ho => hpage i (hover i hi hload ho) hload ho,
            fun hall => hnone (fun i hi => hall i (Nat.lt_succ_of_lt hi))⟩

end Headers

section Stack

/-- The size of the argument block; there is none without arguments. -/
def argvBlockSize (argv : List (List UInt8)) : Nat :=
  if argv.length = 0 then 0 else blobSize argv

/-- The argument block goes to the end of the page. -/
theorem writeArgvBlob_eq_ok
    {phys : Nat} (h : writeArgvBlob mem phys (elfUserStackTop - pmmPageSize) argv =
      .ok (mem', stackTop, argvPtr)) :
    stackTop = elfUserStackTop - argvBlockSize argv ∧
      argvBlockSize argv ≤ pmmPageSize ∧
      ∀ k, k < pmmPageSize - argvBlockSize argv →
        mem' (phys + k) = mem (phys + k) := by
  unfold argvBlockSize
  by_cases hpos : argv.length = 0
  · unfold writeArgvBlob at h
    rw [if_pos hpos] at h
    simp only [Except.ok.injEq, Prod.mk.injEq] at h
    rw [if_pos hpos, ← h.1, ← h.2.1]
    exact ⟨rfl, Nat.zero_le _, fun _ _ => rfl⟩
  · have hmax : argv.length ≤ elfArgvMaxArgs := by
      by_contra hmany
      unfold writeArgvBlob at h
      rw [if_neg hpos, if_pos (by omega)] at h
      cases h
    have hblob : blobBytes argv ≤ elfArgvMaxTotalBytes := by
      by_contra hlarge
      unfold writeArgvBlob at h
      rw [if_neg hpos, if_neg (by omega), if_pos (by omega)] at h
      cases h
    rw [writeArgvBlob_eq hpos hmax hblob] at h
    simp only [Except.ok.injEq, Prod.mk.injEq] at h
    obtain ⟨_, _, hsize, _, _⟩ := blob_sizes hblob
    unfold elfArgvMaxTotalBytes at hsize
    have hpage : pmmPageSize = 4096 := rfl
    rw [if_neg hpos, ← h.1, ← h.2.1]
    exact
      ⟨rfl, by omega, fun k hk => argvBlob_outside hblob mem (by omega)⟩

/-- Bytes written into frame `p` do not show in a page of another frame. -/
theorem DataInv.privateSpace_write
    {g : Ghost} (h : DataInv 3 alloc Valid held m roots g) {p : Nat} (hp : ¬ g.Table p)
    (hmem : SameOutside p m.mem mem') (hr : r ∈ roots)
    (hv : ∀ t, index v 39 ≠ 0 → translateAddr m.mem (r * 4096) v = some t →
      t.phys / 4096 ≠ p) :
    privateSpace mem' (r * 4096) v = privateSpace m.mem (r * 4096) v := by
  unfold privateSpace
  rw [h.translate_write (by decide) hp hmem hr v]
  split_ifs with hslot
  · rfl
  · refine Option.map_congr (fun t ht => ?_)
    rw [hmem _ (hv t hslot ht)]

/-- The stack page and the argument block in it. -/
theorem loadStack_space
    (hl : Loading P mem₀ m S) {top : Nat}
    (hrun : loadStack P.alloc (P.r * 4096) elfUserStackPages 0 0 m = .ok (top, m'))
    (hblob : writeArgvBlob m'.mem top (elfUserStackTop - pmmPageSize) argv =
      .ok (mem, stackTop, argvPtr)) :
    (∃ g, DataInv 3 P.alloc P.Valid P.held { m' with mem := mem } P.roots g) ∧
    ∃ f : Nat → UInt8,
      privateSpace mem (P.r * 4096) =
        PagedSpace.mapPage 4096 S stackPage
          (fun k => (f k, mapRights vmmMapWrite)) ∧
      ∀ k, k < pmmPageSize - argvBlockSize argv → f k = 0 := by
  have hr := P.root
  obtain ⟨g, hg⟩ := hl.inv
  obtain ⟨p, g', rfl, hpage⟩ :=
    loadStack_ok P.apart.toFreshPages (by decide) hg hr hrun
  have hg' := hpage.dataInv hg
  have hsame := sameOutside_writeArgvBlob hblob
  have hwritten := hg'.write (by decide) hpage.frame.2 hsame
  obtain ⟨_, hle, hbelow⟩ := writeArgvBlob_eq_ok hblob
  have hplace : canonicalForm (elfUserStackTop - pmmPageSize) / 4096 = stackPage :=
    by decide
  obtain ⟨hmapped, hunchanged⟩ := hpage.translate hg.inv hr
  rw [hplace] at hmapped hunchanged
  refine ⟨⟨g', hwritten⟩, fun k => mem (p * 4096 + k), ?_, ?_⟩
  · funext v
    by_cases hv : v / 4096 = stackPage
    · have hslot : index v 39 ≠ 0 := by
        rw [index_eq_of_page_eq (hv.trans hplace.symm) (by decide)]
        exact hpage.canonical.slot
      rw [mapPage_of_eq hv, privateSpace_of_ne hslot,
        hg'.translate_write (by decide) hpage.frame.2 hsame hr, hmapped v hv]
      rfl
    · have hframe : ∀ t, index v 39 ≠ 0 →
          translateAddr m'.mem (P.r * 4096) v = some t → t.phys / 4096 ≠ p := by
        intro t hslot ht
        rw [hunchanged P.r v hr (Or.inr hv)] at ht
        exact (hpage.others _ (hg.idle_of_translate hr hslot ht)).1
      rw [mapPage_of_ne hv, hg'.privateSpace_write hpage.frame.2 hsame hr hframe,
        hpage.privateSpace_eq hg hr, hplace, mapPage_of_ne hv, hl.space]
  · intro k hk
    have hlt : k < 4096 := lt_of_lt_of_le hk (Nat.sub_le _ _)
    show mem (p * 4096 + k) = 0
    rw [hbelow k hk, hpage.contents _ (by omega), fill_page _ _ hlt]

end Stack

section Faithful

variable {fb : Framebuffer} {elfSize : Nat} {out : Process}

/-- The file is in memory, in frames that are not handed out. -/
structure FileKept (elfData elfSize : Nat) (K : Finset Nat) : Prop where
  fits : elfData + elfSize ≤ 2 ^ 64
  frames : ∀ off, off < elfSize → (elfData + off) / 4096 ∈ K

/-- The file holds what the loader reads when the header table is inside it. -/
theorem FileKept.imageKept
    (h : FileKept elfData elfSize K) (hsize : ehdrSize ≤ elfSize)
    (htable : phoff mem₀ elfData + phnum mem₀ elfData * phdrSize ≤ elfSize)
    (hends : ∀ i, IsLoad mem₀ elfData i →
      (phdrAt mem₀ elfData i).offset + (phdrAt mem₀ elfData i).filesz < 2 ^ 64) :
    ImageKept mem₀ elfData elfSize K := by
  have hfits := h.fits
  have hframe : ∀ off k, off + k < elfSize →
      ((elfData + off) % 2 ^ 64 + k) / 4096 ∈ K := by
    intro off k hlt
    rw [Nat.mod_eq_of_lt (by omega), Nat.add_assoc]
    exact h.frames _ hlt
  refine ⟨?_, ?_, ?_⟩
  · intro off k hlt
    exact hframe off k (hlt.trans_le hsize)
  · intro i off k hi hlt
    refine hframe _ k (lt_of_lt_of_le ?_ htable)
    have hmul : (i + 1) * phdrSize ≤ phnum mem₀ elfData * phdrSize :=
      Nat.mul_le_mul_right phdrSize hi
    rw [Nat.succ_mul] at hmul
    omega
  · intro i k hi hload hin hlt
    rw [Nat.mod_eq_of_lt (hends i ⟨hi, hload⟩)] at hin
    have hat := hframe ((phdrAt mem₀ elfData i).offset + k) 0 (by omega)
    rwa [Nat.add_zero] at hat

/-- Rounds past the last header do nothing. -/
theorem loadSegments_rest
    (hi : ImageKept mem₀ elfData elfSize P.K) (rest n : Nat) :
    ∀ i m S, i + n = phnum mem₀ elfData →
      Loading P mem₀ m S →
      loadSegments P.alloc elfData elfSize (P.r * 4096) (n + rest) i m = .ok m' →
        loadSegments P.alloc elfData elfSize (P.r * 4096) n i m = .ok m' := by
  induction n with
  | zero =>
      intro i m S hin hl hrun
      have hnum := hi.phnum_eq hl.image
      rw [phnum] at hnum
      rw [Nat.add_zero] at hin
      cases rest with
      | zero =>
          exact hrun
      | succ rest =>
          rw [Nat.zero_add, loadSegments, hnum, if_neg (by rw [hin]; exact lt_irrefl _)] at hrun
          exact hrun
  | succ n ih =>
      intro i m S hin hl hrun
      have hnum := hi.phnum_eq hl.image
      rw [phnum] at hnum
      have hlt : i < phnum mem₀ elfData := by
        rw [← hin]
        omega
      rw [Nat.add_right_comm, loadSegments, hnum, if_pos hlt] at hrun
      obtain ⟨m₁, hstep, hrun⟩ := bind_eq_ok.mp hrun
      obtain ⟨hl₁, _⟩ := loadSegment_space hi hlt hl hstep
      rw [loadSegments, hnum, if_pos hlt, hstep]
      exact ih (i + 1) m₁ _ (by rw [← hin]; omega) hl₁ hrun

theorem elfLoadUserProgram_size
    {cr3 : Nat} (h : elfLoadUserProgram alloc m elfData elfSize cr3 argv =
      .ok (out, m')) : ehdrSize ≤ elfSize := by
  unfold elfLoadUserProgram at h
  split_ifs at h with hsize
  exact Nat.le_of_not_lt hsize

/-- The space that a successful load leaves. -/
theorem elfLoadUserProgram_space
    (hi : ImageKept m.mem elfData elfSize P.K)
    (hinv : ∃ g, DataInv 3 P.alloc P.Valid P.held m P.roots g)
    (hload : elfLoadUserProgram P.alloc m elfData elfSize (P.r * 4096) argv =
      .ok (out, m')) :
    (∃ g, DataInv 3 P.alloc P.Valid P.held m' P.roots g) ∧
    (∀ i, IsLoad m.mem elfData i →
      SegmentLoaded elfSize (phdrAt m.mem elfData i)) ∧
    out.stackTop = elfUserStackTop - argvBlockSize argv ∧
    ∃ f : Nat → UInt8,
      privateSpace m'.mem (P.r * 4096) =
        PagedSpace.mapPage 4096
          (headersSpace m.mem elfData (privateSpace m.mem (P.r * 4096))
            (phnum m.mem elfData))
          stackPage (fun k => (f k, mapRights vmmMapWrite)) ∧
      ∀ k, k < pmmPageSize - argvBlockSize argv → f k = 0 := by
  obtain ⟨m₁, m₂, top, mem, hsegments, hstack, hblob, _, rfl⟩ :=
    elfLoadUserProgram_eq_ok hload
  have hstart : Loading P m.mem m
      (privateSpace m.mem (P.r * 4096)) :=
    ⟨hinv, fun _ _ => rfl, rfl⟩
  -- `e_phnum` has two bytes, so the rounds reach the last header
  have hnum : phnum m.mem elfData ≤ 2 ^ 16 := (readLE_lt m.mem _ 2).le
  rw [← Nat.add_sub_cancel' hnum] at hsegments
  have hall :=
    loadSegments_rest hi _ _ 0 m _ (Nat.zero_add _) hstart hsegments
  obtain ⟨hl, hdone⟩ := loadSegments_space hi (le_refl _) hstart hall
  obtain ⟨hinv', hspace⟩ := loadStack_space hl hstack hblob
  exact
    ⟨hinv', fun i h => hdone i h.1 h.2, (writeArgvBlob_eq_ok hblob).1, hspace⟩

/-- A segment is in the space as the file and its header say. -/
structure SegmentFaithful (mem : Store) (elfData : Nat)
    (S : Space (UInt8 × Rights)) (ph : Phdr) : Prop where
  file_bytes :
    ∀ k, k < ph.filesz →
      readByte S (ph.vaddr + k) = some (imageByte mem elfData (ph.offset + k))
  zero_bytes :
    ∀ k, ph.filesz ≤ k → k < ph.memsz → readByte S (ph.vaddr + k) = some 0
  rest_zero :
    ∀ v, ph.Overlaps (v / 4096) → v < ph.vaddr ∨ ph.vaddr + ph.memsz ≤ v →
      readByte S v = some 0
  rights :
    ∀ v, ph.Overlaps (v / 4096) → (S v).map Prod.snd = some ph.rights

theorem segmentFaithful_of_pages
    (h : ph.LaidOut) (hpage : ∀ v, ph.Overlaps (v / 4096) →
      S v = some (segmentByte mem elfData ph v, ph.rights)) :
    SegmentFaithful mem elfData S ph := by
  have hfile := h.filesz_le
  have hover : ∀ k, k < ph.memsz → ph.Overlaps ((ph.vaddr + k) / 4096) := by
    intro k hk
    unfold Phdr.Overlaps
    omega
  refine ⟨?_, ?_, ?_, ?_⟩
  · intro k hk
    rw [readByte, hpage _ (hover k (by omega)), h.segmentByte_eq,
      if_pos (by omega), Nat.add_sub_cancel_left]
    rfl
  · intro k hle hk
    rw [readByte, hpage _ (hover k hk), h.segmentByte_eq, if_neg (by omega)]
    rfl
  · intro v hv hout
    rw [readByte, hpage v hv, h.segmentByte_eq, if_neg (by omega)]
    rfl
  · intro v hv
    rw [hpage v hv]
    rfl

/-- The space of a process is what its file says. -/
structure LoadedFaithfully (mem mem' : Store) (elfData cr3 : Nat)
    (argv : List (List UInt8)) (out : Process) : Prop where
  segments :
    ∀ i, IsLoad mem elfData i →
      SegmentFaithful mem elfData (privateSpace mem' cr3) (phdrAt mem elfData i)
  stack_top : out.stackTop = elfUserStackTop - argvBlockSize argv
  stack :
    ∀ v, v / 4096 = stackPage → v < out.stackTop →
      privateSpace mem' cr3 v =
        some (0, { user := true, writable := true, noExecute := true })
  others :
    ∀ v, (∀ i, IsLoad mem elfData i →
        ¬ (phdrAt mem elfData i).Overlaps (v / 4096)) →
      v / 4096 ≠ stackPage →
        privateSpace mem' cr3 v = privateSpace mem cr3 v ∧
        (translateAddr mem' cr3 v).isSome = (translateAddr mem cr3 v).isSome

/--
**Loading is faithful.**  A program that `elf_load_user_program` accepts into a
new address space is there byte for byte, with the rights of its headers, and
nothing else is mapped but the stack page.
-/
theorem elf_load_faithful
    {s : Spaces σ} (hs : Reachable alloc Valid held fb K s) {cr3 : Nat}
    (hcreate : vmmCreateAddressSpace alloc s.machine = .ok (cr3, m))
    (hfile : FileKept elfData elfSize K)
    (htable : phoff m.mem elfData + phnum m.mem elfData * phdrSize ≤ elfSize)
    (hlayout : SegmentsLaidOut m.mem elfData)
    (hload : elfLoadUserProgram alloc m elfData elfSize cr3 argv =
      .ok (out, m')) :
    LoadedFaithfully m.mem m'.mem elfData cr3 argv out := by
  have ha := FreshPages.allocApart hs.fresh K
  obtain ⟨hok, _⟩ := hs.systemOk.createAddressSpace ha.toFreshPages hcreate
  have hr : cr3 ∈ cr3 :: s.roots := List.mem_cons_self
  obtain ⟨r, rfl⟩ := hok.frames _ hr
  have hsize : ehdrSize ≤ elfSize := elfLoadUserProgram_size hload
  have hi : ImageKept m.mem elfData elfSize K :=
    hfile.imageKept hsize htable (fun i h => (hlayout.each i h).file_end)
  obtain ⟨⟨g', hg'⟩, hdone, htop, f, hspace, hzero⟩ :=
    elfLoadUserProgram_space (P := hs.target hr) hi hok.inv hload
  have hheaders := fun v =>
    hlayout.headersSpace_eq (S := privateSpace m.mem (r * 4096)) (le_refl _)
      (fun i hlt hload => (hdone i ⟨hlt, hload⟩).slots) (v := v)
  refine
    { segments := ?_
      stack_top := htop
      stack := ?_
      others := ?_ }
  · intro i hi
    refine segmentFaithful_of_pages (hlayout.each i hi) (fun v hover => ?_)
    have hne : v / 4096 ≠ stackPage := fun heq =>
      hlayout.off_stack i hi (heq ▸ hover)
    rw [hspace, mapPage_of_ne hne, (hheaders v).1 i hi.1 hi hover]
  · intro v hv hlt
    have hbelow : v % 4096 < pmmPageSize - argvBlockSize argv := by
      have hstack : stackPage = elfUserStackTop / 4096 - 1 := rfl
      unfold elfUserStackTop at hstack htop
      unfold pmmPageSize
      omega
    rw [hspace, mapPage_of_eq hv, hzero _ hbelow]
    rfl
  · intro v hnone hne
    have hsame :
        privateSpace m'.mem (r * 4096) v = privateSpace m.mem (r * 4096) v := by
      rw [hspace, mapPage_of_ne hne, (hheaders v).2 (fun i _ => hnone i)]
    refine ⟨hsame, ?_⟩
    by_cases hslot : index v 39 = 0
    · obtain ⟨g, hg⟩ := hok.inv
      rw [hg.inv.spaces.translate_congr hg'.inv.spaces hr hr (fun h => absurd hslot h)]
    · rw [privateSpace_of_ne hslot, privateSpace_of_ne hslot] at hsame
      have hsome := congrArg Option.isSome hsame
      rwa [Option.isSome_map, Option.isSome_map] at hsome

/-- One byte of code. -/
def codeSegment : Phdr :=
  { type := ptLoad
    flags := pfX
    offset := 176
    vaddr := 0x8000400000
    filesz := 1
    memsz := 1 }

/-- One byte of data at the end of a page, with one zero byte behind it. -/
def dataSegment : Phdr :=
  { type := ptLoad
    flags := pfW
    offset := 177
    vaddr := 0x8000401FFF
    filesz := 1
    memsz := 2 }

/-- An image with these two segments. -/
def codeAndData : List UInt8 := imageOf [codeSegment, dataSegment] [0xAA, 0xBB]

/-- The two segments are in three pages. -/
theorem segmentsLaidOut_codeAndData
    (hnum : phnum mem elfData = 2) (hcode : phdrAt mem elfData 0 = codeSegment)
    (hdata : phdrAt mem elfData 1 = dataSegment) : SegmentsLaidOut mem elfData := by
  have hcases : ∀ i, IsLoad mem elfData i →
      i = 0 ∧ phdrAt mem elfData i = codeSegment ∨
        i = 1 ∧ phdrAt mem elfData i = dataSegment := by
    rintro i ⟨hlt, _⟩
    rw [hnum] at hlt
    obtain rfl | rfl : i = 0 ∨ i = 1 := by omega
    · exact Or.inl ⟨rfl, hcode⟩
    · exact Or.inr ⟨rfl, hdata⟩
  have hcodePage : ∀ page, codeSegment.Overlaps page → page = 0x8000400 := by
    intro page hover
    unfold Phdr.Overlaps codeSegment at hover
    dsimp only at hover
    omega
  have hdataPage : ∀ page, dataSegment.Overlaps page →
      page = 0x8000401 ∨ page = 0x8000402 := by
    intro page hover
    unfold Phdr.Overlaps dataSegment at hover
    dsimp only at hover
    omega
  refine ⟨?_, ?_, ?_⟩
  · intro i hi
    rcases hcases i hi with ⟨_, h⟩ | ⟨_, h⟩ <;> rw [h] <;> constructor <;> decide
  · intro i j page hi hj hne hover hover'
    rcases hcases i hi with ⟨rfl, h⟩ | ⟨rfl, h⟩
    · rcases hcases j hj with ⟨rfl, h'⟩ | ⟨rfl, h'⟩
      · exact hne rfl
      · have hpage := hcodePage page (h ▸ hover)
        have hpage' := hdataPage page (h' ▸ hover')
        omega
    · rcases hcases j hj with ⟨rfl, h'⟩ | ⟨rfl, h'⟩
      · have hpage := hdataPage page (h ▸ hover)
        have hpage' := hcodePage page (h' ▸ hover')
        omega
      · exact hne rfl
  · intro i hi
    rcases hcases i hi with ⟨_, h⟩ | ⟨_, h⟩ <;> rw [h]
    · exact fun hover => absurd (hcodePage _ hover) (by decide)
    · exact fun hover => absurd (hdataPage _ hover) (by decide)

theorem elf_load_faithful_codeAndData :
    ∃ s m m' out, bootFile codeAndData [] = some s ∧
      vmmCreateAddressSpace bumpAlloc s.machine = .ok (90112, m) ∧
      elfLoadUserProgram bumpAlloc m 4096 178 90112 [[99, 97, 116]] =
        .ok (out, m') ∧
      LoadedFaithfully m.mem m'.mem 4096 90112 [[99, 97, 116]] out := by
  have hrun :
      (bootFile codeAndData []).any (fun s =>
        (vmmCreateAddressSpace bumpAlloc s.machine).toOption.any (fun c =>
          decide (c.1 = 90112 ∧ phoff c.2.mem 4096 = 64 ∧
            phnum c.2.mem 4096 = 2 ∧ phdrAt c.2.mem 4096 0 = codeSegment ∧
            phdrAt c.2.mem 4096 1 = dataSegment) &&
          (elfLoadUserProgram bumpAlloc c.2 4096 178 90112
            [[99, 97, 116]]).toOption.any (fun _ => true))) = true := by
    decide +kernel
  obtain ⟨s, hs, hok⟩ := (Option.any_eq_true _ _).mp hrun
  obtain ⟨⟨cr3, m⟩, hcreate, hok⟩ := any_toOption.mp hok
  rw [Bool.and_eq_true, decide_eq_true_eq] at hok
  obtain ⟨⟨hcr3, hoff, hnum, hcode, hdata⟩, hload⟩ := hok
  obtain ⟨⟨out, m'⟩, hprogram, _⟩ := any_toOption.mp hload
  dsimp only at hcr3 hoff hnum hcode hdata
  subst hcr3
  have hfile : FileKept 4096 178 (Finset.range 16) := by
    refine ⟨by decide, fun off hlt => ?_⟩
    rw [Finset.mem_range]
    omega
  have htable : phoff m.mem 4096 + phnum m.mem 4096 * phdrSize ≤ 178 := by
    rw [hoff, hnum]
    decide
  exact
    ⟨s, m, m', out, hs, hcreate, hprogram,
      elf_load_faithful (reachable_of_bootFile hs) hcreate hfile htable
        (segmentsLaidOut_codeAndData hnum hcode hdata) hprogram⟩

end Faithful

end Elf
end RebornOS
