import RebornOS.SystemRuns

/-!
# Loading segments, as an operation on the new space

The loader walks over the program headers and, for every `PT_LOAD` header, over
the pages of the segment.  Each page is a fresh frame with the part of the file
that falls into it and zeroes elsewhere (`segmentByte`), so the loop is
`mapPages` on the private space, and a later segment replaces whole pages of
earlier ones.

The image lies in frames that the allocator does not hand out (`ImageKept`);
nothing that the loader does changes it.
-/

namespace RebornOS
namespace Elf

open ByteStore WordBits PageWalk Fallible Vmm PagedSpace

variable {σ : Type} {mem mem' : Store} {elfData elfSize flags i n n' p page q v : Nat}
  {ph : Phdr} {K : Finset Nat} {S : Space (UInt8 × Rights)} {alloc : σ → Nat × σ}
  {Valid : σ → Prop} {held : σ → Set Nat}

section Content

/-- Byte `off` of the image. -/
def imageByte (mem : Store) (elfData off : Nat) : UInt8 :=
  mem ((elfData + off) % 2 ^ 64)

/-- `ehdr->e_phoff` and `ehdr->e_phnum`. -/
def phoff (mem : Store) (elfData : Nat) : Nat := imageField mem elfData 32 8
def phnum (mem : Store) (elfData : Nat) : Nat := imageField mem elfData 56 2

/-- The first page of a segment and the number of pages that are mapped. -/
def Phdr.firstPage (ph : Phdr) : Nat := pageAlignDown ph.vaddr / pmmPageSize
def Phdr.pageCount (ph : Phdr) : Nat :=
  (pageAlignUp ((ph.vaddr + ph.memsz) % 2 ^ 64) - pageAlignDown ph.vaddr) /
    pmmPageSize

/-- What the loader puts at address `v` of a page of the segment. -/
def segmentByte (mem : Store) (elfData : Nat) (ph : Phdr) (v : Nat) : UInt8 :=
  if ph.vaddr ≤ v ∧ v < (ph.vaddr + ph.filesz) % 2 ^ 64 then
    imageByte mem elfData (ph.offset + (v - ph.vaddr))
  else
    0

/-- The page that the hardware finds a page at. -/
def canonicalPage (page : Nat) : Nat := canonicalForm (page * 4096) / 4096

/-- The space after all pages of a segment. -/
def segmentSpace (mem : Store) (elfData : Nat) (ph : Phdr)
    (S : Space (UInt8 × Rights)) : Space (UInt8 × Rights) :=
  mapPages 4096 canonicalPage
    (fun page k =>
      (segmentByte mem elfData ph (page * 4096 + k),
        mapRights (segmentFlags ph)))
    ph.pageCount ph.firstPage S

/-- The space after one program header. -/
def headerSpace (mem : Store) (elfData i : Nat)
    (S : Space (UInt8 × Rights)) : Space (UInt8 × Rights) :=
  if (phdrAt mem elfData i).type = ptLoad then
    segmentSpace mem elfData (phdrAt mem elfData i) S
  else
    S

/-- The space after the first `n` program headers. -/
def headersSpace (mem : Store) (elfData : Nat) (S : Space (UInt8 × Rights)) :
    Nat → Space (UInt8 × Rights)
  | 0 => S
  | n + 1 => headerSpace mem elfData n (headersSpace mem elfData S n)

theorem phdrAt_vaddr_lt
    (mem : Store) (elfData i : Nat) : (phdrAt mem elfData i).vaddr < 2 ^ 64 :=
  readLE_lt mem _ 8

/-- The part of the file in one page, byte by byte. -/
theorem copySegmentBytes_apply
    (mem : Store) (elfData p : Nat) (ph : Phdr) {k : Nat} (hpage : page + 4096 < 2 ^ 64)
    (hk : k < 4096) :
    copySegmentBytes mem elfData page (p * 4096) ph (p * 4096 + k) =
      if ph.vaddr ≤ page + k ∧ page + k < (ph.vaddr + ph.filesz) % 2 ^ 64 then
        imageByte mem elfData (ph.offset + (page + k - ph.vaddr))
      else
        mem (p * 4096 + k) := by
  have hend : (page + pmmPageSize) % 2 ^ 64 = page + 4096 :=
    Nat.mod_eq_of_lt hpage
  unfold copySegmentBytes
  dsimp only
  rw [hend]
  generalize (ph.vaddr + ph.filesz) % 2 ^ 64 = fileEnd
  -- What the two clamps of the copied range are, whichever branch is taken.
  have hstart : page ≤ (if page > ph.vaddr then page else ph.vaddr) ∧
      ∀ x, page ≤ x → ((if page > ph.vaddr then page else ph.vaddr) ≤ x ↔
        ph.vaddr ≤ x) := by
    split_ifs <;> exact ⟨by omega, fun x hx => by omega⟩
  have hstop : ∀ x, x < page + 4096 →
      (x < (if page + 4096 < fileEnd then page + 4096 else fileEnd) ↔
        x < fileEnd) := by
    intro x hx
    split_ifs <;> omega
  have hfrom : ph.vaddr ≤ (if page > ph.vaddr then page else ph.vaddr) := by
    split_ifs <;> omega
  revert hstart hstop hfrom
  generalize (if page > ph.vaddr then page else ph.vaddr) = copyStart
  generalize (if page + 4096 < fileEnd then page + 4096 else fileEnd) = copyEnd
  intro hstart hstop hfrom
  have hlow := hstart.2 (page + k) (by omega)
  have hhigh := hstop (page + k) (by omega)
  by_cases hin : ph.vaddr ≤ page + k ∧ page + k < fileEnd
  · rw [if_pos hin, if_pos (by omega)]
    unfold copyIn imageByte
    rw [if_pos (by omega)]
    dsimp only
    have hoff : elfData + (ph.offset + (copyStart - ph.vaddr)) +
        (p * 4096 + k - (p * 4096 + (copyStart - page))) =
        elfData + (ph.offset + (page + k - ph.vaddr)) := by
      omega
    rw [hoff]
  · rw [if_neg hin]
    by_cases hcopy : copyEnd > copyStart
    · rw [if_pos hcopy]
      exact copyIn_outside (by omega)
    · rw [if_neg hcopy]

end Content

section Kept

variable {mem'' : Store}

/-- The frames `K` have not changed. -/
def KeepsFrames (K : Finset Nat) (mem mem' : Store) : Prop :=
  ∀ x, x / 4096 ∈ K → mem' x = mem x

theorem KeepsFrames.trans
    (h : KeepsFrames K mem mem') (h' : KeepsFrames K mem' mem'') :
    KeepsFrames K mem mem'' := by
  intro x hx
  rw [h' x hx, h x hx]

/--
Everything that the loader reads of the image lies in frames of `K`: the
headers, and the contents of the segments that it does not reject.
-/
structure ImageKept (mem : Store) (elfData elfSize : Nat) (K : Finset Nat) :
    Prop where
  header :
    ∀ off k, off + k < ehdrSize → ((elfData + off) % 2 ^ 64 + k) / 4096 ∈ K
  headers :
    ∀ i off k, i < phnum mem elfData → off + k < phdrSize →
      ((elfData + (phoff mem elfData + i * phdrSize + off)) % 2 ^ 64 + k) /
        4096 ∈ K
  contents :
    ∀ i k, i < phnum mem elfData → (phdrAt mem elfData i).type = ptLoad →
      ((phdrAt mem elfData i).offset + (phdrAt mem elfData i).filesz) % 2 ^ 64 ≤
        elfSize →
      k < (phdrAt mem elfData i).filesz →
      (elfData + ((phdrAt mem elfData i).offset + k)) % 2 ^ 64 / 4096 ∈ K

/-- A field whose bytes lie in `K` is read the same. -/
theorem KeepsFrames.imageField
    (h : KeepsFrames K mem mem') {off : Nat}
    (hin : ∀ k, k < n → ((elfData + off) % 2 ^ 64 + k) / 4096 ∈ K) :
    imageField mem' elfData off n = imageField mem elfData off n := by
  refine readLE_congr (fun x hx hlt => h x ?_)
  have hmem := hin (x - (elfData + off) % 2 ^ 64) (by omega)
  rwa [Nat.add_sub_cancel' hx] at hmem

theorem ImageKept.phoff_eq
    (hi : ImageKept mem elfData elfSize K) (h : KeepsFrames K mem mem') :
    phoff mem' elfData = phoff mem elfData :=
  h.imageField (fun k hk => hi.header 32 k (by unfold ehdrSize; omega))

theorem ImageKept.phnum_eq
    (hi : ImageKept mem elfData elfSize K) (h : KeepsFrames K mem mem') :
    phnum mem' elfData = phnum mem elfData :=
  h.imageField (fun k hk => hi.header 56 k (by unfold ehdrSize; omega))

/-- Offset and size of the fields that the loader reads. -/
def phdrFields : List (Nat × Nat) :=
  [(0, 4), (4, 4), (8, 8), (16, 8), (32, 8), (40, 8)]

/-- A header is determined by its fields. -/
theorem phdrAt_congr
    (hoff : phoff mem' elfData = phoff mem elfData)
    (hfields : ∀ off n, (off, n) ∈ phdrFields →
      imageField mem' elfData (phoff mem elfData + i * phdrSize + off) n =
        imageField mem elfData (phoff mem elfData + i * phdrSize + off) n) :
    phdrAt mem' elfData i = phdrAt mem elfData i := by
  unfold phoff at hoff hfields
  unfold phdrAt
  dsimp only
  rw [hoff]
  simp only [hfields 4 4 (by decide), hfields 8 8 (by decide),
    hfields 16 8 (by decide), hfields 32 8 (by decide), hfields 40 8 (by decide)]
  have hfirst := hfields 0 4 (by decide)
  rw [Nat.add_zero] at hfirst
  rw [hfirst]

theorem ImageKept.phdrAt_eq
    (hi : ImageKept mem elfData elfSize K) (h : KeepsFrames K mem mem')
    (hlt : i < phnum mem elfData) : phdrAt mem' elfData i = phdrAt mem elfData i := by
  have hinside : ∀ f ∈ phdrFields, f.1 + f.2 ≤ phdrSize := by decide
  refine phdrAt_congr (hi.phoff_eq h) (fun off n hmem => ?_)
  have hle := hinside _ hmem
  exact h.imageField (fun k hk => hi.headers i off k hlt (by omega))

theorem ImageKept.segmentByte_eq
    (hi : ImageKept mem elfData elfSize K) (h : KeepsFrames K mem mem')
    (hlt : i < phnum mem elfData) (hload : (phdrAt mem elfData i).type = ptLoad)
    (hsize : ((phdrAt mem elfData i).offset + (phdrAt mem elfData i).filesz) %
      2 ^ 64 ≤ elfSize) (v : Nat) :
    segmentByte mem' elfData (phdrAt mem elfData i) v =
      segmentByte mem elfData (phdrAt mem elfData i) v := by
  unfold segmentByte imageByte
  split_ifs with hin
  · refine h _ (hi.contents i _ hlt hload hsize ?_)
    have hmod := Nat.mod_le
      ((phdrAt mem elfData i).vaddr + (phdrAt mem elfData i).filesz) (2 ^ 64)
    omega
  · rfl

end Kept

section Loading

variable {P : Target σ} {mem₀ : Store} {m m' : Machine σ}

/--
A machine on which the loader has got as far as the space `S`; `mem₀` is the
memory that it started with.
-/
structure Loading (P : Target σ) (mem₀ : Store) (m : Machine σ)
    (S : Space (UInt8 × Rights)) : Prop where
  inv : ∃ g, DataInv 3 P.alloc P.Valid P.held m P.roots g
  image : KeepsFrames P.K mem₀ m.mem
  space : privateSpace m.mem (P.r * 4096) = S

/-- A fresh frame is one more page of the space. -/
theorem Loading.mapped
    {g g' : Ghost} (hl : Loading P mem₀ m S)
    (h : DataInv 3 P.alloc P.Valid P.held m P.roots g)
    (hm : FreshMapped 3 P.alloc P.Valid P.held P.roots m g mem' P.r v p flags m' g') :
    Loading P mem₀ m'
      (PagedSpace.mapPage 4096 S (canonicalForm v / 4096)
        (fun k => (mem' (p * 4096 + k), mapRights flags))) := by
  refine ⟨⟨g', hm.dataInv h⟩, hl.image.trans ?_, ?_⟩
  · intro x hx
    exact (hm.others _ (P.apart.idle h hx)).2.2 x rfl
  · rw [hm.privateSpace_eq h P.root, hl.space]

/-- The frame taken is none of `K`, so clearing it leaves the image alone. -/
theorem Loading.cleared
    (hl : Loading P mem₀ m S) (hne : (P.alloc m.pmm).1 ≠ 0)
    (hp : (P.alloc m.pmm).1 = p * 4096) :
    KeepsFrames P.K mem₀ (fill m.mem (p * 4096) pmmPageSize 0) := by
  obtain ⟨g, hg⟩ := hl.inv
  refine hl.image.trans (fun x hx => sameOutside_fill m.mem p x ?_)
  have hnow := (P.apart.retained _ _ hg.inv.valid hx).now hne
  rw [hp, Nat.mul_div_cancel _ (by decide)] at hnow
  exact hnow.symm

/-- Whatever the header says, a page is one more page of the space. -/
theorem loadPage_loading
    (hl : Loading P mem₀ m S)
    (hrun : loadPage P.alloc m elfData (P.r * 4096) i flags page = .ok m') :
    ∃ S', Loading P mem₀ m' S' := by
  obtain ⟨g, hg⟩ := hl.inv
  obtain ⟨_, p, g', _, hmapped⟩ :=
    loadPage_fresh P.apart.toFreshPages (by decide) hg.inv P.root hrun
  exact ⟨_, hl.mapped hg hmapped⟩

/-- One page of the segment of header `i`. -/
theorem loadPage_space
    (hi : ImageKept mem₀ elfData elfSize P.K)
    (hlt : i < phnum mem₀ elfData) (hload : (phdrAt mem₀ elfData i).type = ptLoad)
    (hsize : ((phdrAt mem₀ elfData i).offset + (phdrAt mem₀ elfData i).filesz) %
      2 ^ 64 ≤ elfSize) (hl : Loading P mem₀ m S)
    (hrun : loadPage P.alloc m elfData (P.r * 4096) i flags page = .ok m')
    (hpage : page + 4096 < 2 ^ 64) :
    index page 39 ≠ 0 ∧
      Loading P mem₀ m'
        (PagedSpace.mapPage 4096 S (canonicalForm page / 4096)
          (fun k =>
            (segmentByte mem₀ elfData (phdrAt mem₀ elfData i) (page + k),
              mapRights flags))) := by
  obtain ⟨g, hg⟩ := hl.inv
  obtain ⟨hne, p, g', hp, hmapped⟩ :=
    loadPage_fresh P.apart.toFreshPages (by decide) hg.inv P.root hrun
  have hcleared := hl.cleared hne hp
  rw [hi.phdrAt_eq hcleared hlt] at hmapped
  refine ⟨hmapped.slot, ?_⟩
  have hnext := hl.mapped hg hmapped
  rwa [mapPage_congr (by decide)] at hnext
  intro k hk
  rw [copySegmentBytes_apply _ _ _ _ hpage hk, fill_page _ _ hk,
    ← hi.segmentByte_eq hcleared hlt hload hsize]
  rfl

/-- The loop over `n` pages from page `q` on. -/
theorem loadPages_space
    (hi : ImageKept mem₀ elfData elfSize P.K)
    (hlt : i < phnum mem₀ elfData) (hload : (phdrAt mem₀ elfData i).type = ptLoad)
    (hsize : ((phdrAt mem₀ elfData i).offset + (phdrAt mem₀ elfData i).filesz) %
      2 ^ 64 ≤ elfSize) (n : Nat) :
    ∀ q m S, (q + n) * 4096 < 2 ^ 64 →
      Loading P mem₀ m S →
      loadPages P.alloc elfData (P.r * 4096) i flags n (q * 4096) m = .ok m' →
        (∀ q', q ≤ q' → q' < q + n → index (q' * 4096) 39 ≠ 0) ∧
        Loading P mem₀ m'
          (mapPages 4096 canonicalPage
            (fun page k =>
              (segmentByte mem₀ elfData (phdrAt mem₀ elfData i)
                (page * 4096 + k), mapRights flags))
            n q S) := by
  induction n with
  | zero =>
      intro q m S _ hl hrun
      simp only [loadPages, Except.ok.injEq] at hrun
      subst hrun
      exact ⟨fun q' _ _ => by omega, hl⟩
  | succ n ih =>
      intro q m S hbound hl hrun
      rw [loadPages] at hrun
      obtain ⟨m₁, hpage, hrun⟩ := bind_eq_ok.mp hrun
      have hend : q * 4096 + 4096 < 2 ^ 64 := by omega
      rw [Nat.add_comm n 1, ← Nat.add_assoc] at hbound
      obtain ⟨hslot, hl₁⟩ :=
        loadPage_space hi hlt hload hsize hl hpage hend
      have hnext : q * 4096 + pmmPageSize = (q + 1) * 4096 := by
        unfold pmmPageSize
        omega
      rw [hnext] at hrun
      obtain ⟨hslots, hl'⟩ := ih (q + 1) m₁ _ hbound hl₁ hrun
      refine ⟨fun q' hq' hlt' => ?_, hl'⟩
      by_cases hfirst : q' = q
      · rw [hfirst]
        exact hslot
      · exact hslots q' (by omega) (by omega)

/-- The pages of a segment, none of which is in the shared slot. -/
def PrivatePages (ph : Phdr) : Prop :=
  ∀ q, ph.firstPage ≤ q → q < ph.firstPage + ph.pageCount →
    index (q * 4096) 39 ≠ 0

/-- What the loop over the headers has made sure of for one of them. -/
structure SegmentLoaded (elfSize : Nat) (ph : Phdr) : Prop where
  inFile : (ph.offset + ph.filesz) % 2 ^ 64 ≤ elfSize
  slots : PrivatePages ph

/-- The pages of a segment end before the top of the address space. -/
theorem Phdr.pages_bound
    (hv : ph.vaddr < 2 ^ 64) :
    ph.firstPage * 4096 = pageAlignDown ph.vaddr ∧
      (ph.firstPage + ph.pageCount) * 4096 < 2 ^ 64 := by
  have hsize : pmmPageSize = 4096 := rfl
  have hdown : pageAlignDown ph.vaddr = ph.vaddr / 4096 * 4096 :=
    land_highMask hv (by decide)
  have hup : pageAlignUp ((ph.vaddr + ph.memsz) % 2 ^ 64) =
      ((ph.vaddr + ph.memsz) % 2 ^ 64 + pmmPageSize - 1) % 2 ^ 64 / 4096 *
        4096 :=
    land_highMask (Nat.mod_lt _ (by decide)) (by decide)
  unfold Phdr.firstPage Phdr.pageCount
  rw [hup, hdown, hsize]
  omega

variable (hi : ImageKept mem₀ elfData elfSize P.K)
include hi

/-- One round of the loop over the headers. -/
theorem loadSegment_space
    (hlt : i < phnum mem₀ elfData) (hl : Loading P mem₀ m S)
    (hrun : loadSegment P.alloc m elfData elfSize (P.r * 4096) i = .ok m') :
    Loading P mem₀ m'
        (headerSpace mem₀ elfData i S) ∧
      ((phdrAt mem₀ elfData i).type = ptLoad →
        SegmentLoaded elfSize (phdrAt mem₀ elfData i)) := by
  unfold loadSegment at hrun
  rw [hi.phdrAt_eq hl.image hlt] at hrun
  dsimp only at hrun
  unfold headerSpace
  split_ifs at hrun with hload hsize
  · simp only [Except.ok.injEq] at hrun
    subst hrun
    rw [if_neg hload]
    exact ⟨hl, fun h => absurd h hload⟩
  · rw [ne_eq, not_not] at hload
    obtain ⟨hfirst, hbound⟩ :=
      Phdr.pages_bound (phdrAt_vaddr_lt mem₀ elfData i)
    have hcount : (pageAlignUp (((phdrAt mem₀ elfData i).vaddr +
        (phdrAt mem₀ elfData i).memsz) % 2 ^ 64) -
        pageAlignDown (phdrAt mem₀ elfData i).vaddr) / pmmPageSize =
        (phdrAt mem₀ elfData i).pageCount := rfl
    rw [hcount, ← hfirst] at hrun
    obtain ⟨hslots, hl'⟩ :=
      loadPages_space hi hlt hload (Nat.le_of_not_lt hsize) _ _ m S hbound hl
        hrun
    rw [if_pos hload]
    exact ⟨hl', fun _ => ⟨Nat.le_of_not_lt hsize, hslots⟩⟩

/-- The last of `n + 1` rounds. -/
theorem loadSegments_succ
    (n : Nat) :
    ∀ i m S, i + n < phnum mem₀ elfData →
      Loading P mem₀ m S →
      loadSegments P.alloc elfData elfSize (P.r * 4096) (n + 1) i m = .ok m' →
        ∃ m₁,
          loadSegments P.alloc elfData elfSize (P.r * 4096) n i m = .ok m₁ ∧
          loadSegment P.alloc m₁ elfData elfSize (P.r * 4096) (i + n) = .ok m' := by
  induction n with
  | zero =>
      intro i m S hlt hl hrun
      have hnum := hi.phnum_eq hl.image
      rw [phnum] at hnum
      rw [Nat.add_zero] at hlt ⊢
      rw [loadSegments, hnum, if_pos hlt] at hrun
      obtain ⟨m₁, hstep, hrun⟩ := bind_eq_ok.mp hrun
      simp only [loadSegments, Except.ok.injEq] at hrun
      subst hrun
      exact ⟨m, rfl, hstep⟩
  | succ n ih =>
      intro i m S hlt hl hrun
      have hnum := hi.phnum_eq hl.image
      rw [phnum] at hnum
      have hfirst : i < phnum mem₀ elfData :=
        lt_of_le_of_lt (Nat.le_add_right i _) hlt
      rw [loadSegments, hnum, if_pos hfirst] at hrun
      obtain ⟨m₁, hstep, hrun⟩ := bind_eq_ok.mp hrun
      obtain ⟨hl₁, _⟩ := loadSegment_space hi hfirst hl hstep
      rw [← Nat.add_assoc, Nat.add_right_comm] at hlt ⊢
      obtain ⟨m₂, hrest, hlast⟩ := ih (i + 1) m₁ _ hlt hl₁ hrun
      refine ⟨m₂, ?_, hlast⟩
      rw [loadSegments, hnum, if_pos hfirst, hstep]
      exact hrest

/-- The loop over the first `n` headers. -/
theorem loadSegments_space
    (hn : n ≤ phnum mem₀ elfData) (hl : Loading P mem₀ m S)
    (hrun : loadSegments P.alloc elfData elfSize (P.r * 4096) n 0 m = .ok m') :
    Loading P mem₀ m'
        (headersSpace mem₀ elfData S n) ∧
      ∀ i, i < n → (phdrAt mem₀ elfData i).type = ptLoad →
        SegmentLoaded elfSize (phdrAt mem₀ elfData i) := by
  induction n generalizing m' with
  | zero =>
      simp only [loadSegments, Except.ok.injEq] at hrun
      subst hrun
      exact ⟨hl, fun i hi => absurd hi (Nat.not_lt_zero i)⟩
  | succ n ih =>
      obtain ⟨m₁, hfirst, hlast⟩ :=
        loadSegments_succ hi n 0 m S (by rwa [Nat.zero_add]) hl hrun
      rw [Nat.zero_add] at hlast
      obtain ⟨hl₁, hdone⟩ := ih (Nat.le_of_succ_le hn) hfirst
      obtain ⟨hl', hnew⟩ := loadSegment_space hi hn hl₁ hlast
      refine ⟨hl', fun i hlt hload => ?_⟩
      rcases Nat.lt_succ_iff_lt_or_eq.mp hlt with hlt | rfl
      · exact hdone i hlt hload
      · exact hnew hload

/-- A loop that gets to header `n'` has got to every header before it. -/
theorem loadSegments_earlier
    (hle : n ≤ n') (hn : n' ≤ phnum mem₀ elfData)
    (hl : Loading P mem₀ m S)
    (hrun : loadSegments P.alloc elfData elfSize (P.r * 4096) n' 0 m = .ok m') :
    ∃ m₁, loadSegments P.alloc elfData elfSize (P.r * 4096) n 0 m = .ok m₁ := by
  induction n', hle using Nat.le_induction generalizing m' with
  | base =>
      exact ⟨m', hrun⟩
  | succ n' _ ih =>
      obtain ⟨m₁, hfirst, _⟩ :=
        loadSegments_succ hi n' 0 m S (by rwa [Nat.zero_add]) hl hrun
      exact ih (Nat.le_of_succ_le hn) hfirst

end Loading

section Places

/--
Two pages of a segment that the hardware finds at one place are the same page:
otherwise there would be a page of the shared slot between them.
-/
theorem canonicalPage_inj
    (hslots : PrivatePages ph) {q' : Nat} (hq : ph.firstPage ≤ q)
    (hlt : q < ph.firstPage + ph.pageCount) (hq' : ph.firstPage ≤ q')
    (hlt' : q' < ph.firstPage + ph.pageCount)
    (hplace : canonicalPage q = canonicalPage q') : q = q' := by
  have hslot : ∀ c, ph.firstPage ≤ c * 2 ^ 36 →
      c * 2 ^ 36 < ph.firstPage + ph.pageCount → False := by
    intro c hc hc'
    refine hslots _ hc hc' (Fin.ext ?_)
    show c * 2 ^ 36 * 4096 / 2 ^ 39 % 512 = 0
    omega
  have hmod : q % 2 ^ 36 = q' % 2 ^ 36 := by
    unfold canonicalPage canonicalForm at hplace
    split_ifs at hplace <;> omega
  by_contra hne
  rcases Nat.lt_or_gt_of_ne hne with hlow | hlow
  · exact hslot (q' / 2 ^ 36) (by omega) (by omega)
  · exact hslot (q / 2 ^ 36) (by omega) (by omega)

/-- A page of the segment, where the hardware finds it. -/
theorem segmentSpace_of_page
    (hslots : PrivatePages ph) (hq : ph.firstPage ≤ q)
    (hlt : q < ph.firstPage + ph.pageCount) (hplace : canonicalPage q = v / 4096) :
    segmentSpace mem elfData ph S v =
      some (segmentByte mem elfData ph (q * 4096 + v % 4096),
        mapRights (segmentFlags ph)) :=
  mapPages_of_eq _ hq hlt hplace
    (fun _ hq' hlt' hplace' =>
      canonicalPage_inj hslots hq' hlt' hq hlt (hplace'.trans hplace.symm))

theorem segmentSpace_of_ne
    (h : ∀ q, ph.firstPage ≤ q → q < ph.firstPage + ph.pageCount →
      canonicalPage q ≠ v / 4096) : segmentSpace mem elfData ph S v = S v :=
  mapPages_of_ne _ h

/-- Page `q` is one that the loader maps for header `j`. -/
def SegmentMaps (mem : Store) (elfData j q : Nat) : Prop :=
  (phdrAt mem elfData j).type = ptLoad ∧ (phdrAt mem elfData j).firstPage ≤ q ∧
    q < (phdrAt mem elfData j).firstPage + (phdrAt mem elfData j).pageCount

/-- What one header does to one address. -/
theorem headerSpace_cases
    {j : Nat}
    (hslots : (phdrAt mem elfData j).type = ptLoad →
      PrivatePages (phdrAt mem elfData j)) (v : Nat) :
    (∃ q, SegmentMaps mem elfData j q ∧ canonicalPage q = v / 4096 ∧
      headerSpace mem elfData j S v =
        some
          (segmentByte mem elfData (phdrAt mem elfData j) (q * 4096 + v % 4096),
            mapRights (segmentFlags (phdrAt mem elfData j)))) ∨
    ((∀ q, SegmentMaps mem elfData j q → canonicalPage q ≠ v / 4096) ∧
      headerSpace mem elfData j S v = S v) := by
  unfold headerSpace
  split_ifs with hload
  · by_cases hmaps : ∃ q, SegmentMaps mem elfData j q ∧ canonicalPage q = v / 4096
    · obtain ⟨q, hq, hplace⟩ := hmaps
      refine Or.inl ⟨q, hq, hplace, ?_⟩
      exact segmentSpace_of_page (hslots hload) hq.2.1 hq.2.2 hplace
    · have hnone : ∀ q, SegmentMaps mem elfData j q → canonicalPage q ≠ v / 4096 :=
        fun q hq hplace => hmaps ⟨q, hq, hplace⟩
      refine Or.inr ⟨hnone, ?_⟩
      exact segmentSpace_of_ne (fun q hq hlt => hnone q ⟨hload, hq, hlt⟩)
  · exact Or.inr ⟨fun q hq => absurd hq.1 hload, rfl⟩

end Places

section Files

/-- `n` bytes, the low one first. -/
def leBytes (v : Nat) : Nat → List UInt8
  | 0 => []
  | n + 1 => UInt8.ofNat v :: leBytes (v / 256) n

/-- An ELF header; the program headers follow it. -/
def ehdrBytes (phnum : Nat) : List UInt8 :=
  [0x7F, 0x45, 0x4C, 0x46, elfClass64.toUInt8] ++ List.replicate 13 0 ++
    leBytes emX8664 2 ++ List.replicate 12 0 ++ leBytes ehdrSize 8 ++
    List.replicate 16 0 ++ leBytes phnum 2 ++ List.replicate 6 0

/-- A program header of a segment. -/
def phdrBytes (ph : Phdr) : List UInt8 :=
  leBytes ph.type 4 ++ leBytes ph.flags 4 ++ leBytes ph.offset 8 ++
    leBytes ph.vaddr 8 ++ leBytes 0 8 ++ leBytes ph.filesz 8 ++
    leBytes ph.memsz 8 ++ leBytes 0 8

/-- An image: its headers, then the contents of its segments. -/
def imageOf (phs : List Phdr) (contents : List UInt8) : List UInt8 :=
  ehdrBytes phs.length ++ phs.flatMap phdrBytes ++ contents

/-- The image lies in the frames below 16. -/
def ImageLow (mem : Store) : Prop :=
  phoff mem 4096 + phnum mem 4096 * phdrSize ≤ 2 ^ 15 ∧
    ∀ i, i < phnum mem 4096 → (phdrAt mem 4096 i).type = ptLoad →
      (phdrAt mem 4096 i).offset + (phdrAt mem 4096 i).filesz ≤ 2 ^ 15

instance (mem : Store) : Decidable (ImageLow mem) :=
  inferInstanceAs (Decidable (_ ∧ _))

theorem ImageLow.imageKept
    (h : ImageLow mem) (elfSize : Nat) :
    ImageKept mem 4096 elfSize (Finset.range 16) := by
  obtain ⟨htable, hcontents⟩ := h
  refine ⟨?_, ?_, ?_⟩
  · intro off k hlt
    rw [Finset.mem_range]
    unfold ehdrSize at hlt
    omega
  · intro i off k hi hlt
    rw [Finset.mem_range]
    have hmul : (i + 1) * phdrSize ≤ phnum mem 4096 * phdrSize :=
      Nat.mul_le_mul_right phdrSize hi
    rw [Nat.succ_mul] at hmul
    generalize phnum mem 4096 * phdrSize = size at htable hmul
    generalize i * phdrSize = start at hmul ⊢
    generalize phoff mem 4096 = first at htable ⊢
    omega
  · intro i k hi hload _ hlt
    have hle := hcontents i hi hload
    rw [Finset.mem_range]
    generalize (phdrAt mem 4096 i).offset = offset at hle ⊢
    generalize (phdrAt mem 4096 i).filesz = filesz at hle hlt
    omega

end Files

section Frame

variable {fb : Framebuffer} {s : Spaces σ} {pml4 : Nat}

/-- What a process can read at `v`. -/
def readByte (S : Space (UInt8 × Rights)) (v : Nat) : Option UInt8 :=
  (S v).map Prod.fst

/-- Byte `b` belongs to the segment of header `i`. -/
def SegmentHas (mem : Store) (elfData i b : Nat) : Prop :=
  (phdrAt mem elfData i).type = ptLoad ∧ (phdrAt mem elfData i).vaddr ≤ b ∧
    b < (phdrAt mem elfData i).vaddr + (phdrAt mem elfData i).memsz

/--
Processing a later segment keeps the bytes of an earlier one as they were after
the earlier one was processed.
-/
def SegmentsKept (alloc : σ → Nat × σ) (m : Machine σ)
    (elfData elfSize pml4 : Nat) : Prop :=
  ∀ i j b m₁ m₂, i < j → j < phnum m.mem elfData →
    SegmentHas m.mem elfData i b → (phdrAt m.mem elfData j).type = ptLoad →
    loadSegments alloc elfData elfSize pml4 (i + 1) 0 m = .ok m₁ →
    loadSegments alloc elfData elfSize pml4 (j + 1) 0 m = .ok m₂ →
      ∀ byte, readByte (privateSpace m₁.mem pml4) b = some byte →
        readByte (privateSpace m₂.mem pml4) b = some byte

/--
Where a later segment that is processed has a page with a byte of an earlier
one, it has the same byte there.
-/
def SharedBytesAgree (alloc : σ → Nat × σ) (m : Machine σ)
    (elfData elfSize pml4 : Nat) : Prop :=
  ∀ i j b q m₂, i < j → j < phnum m.mem elfData →
    SegmentHas m.mem elfData i b → SegmentMaps m.mem elfData j q →
    canonicalPage q = b / 4096 →
    loadSegments alloc elfData elfSize pml4 (j + 1) 0 m = .ok m₂ →
      ∀ byte,
        readByte (headersSpace m.mem elfData (privateSpace m.mem pml4) (i + 1))
          b = some byte →
        segmentByte m.mem elfData (phdrAt m.mem elfData j)
          (q * 4096 + b % 4096) = byte

/-- A byte that every header from `n` on leaves or writes again stays. -/
theorem readByte_headersSpace
    {b : Nat} {byte : UInt8} (hle : n ≤ n')
    (hslots : ∀ j, n ≤ j → j < n' → (phdrAt mem elfData j).type = ptLoad →
      PrivatePages (phdrAt mem elfData j))
    (hsame : ∀ j q, n ≤ j → j < n' → SegmentMaps mem elfData j q →
      canonicalPage q = b / 4096 →
        segmentByte mem elfData (phdrAt mem elfData j) (q * 4096 + b % 4096) =
          byte) (hbyte : readByte (headersSpace mem elfData S n) b = some byte) :
    readByte (headersSpace mem elfData S n') b = some byte := by
  induction n', hle using Nat.le_induction with
  | base =>
      exact hbyte
  | succ j hj ih =>
      have hbefore :=
        ih (fun k hk hlt => hslots k hk (Nat.lt_succ_of_lt hlt))
          (fun k q hk hlt => hsame k q hk (Nat.lt_succ_of_lt hlt))
      rw [headersSpace]
      rcases headerSpace_cases (hslots j hj (Nat.lt_succ_self j)) b with
        ⟨q, hq, hplace, hmapped⟩ | ⟨_, hkept⟩
      · rw [readByte, hmapped, Option.map_some,
          hsame j q hj (Nat.lt_succ_self j) hq hplace]
      · rw [readByte, hkept]
        exact hbefore

/-- **One segment undoes another exactly on the pages they share.** -/
theorem segments_kept_iff
    (hs : Reachable alloc Valid held fb K s) (hroot : pml4 ∈ s.roots)
    (hi : ImageKept s.machine.mem elfData elfSize K) :
    SegmentsKept alloc s.machine elfData elfSize pml4 ↔
      SharedBytesAgree alloc s.machine elfData elfSize pml4 := by
  have hok := hs.systemOk
  obtain ⟨r, rfl⟩ := hok.frames _ hroot
  have hstart : Loading (hs.target hroot) s.machine.mem s.machine
      (privateSpace s.machine.mem (r * 4096)) :=
    ⟨hok.inv, fun _ _ => rfl, rfl⟩
  constructor
  · intro hkept i j b q m₂ hij hj hhas hmaps hplace hrun₂ byte hbyte
    obtain ⟨m₁, hrun₁⟩ :=
      loadSegments_earlier hi (Nat.succ_le_succ hij.le) hj hstart hrun₂
    obtain ⟨hl₁, _⟩ :=
      loadSegments_space hi (hij.trans_le hj.le) hstart hrun₁
    obtain ⟨hl₂, hdone⟩ := loadSegments_space hi hj hstart hrun₂
    have hafter :=
      hkept i j b m₁ m₂ hij hj hhas hmaps.1 hrun₁ hrun₂ byte
        (by rwa [hl₁.space])
    rw [hl₂.space, headersSpace, readByte, headerSpace, if_pos hmaps.1,
      segmentSpace_of_page (hdone j (Nat.lt_succ_self j) hmaps.1).slots hmaps.2.1
        hmaps.2.2 hplace, Option.map_some, Option.some.injEq] at hafter
    dsimp only at hafter
    exact hafter
  · intro hagree i j b m₁ m₂ hij hj hhas hload hrun₁ hrun₂ byte hbyte
    obtain ⟨hl₁, _⟩ :=
      loadSegments_space hi (hij.trans_le hj.le) hstart hrun₁
    obtain ⟨hl₂, hdone⟩ := loadSegments_space hi hj hstart hrun₂
    rw [hl₁.space] at hbyte
    rw [hl₂.space]
    refine
      readByte_headersSpace (Nat.succ_le_succ hij.le)
        (fun k _ hk hload => (hdone k hk hload).slots) ?_ hbyte
    intro k q hk hkj hmaps hplace
    obtain ⟨m₃, hrun₃⟩ :=
      loadSegments_earlier hi hkj hj hstart hrun₂
    exact
      hagree i k b q m₃ hk ((Nat.le_of_lt_succ hkj).trans_lt hj) hhas hmaps hplace
        hrun₃ byte hbyte

/-- Two writable segments of one byte each. -/
def twoSegments (v₁ v₂ : Nat) : List UInt8 :=
  imageOf
    [{ type := ptLoad, flags := pfW, offset := 176, vaddr := v₁, filesz := 1,
        memsz := 1 },
      { type := ptLoad, flags := pfW, offset := 177, vaddr := v₂, filesz := 1,
        memsz := 1 }]
    [0xAA, 0xBB]

/-- Two segments in pages of their own. -/
theorem segments_kept_two_pages :
    ∃ s m₂, bootFile (twoSegments 0x8000400000 0x8000401000)
        [.process .createAddressSpace] = some s ∧
      loadSegments bumpAlloc 4096 178 90112 2 0 s.machine = .ok m₂ ∧
      SegmentsKept bumpAlloc s.machine 4096 178 90112 := by
  have hrun :
      (bootFile (twoSegments 0x8000400000 0x8000401000)
        [.process .createAddressSpace]).any (fun s =>
          decide (90112 ∈ s.roots ∧ ImageLow s.machine.mem ∧
            phnum s.machine.mem 4096 = 2 ∧
            ((phdrAt s.machine.mem 4096 0).vaddr = 0x8000400000 ∧
              (phdrAt s.machine.mem 4096 0).memsz = 1) ∧
            (phdrAt s.machine.mem 4096 1).firstPage = 0x8000401 ∧
            (phdrAt s.machine.mem 4096 1).pageCount = 1) &&
          (loadSegments bumpAlloc 4096 178 90112 2 0 s.machine).toOption.any
            (fun _ => true)) = true := by
    decide +kernel
  obtain ⟨s, hs, hok⟩ := (Option.any_eq_true _ _).mp hrun
  rw [Bool.and_eq_true, decide_eq_true_eq] at hok
  obtain ⟨⟨hroot, hlow, hnum, ⟨hvaddr, hmemsz⟩, hfirst, hcount⟩, hload⟩ := hok
  obtain ⟨m₂, hsegments, _⟩ := any_toOption.mp hload
  refine
    ⟨s, m₂, hs, hsegments,
      (segments_kept_iff (reachable_of_bootFile hs) hroot (hlow.imageKept 178)).mpr ?_⟩
  -- the page of the second segment has no byte of the first one
  intro i j b q _ hij hj hhas hmaps hplace
  rw [hnum] at hj
  obtain ⟨rfl, rfl⟩ : i = 0 ∧ j = 1 := by omega
  unfold SegmentHas at hhas
  unfold SegmentMaps at hmaps
  rw [hvaddr, hmemsz] at hhas
  rw [hfirst, hcount] at hmaps
  obtain rfl : q = 0x8000401 := by omega
  have hpage : canonicalPage 0x8000401 = 0x8000401 := by decide
  omega

/--
Two segments of one byte each, side by side: the page of the second one takes
the place of the page with the first one, whose byte then reads as zero.
-/
theorem adjacent_segment_lost :
    ∃ s m₁ m₂, bootFile (twoSegments 0x8000400000 0x8000400001)
        [.process .createAddressSpace] = some s ∧
      90112 ∈ s.roots ∧
      loadSegments bumpAlloc 4096 178 90112 1 0 s.machine = .ok m₁ ∧
      loadSegments bumpAlloc 4096 178 90112 2 0 s.machine = .ok m₂ ∧
      readByte (privateSpace m₁.mem 90112) 0x8000400000 = some 0xAA ∧
      readByte (privateSpace m₂.mem 90112) 0x8000400000 = some 0 ∧
      ¬ SegmentsKept bumpAlloc s.machine 4096 178 90112 := by
  have hrun :
      (bootFile (twoSegments 0x8000400000 0x8000400001)
        [.process .createAddressSpace]).any (fun s =>
          decide (90112 ∈ s.roots ∧ 1 < phnum s.machine.mem 4096 ∧
            ((phdrAt s.machine.mem 4096 0).type = ptLoad ∧
              (phdrAt s.machine.mem 4096 0).vaddr ≤ 0x8000400000 ∧
              0x8000400000 < (phdrAt s.machine.mem 4096 0).vaddr +
                (phdrAt s.machine.mem 4096 0).memsz) ∧
            (phdrAt s.machine.mem 4096 1).type = ptLoad) &&
          ((loadSegments bumpAlloc 4096 178 90112 1 0 s.machine).toOption.any
            (fun m₁ => decide (readByte (privateSpace m₁.mem 90112)
              0x8000400000 = some 0xAA)) &&
          (loadSegments bumpAlloc 4096 178 90112 2 0 s.machine).toOption.any
            (fun m₂ => decide (readByte (privateSpace m₂.mem 90112)
              0x8000400000 = some 0)))) = true := by
    decide +kernel
  obtain ⟨s, hs, hok⟩ := (Option.any_eq_true _ _).mp hrun
  rw [Bool.and_eq_true, Bool.and_eq_true, decide_eq_true_eq] at hok
  obtain ⟨⟨hroot, hnum, hhas, hload⟩, hfirst, hsecond⟩ := hok
  obtain ⟨m₁, hrun₁, hread₁⟩ := any_toOption.mp hfirst
  obtain ⟨m₂, hrun₂, hread₂⟩ := any_toOption.mp hsecond
  rw [decide_eq_true_eq] at hread₁ hread₂
  refine ⟨s, m₁, m₂, hs, hroot, hrun₁, hrun₂, hread₁, hread₂, fun hkept => ?_⟩
  have hsame :=
    hkept 0 1 _ m₁ m₂ Nat.zero_lt_one hnum hhas hload hrun₁ hrun₂ _ hread₁
  rw [hread₂] at hsame
  exact absurd hsame (by decide)

end Frame

end Elf
end RebornOS
