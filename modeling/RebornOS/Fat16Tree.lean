import RebornOS.Fat16Clusters
import RebornOS.Fat16Directory
import RebornOS.Fat16Names

/-!
# The directory tree of a volume

The contents of a directory are the entries that the driver reads for it: the
fixed root area, or the clusters that a walk from its first cluster visits.  An
entry of the tree is given by its position, the directory's cluster (0 for the
root) and the index in it.  The `.` and `..` entries of subdirectories lead back
into the tree and are not counted.
-/

namespace RebornOS
namespace Fat16

open ByteStore TableChain Fallible

variable {v : Volume} {d e f : Nat} {cs : List Nat} {ent : Dirent} {name : List UInt8}

/-- The bytes and the entry count of the directory at cluster `d`. -/
def dirContents (v : Volume) (d : Nat) : Option (Store × Nat) :=
  if d = 0 then
    some (rootBytes v, v.geom.rootDirEntryCount)
  else
    (walkChain v d).toOption.map (fun cs =>
      (clusterBytes v cs, cs.length * v.geom.clusterSizeBytes / direntSize))

/-- The names of the `.` and `..` entries. -/
def IsDot (d : Dirent) : Prop :=
  d.name = 0x2E :: List.replicate 10 0x20 ∨
    d.name = 0x2E :: 0x2E :: List.replicate 9 0x20

/-- A visible entry of directory `d`, other than `.` and `..`. -/
structure EntryOf (v : Volume) (d e : Nat) (ent : Dirent) : Prop where
  visible :
    ∃ buf count,
      dirContents v d = some (buf, count) ∧
        Visible buf count e ∧ readDirent buf e = ent
  not_dot : ¬ IsDot ent

/-- The directories that can be reached from the root. -/
inductive ReachDir (v : Volume) : Nat → Prop
  | root : ReachDir v 0
  | sub {d e : Nat} {ent : Dirent} :
      ReachDir v d →
      EntryOf v d e ent →
      ent.IsDirectory →
      ReachDir v ent.firstCluster

/-- A visible entry of the tree. -/
structure TreeEntry (v : Volume) (d e : Nat) (ent : Dirent) : Prop where
  reach : ReachDir v d
  entry : EntryOf v d e ent

/-- Chains are acyclic and proper, and no two entries share a cluster. -/
structure DisjointChains (v : Volume) : Prop where
  proper :
    ∀ d e ent, TreeEntry v d e ent →
      ∃ cs, EntryChain v.geom v.fat ent.firstCluster cs
  disjoint :
    ∀ d e ent d' e' ent' cs cs',
      TreeEntry v d e ent → TreeEntry v d' e' ent' → (d, e) ≠ (d', e') →
      EntryChain v.geom v.fat ent.firstCluster cs →
      EntryChain v.geom v.fat ent'.firstCluster cs' →
      ∀ c, c ∈ cs → c ∉ cs'

section Walks

/-- A walk along a proper chain visits its clusters. -/
theorem walkFrom_of_chain
    {fuel : Nat} (hsmall : v.geom.fatCacheEntries ≤ eocMin)
    (h : ChainAt v.geom v.fat f cs) (hfuel : cs.length < fuel) :
    walkFrom v fuel f = .ok cs := by
  induction cs generalizing f fuel with
  | nil =>
      obtain ⟨fuel, rfl⟩ := Nat.exists_eq_succ_of_ne_zero (by omega : fuel ≠ 0)
      have hstop : eocMin ≤ f := h
      rw [walkFrom, if_neg (by omega)]
  | cons c cs ih =>
      obtain ⟨fuel, rfl⟩ := Nat.exists_eq_succ_of_ne_zero (by omega : fuel ≠ 0)
      obtain ⟨rfl, ⟨hlow, hlt⟩, hrest⟩ := h
      have hnext : fatNextCluster v f = .ok (v.fat f) := if_pos hlt
      rw [walkFrom, if_pos (by omega), hnext]
      show (walkFrom v fuel (v.fat f)).bind _ = _
      rw [ih hrest (by simpa using hfuel)]
      rfl

/-- The clusters of an entry, as the driver walks them. -/
theorem walkChain_of_entryChain
    (hsmall : v.geom.fatCacheEntries ≤ eocMin) (h : EntryChain v.geom v.fat f cs) :
    walkChain v f = .ok cs := by
  rcases h with ⟨hf, rfl⟩ | hchain
  · rw [walkChain, walkFrom, if_neg (by omega)]
  · refine walkFrom_of_chain hsmall hchain ?_
    have hle := length_le_of_nodup (hchain.nodup (isCluster_not_stop hsmall))
      (fun c hc => (hchain.node hc).2)
    omega

/-- The clusters of a chain are in use. -/
theorem chain_used
    {g : Geometry} {fat : Nat → Nat} {c : Nat} (h : ChainAt g fat f cs) (hc : c ∈ cs) :
    fat c ≠ freeMark := by
  rcases h.next_mem hc with hnext | hstop
  · have hlow := (h.node hnext).1
    unfold freeMark
    omega
  · have hbig : eocMin ≤ fat c := hstop
    unfold eocMin at hbig
    unfold freeMark
    omega

end Walks

section RootEntries

/-- A formatted name is neither `.` nor `..`. -/
theorem not_isDot_of_name
    (hname : ent.name = format83 name) : ¬ IsDot ent := by
  have hhead := format83_head_ne_dot name
  rw [← hname] at hhead
  rintro (hdot | hdot)
  · rw [hdot] at hhead
    exact hhead rfl
  · rw [hdot] at hhead
    exact hhead rfl

/-- A visible root entry with a formatted name is an entry of the tree. -/
theorem treeEntry_of_root
    (hvis : Visible (rootBytes v) v.geom.rootDirEntryCount e)
    (hname : (readDirent (rootBytes v) e).name = format83 name) :
    TreeEntry v 0 e (readDirent (rootBytes v) e) :=
  ⟨ReachDir.root, ⟨_, _, if_pos rfl, hvis, rfl⟩, not_isDot_of_name hname⟩

/-- A position has at most one entry. -/
theorem EntryOf.unique
    {ent' : Dirent} (h : EntryOf v d e ent) (h' : EntryOf v d e ent') : ent = ent' := by
  obtain ⟨⟨buf, count, hdir, _, rfl⟩, _⟩ := h
  obtain ⟨⟨buf', count', hdir', _, rfl⟩, _⟩ := h'
  rw [hdir, Option.some.injEq, Prod.mk.injEq] at hdir'
  rw [hdir'.1]

/-- The entries of the root directory. -/
theorem entryOf_root_iff :
    EntryOf v 0 e ent ↔
      Visible (rootBytes v) v.geom.rootDirEntryCount e ∧
        readDirent (rootBytes v) e = ent ∧ ¬ IsDot ent := by
  constructor
  · rintro ⟨⟨buf, count, hdir, hvis, hent⟩, hdot⟩
    rw [dirContents, if_pos rfl, Option.some.injEq, Prod.mk.injEq] at hdir
    obtain ⟨rfl, rfl⟩ := hdir
    exact ⟨hvis, hent, hdot⟩
  · rintro ⟨hvis, hent, hdot⟩
    exact ⟨⟨_, _, if_pos rfl, hvis, hent⟩, hdot⟩

/-- From a root without directories no other directory is reached. -/
theorem reachDir_eq_zero
    (hfiles : ∀ e ent, EntryOf v 0 e ent → ¬ ent.IsDirectory) (hd : ReachDir v d) :
    d = 0 := by
  induction hd with
  | root =>
      rfl
  | sub _ hentry hdir ih =>
      subst ih
      exact absurd hdir (hfiles _ _ hentry)

/-- A root directory that ends with its first entry has no entries. -/
theorem no_treeEntry_of_empty
    (hempty : firstByte (rootBytes v) 0 = 0) : ¬ TreeEntry v d e ent := by
  have hroot : ∀ e ent, ¬ EntryOf v 0 e ent := by
    intro e ent hentry
    exact (entryOf_root_iff.mp hentry).1.not_ended 0 (Nat.zero_le e) hempty
  have hreach : ∀ d, ReachDir v d → d = 0 := fun d hd =>
    reachDir_eq_zero (fun e ent hentry => absurd hentry (hroot e ent)) hd
  rintro ⟨hd, hentry⟩
  rw [hreach d hd] at hentry
  exact hroot e ent hentry

end RootEntries

section Lookups

variable {serves : Nat → Bool}

/-- What `read_directory` returns is the directory's contents. -/
theorem dirContents_of_readDirectory
    {r : Store × Nat} (h : readDirectory serves v d = .ok r) :
    dirContents v d = some r := by
  unfold readDirectory at h
  unfold dirContents
  by_cases hd : d = 0
  · rw [if_pos hd] at h ⊢
    obtain ⟨buf, hbuf, hr⟩ := bind_eq_ok.mp h
    unfold readRootDir at hbuf
    split_ifs at hbuf
    cases hbuf
    cases hr
    rfl
  · rw [if_neg hd] at h ⊢
    obtain ⟨s, hs, hr⟩ := bind_eq_ok.mp h
    obtain ⟨cs, hcs, hrest⟩ := bind_eq_ok.mp hs
    simp only at hrest
    split_ifs at hrest with halloc hover
    cases hrest
    cases hr
    have htotal : cs.length * v.geom.clusterSizeBytes % 2 ^ 32 =
        cs.length * v.geom.clusterSizeBytes := by
      have hle := Nat.mod_le (cs.length * v.geom.clusterSizeBytes) (2 ^ 32)
      omega
    rw [hcs, htotal]
    rfl

/-- What `find_entry_in_dir` returns for a name is an entry of the directory. -/
theorem entryOf_of_find
    (h : findEntryInDir serves v d (format83 name) = .ok (some ent)) :
    ∃ r e, readDirectory serves v d = .ok r ∧
      findFrom r.1 (format83 name) r.2 0 = some e ∧ EntryOf v d e ent := by
  obtain ⟨r, hread, hfind⟩ := bind_eq_ok.mp h
  simp only [Except.ok.injEq, Option.map_eq_some_iff] at hfind
  obtain ⟨e, hfind, rfl⟩ := hfind
  obtain ⟨hvis, hname, _⟩ := findFrom_zero_eq_some.mp hfind
  refine ⟨r, e, hread, hfind, ?_, not_isDot_of_name hname⟩
  exact ⟨r.1, r.2, dirContents_of_readDirectory hread, hvis, rfl⟩

end Lookups

section Replaced

variable {name : CString}

/-- The clusters of the file that a write to `name` replaces, if any. -/
def ReplacedChain (v : Volume) (name : CString) (cs : List Nat) : Prop :=
  match (scanSlots v name).1 with
  | none => cs = []
  | some e =>
      EntryChain v.geom v.fat (readDirent (rootBytes v) e).firstCluster cs

/-- The number of these clusters, as the driver would walk them. -/
def replacedClusters (v : Volume) (name : CString) : Nat :=
  match (scanSlots v name).1 with
  | none => 0
  | some e =>
      match walkChain v (readDirent (rootBytes v) e).firstCluster with
      | .ok cs => cs.length
      | .error _ => 0

/-- In a tree with proper chains the replaced file has one. -/
theorem DisjointChains.exists_replaced
    (h : DisjointChains v) (name : CString) : ∃ cs, ReplacedChain v name cs := by
  unfold ReplacedChain
  cases hfound : (scanSlots v name).1 with
  | none =>
      exact ⟨[], rfl⟩
  | some e =>
      rw [scanSlots_fst] at hfound
      obtain ⟨hvis, hname, _⟩ := findFrom_zero_eq_some.mp hfound
      exact h.proper 0 e _ (treeEntry_of_root hvis hname)

/-- Freeing clears the replaced file's clusters. -/
theorem ReplacedChain.freeExisting_eq
    (hsmall : v.geom.fatCacheEntries ≤ eocMin)
    (h : ReplacedChain v name cs) :
    freeExisting v (scanSlots v name).1 = .ok (cleared v.fat cs) := by
  unfold ReplacedChain at h
  unfold freeExisting
  cases hfound : (scanSlots v name).1 with
  | none =>
      rw [hfound] at h
      rw [h, cleared_nil]
  | some e =>
      rw [hfound] at h
      exact freeChain_of_entryChain hsmall h

/-- The clusters of a proper chain are distinct clusters in use. -/
theorem EntryChain.spec
    {g : Geometry} {fat : Nat → Nat} (hsmall : g.fatCacheEntries ≤ eocMin)
    (h : EntryChain g fat f cs) :
    cs.Nodup ∧ ∀ c, c ∈ cs → IsCluster g c ∧ fat c ≠ freeMark := by
  rcases h with ⟨_, rfl⟩ | hchain
  · exact ⟨List.nodup_nil, by simp⟩
  · exact ⟨hchain.nodup (isCluster_not_stop hsmall),
      fun c hc => ⟨hchain.node hc, chain_used hchain hc⟩⟩

variable (hsmall : v.geom.fatCacheEntries ≤ eocMin) (h : ReplacedChain v name cs)
include hsmall h

theorem ReplacedChain.spec :
    cs.Nodup ∧ ∀ c, c ∈ cs → IsCluster v.geom c ∧ v.fat c ≠ freeMark := by
  unfold ReplacedChain at h
  cases hfound : (scanSlots v name).1 with
  | none =>
      rw [hfound] at h
      subst h
      exact ⟨List.nodup_nil, by simp⟩
  | some e =>
      rw [hfound] at h
      exact h.spec hsmall

theorem ReplacedChain.length_eq : replacedClusters v name = cs.length := by
  unfold ReplacedChain at h
  unfold replacedClusters
  cases hfound : (scanSlots v name).1 with
  | none =>
      rw [hfound] at h
      subst h
      rfl
  | some e =>
      rw [hfound] at h
      simp only [walkChain_of_entryChain hsmall h]

/-- The free clusters after the replaced file was freed. -/
theorem ReplacedChain.freeCount_eq :
    freeCount v.geom (cleared v.fat cs) =
      freeCount v.geom v.fat + replacedClusters v name := by
  obtain ⟨hnodup, hspec⟩ := h.spec hsmall
  rw [h.length_eq hsmall]
  exact freeCount_cleared hnodup (fun c hc => (hspec c hc).1)
    (fun c hc => (hspec c hc).2)

end Replaced

end Fat16
end RebornOS
