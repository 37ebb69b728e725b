import RebornOS.Fat16Tree

/-!
# Walks that stay away from a change

Two volumes agree on a set of clusters that the links do not leave.  Walks,
directory lookups and reads that start in the set then give the same results on
both volumes, panics included.
-/

namespace RebornOS
namespace Fat16

open ByteStore TableChain Fallible

variable {c d fuel : Nat} {cs : List Nat}

section Subdirectories

variable {serves : Nat → Bool} {v : Volume}

theorem readSubdirClusters_panic
    {p : Panic} (h : walkChain v d = .error p) :
    readSubdirClusters serves v d = .error p := by
  rw [readSubdirClusters, h]
  rfl

/-- `read_subdir_clusters` after its walk. -/
theorem readSubdirClusters_walked
    (h : walkChain v d = .ok cs) :
    readSubdirClusters serves v d =
      if kmallocOk serves (cs.length * v.geom.clusterSizeBytes % 2 ^ 32) then
        if cs.length * v.geom.clusterSizeBytes % 2 ^ 32 <
            cs.length * v.geom.clusterSizeBytes then
          .error .bufferOverrun
        else
          .ok (clusterBytes v cs, cs.length * v.geom.clusterSizeBytes % 2 ^ 32)
      else
        .error .directoryAlloc := by
  rw [readSubdirClusters, h]
  rfl

end Subdirectories

/-- The volumes agree on a set of clusters that the links do not leave. -/
structure AgreeOnClusters (v v' : Volume) (S : Set Nat) : Prop where
  geom : v'.geom = v.geom
  links : ∀ c, c ∈ S → IsCluster v.geom c → v'.fat c = v.fat c
  data :
    ∀ c, c ∈ S → 2 ≤ c → c < eocMin → ∀ j, j < v.geom.clusterSizeBytes →
      v'.device.disk (v.geom.clusterAddr c + j) =
        v.device.disk (v.geom.clusterAddr c + j)
  closed : ∀ c, c ∈ S → IsCluster v.geom c → v.fat c ∈ S

section Frames

variable {serves : Nat → Bool} {v v' : Volume} {S : Set Nat}

variable (h : AgreeOnClusters v v' S)
include h

theorem AgreeOnClusters.symm : AgreeOnClusters v' v S := by
  refine ⟨h.geom.symm, ?_, ?_, ?_⟩
  · intro c hc hnode
    rw [h.geom] at hnode
    exact (h.links c hc hnode).symm
  · intro c hc hlow hhigh j hj
    rw [h.geom] at hj ⊢
    exact (h.data c hc hlow hhigh j hj).symm
  · intro c hc hnode
    rw [h.geom] at hnode
    rw [h.links c hc hnode]
    exact h.closed c hc hnode

/-- One link, followed on either volume. -/
theorem AgreeOnClusters.fatNextCluster_eq
    (hc : c ∈ S) (hlow : 2 ≤ c) : fatNextCluster v' c = fatNextCluster v c := by
  unfold fatNextCluster
  rw [h.geom]
  by_cases hlt : c < v.geom.fatCacheEntries
  · rw [if_pos hlt, if_pos hlt, h.links c hc ⟨hlow, hlt⟩]
  · rw [if_neg hlt, if_neg hlt]

theorem AgreeOnClusters.next_mem
    {next : Nat} (hc : c ∈ S) (hlow : 2 ≤ c) (hnext : fatNextCluster v c = .ok next) :
    next ∈ S := by
  unfold fatNextCluster at hnext
  split_ifs at hnext with hlt
  cases hnext
  exact h.closed c hc ⟨hlow, hlt⟩

theorem AgreeOnClusters.walkFrom_eq
    (hc : c ∈ S) : walkFrom v' fuel c = walkFrom v fuel c := by
  induction fuel generalizing c with
  | zero =>
      rfl
  | succ fuel ih =>
      rw [walkFrom, walkFrom]
      by_cases hin : 2 ≤ c ∧ c < eocMin
      · rw [if_pos hin, if_pos hin, h.fatNextCluster_eq hc hin.1]
        cases hnext : fatNextCluster v c with
        | error e =>
            rfl
        | ok next =>
            show (walkFrom v' fuel next).bind _ = (walkFrom v fuel next).bind _
            rw [ih (h.next_mem hc hin.1 hnext)]
      · rw [if_neg hin, if_neg hin]

/-- A walk that starts in the set stays in it. -/
theorem AgreeOnClusters.mem_of_walk
    (hc : c ∈ S) (hwalk : walkFrom v fuel c = .ok cs) :
    ∀ d, d ∈ cs → d ∈ S ∧ 2 ≤ d ∧ d < eocMin := by
  induction fuel generalizing c cs with
  | zero =>
      cases hwalk
  | succ fuel ih =>
      rw [walkFrom] at hwalk
      split_ifs at hwalk with hin
      · obtain ⟨next, hnext, hrest⟩ := bind_eq_ok.mp hwalk
        obtain ⟨ds, hds, hcons⟩ := bind_eq_ok.mp hrest
        cases hcons
        intro d hd
        rcases List.mem_cons.mp hd with rfl | hd
        · exact ⟨hc, hin⟩
        · exact ih (h.next_mem hc hin.1 hnext) hds d hd
      · cases hwalk
        simp

/-- The bytes of clusters in the set. -/
theorem AgreeOnClusters.clusterBytes_agree
    (hcs : ∀ d, d ∈ cs → d ∈ S ∧ 2 ≤ d ∧ d < eocMin) :
    AgreeOn (clusterBytes v cs) (clusterBytes v' cs) 0
      (cs.length * v.geom.clusterSizeBytes) := by
  intro i _ hi
  have hindex : i / v.geom.clusterSizeBytes < cs.length :=
    (Nat.div_lt_iff_lt_mul v.geom.clusterSizeBytes_pos).mpr hi
  have hmem : cs.getD (i / v.geom.clusterSizeBytes) 0 ∈ cs := by
    rw [List.getD, List.getElem?_eq_getElem hindex]
    exact List.getElem_mem hindex
  obtain ⟨hS, hlow, hhigh⟩ := hcs _ hmem
  unfold clusterBytes
  rw [h.geom]
  exact h.data _ hS hlow hhigh _ (Nat.mod_lt _ v.geom.clusterSizeBytes_pos)

/-- The contents of a subdirectory in the set. -/
theorem AgreeOnClusters.dirContents_agree
    {count : Nat} {buf : Store} (hd : d ∈ S) (hne : d ≠ 0)
    (hdir : dirContents v d = some (buf, count)) :
    ∃ buf', dirContents v' d = some (buf', count) ∧
      AgreeOn buf buf' 0 (direntSize * count) := by
  unfold dirContents at hdir ⊢
  rw [if_neg hne] at hdir ⊢
  obtain ⟨cs, hcs, hpair⟩ := Option.map_eq_some_iff.mp hdir
  rw [toOption_eq_some] at hcs
  obtain ⟨rfl, rfl⟩ := Prod.mk.injEq _ _ _ _ ▸ hpair
  have hwalk : walkChain v' d = .ok cs := by
    rw [← hcs, walkChain, walkChain, h.geom, h.walkFrom_eq hd]
  refine ⟨clusterBytes v' cs, by rw [hwalk, h.geom]; rfl, ?_⟩
  refine (h.clusterBytes_agree (h.mem_of_walk hd hcs)).mono (le_refl _) ?_
  exact Nat.mul_div_le _ _

/-- The entries of a subdirectory in the set. -/
theorem AgreeOnClusters.entryOf
    {e : Nat} {ent : Dirent} (hd : d ∈ S) (hne : d ≠ 0) (hentry : EntryOf v d e ent) :
    EntryOf v' d e ent := by
  obtain ⟨⟨buf, count, hdir, hvis, rfl⟩, hdot⟩ := hentry
  obtain ⟨buf', hdir', hagree⟩ := h.dirContents_agree hd hne hdir
  have hsame : readDirent buf' e = readDirent buf e := by
    refine readDirent_congr (hagree.mono (Nat.zero_le _) ?_)
    have hlt := hvis.lt
    unfold direntSize
    omega
  exact ⟨⟨buf', count, hdir', hvis.congr hagree, hsame⟩, hdot⟩

/-- The two outcomes of reading a subdirectory, on both volumes. -/
theorem AgreeOnClusters.readDirectory_agree
    (serves : Nat → Bool) (hd : d ∈ S) (hne : d ≠ 0) :
    (∃ p, readDirectory serves v d = .error p ∧
        readDirectory serves v' d = .error p) ∨
      ∃ buf buf' count,
        readDirectory serves v d = .ok (buf, count) ∧
          readDirectory serves v' d = .ok (buf', count) ∧
          AgreeOn buf buf' 0 (direntSize * count) := by
  have hwalk : walkChain v' d = walkChain v d := by
    rw [walkChain, walkChain, h.geom, h.walkFrom_eq hd]
  unfold readDirectory
  rw [if_neg hne, if_neg hne]
  cases hcs : walkChain v d with
  | error p =>
      left
      refine ⟨p, ?_, ?_⟩
      · rw [readSubdirClusters_panic hcs]
        rfl
      · rw [readSubdirClusters_panic (hwalk.trans hcs)]
        rfl
  | ok cs =>
      rw [readSubdirClusters_walked hcs, readSubdirClusters_walked (hwalk.trans hcs),
        h.geom]
      split_ifs with halloc hover
      · exact Or.inl ⟨_, rfl, rfl⟩
      · right
        refine ⟨clusterBytes v cs, clusterBytes v' cs, _, rfl, rfl, ?_⟩
        refine (h.clusterBytes_agree (h.mem_of_walk hd hcs)).mono (le_refl _) ?_
        exact le_trans (Nat.mul_div_le _ _) (Nat.mod_le _ _)
      · exact Or.inl ⟨_, rfl, rfl⟩

/-- A lookup in a subdirectory in the set. -/
theorem AgreeOnClusters.findEntryInDir_eq
    (want : List UInt8) (hd : d ∈ S) (hne : d ≠ 0) :
    findEntryInDir serves v' d want = findEntryInDir serves v d want := by
  unfold findEntryInDir
  rcases h.readDirectory_agree serves hd hne with
    ⟨p, hread, hread'⟩ | ⟨buf, buf', count, hread, hread', hagree⟩
  · rw [hread, hread']
  · rw [hread, hread']
    show Except.ok ((findFrom buf' want count 0).map (readDirent buf')) =
      Except.ok ((findFrom buf want count 0).map (readDirent buf))
    rw [lookup_congr want hagree]

/-- Reading a file whose first cluster is in the set. -/
theorem AgreeOnClusters.readLoop_eq
    {remaining dst : Nat} {buf : Store} (hc : c ∈ S) :
    readLoop v' fuel c remaining dst buf =
      readLoop v fuel c remaining dst buf := by
  induction fuel generalizing c remaining dst buf with
  | zero =>
      rfl
  | succ fuel ih =>
      rw [readLoop, readLoop]
      by_cases hin : 0 < remaining ∧ 2 ≤ c ∧ c < eocMin
      · have hcopy : copyIn buf dst (min v.geom.clusterSizeBytes remaining)
              (fun i => v'.device.disk (v.geom.clusterAddr c + i)) =
            copyIn buf dst (min v.geom.clusterSizeBytes remaining)
              (fun i => v.device.disk (v.geom.clusterAddr c + i)) := by
          refine copyIn_congr ?_
          intro i hi
          exact h.data c hc hin.2.1 hin.2.2 i (by omega)
        rw [if_pos hin, if_pos hin, h.fatNextCluster_eq hc hin.2.1, h.geom]
        simp only [hcopy]
        cases hnext : fatNextCluster v c with
        | error e =>
            rfl
        | ok next =>
            exact ih (h.next_mem hc hin.2.1 hnext)
      · rw [if_neg hin, if_neg hin]

theorem AgreeOnClusters.fat16Read_eq
    {file : File} (buf : Store) (m : Nat) (hc : file.firstCluster ∈ S) :
    fat16Read serves v' file buf m = fat16Read serves v file buf m := by
  simp only [fat16Read, h.geom, h.readLoop_eq hc]

/-- Chains that start in the set are chains of both volumes. -/
theorem AgreeOnClusters.chain
    {f : Nat} (hf : f ∈ S) (hchain : ChainAt v.geom v.fat f cs) :
    ChainAt v.geom v'.fat f cs ∧ ∀ c, c ∈ cs → c ∈ S := by
  have hmem : ∀ c, c ∈ cs → c ∈ S :=
    fun c hc => hchain.subset_of_closed h.closed hf hc
  exact ⟨hchain.congr (fun c hc => h.links c (hmem c hc) (hchain.node hc)), hmem⟩

end Frames

end Fat16
end RebornOS
