import RebornOS.Fat16Layout
import RebornOS.FiniteCount

/-!
# Freeing and allocating clusters

The two loops of `fat16_write_file` that change the FAT.  Freeing a proper chain
clears exactly its clusters.  The writing loop allocates free clusters one by
one, links each to the one before it, and fills it with the next chunk of the
data; `Written` is the result, proved by induction on the number of clusters.
-/

namespace RebornOS
namespace Fat16

open ByteStore TableChain FiniteCount Function

variable {c d f fuel n offset prev remaining : Nat} {data : Nat → UInt8}
  {r : Volume × Progress} {fat : Nat → Nat} {g : Geometry} {cs : List Nat} {v : Volume}
  {p : Progress}

section Freeing

/-- The FAT with the clusters of a list marked free. -/
def cleared (fat : Nat → Nat) (cs : List Nat) : Nat → Nat :=
  fun c => if c ∈ cs then freeMark else fat c

@[simp] theorem cleared_nil
    (fat : Nat → Nat) : cleared fat [] = fat := by
  funext c
  simp [cleared]

theorem cleared_update
    (fat : Nat → Nat) (c : Nat) (cs : List Nat) :
    cleared (update fat c freeMark) cs = cleared fat (c :: cs) := by
  funext d
  by_cases hd : d ∈ cs
  · simp [cleared, hd]
  · by_cases hdc : d = c
    · subst hdc
      simp [cleared]
    · simp [cleared, hd, hdc]

/-- The freeing loop only clears entries. -/
theorem freeChain_le
    {entries : Nat} {fat' : Nat → Nat} (h : freeChain entries fuel fat c = .ok fat')
    (d : Nat) : fat' d ≤ fat d := by
  induction fuel generalizing fat c with
  | zero =>
      cases h
  | succ fuel ih =>
      rw [freeChain] at h
      split_ifs at h with hin hlt
      · refine le_trans (ih h) ?_
        by_cases hd : d = c
        · subst hd
          rw [update_self]
          exact Nat.zero_le _
        · rw [update_of_ne hd]
      · cases h
        exact le_refl _

/-- The freeing loop clears exactly the chain. -/
theorem freeChain_of_chain
    (hsmall : g.fatCacheEntries ≤ eocMin) (h : ChainAt g fat f cs)
    (hfuel : cs.length < fuel) :
    freeChain g.fatCacheEntries fuel fat f = .ok (cleared fat cs) := by
  induction cs generalizing fat f fuel with
  | nil =>
      obtain ⟨fuel, rfl⟩ := Nat.exists_eq_succ_of_ne_zero (by omega : fuel ≠ 0)
      have hstop : eocMin ≤ f := h
      rw [freeChain, if_neg (by omega), cleared_nil]
  | cons c cs ih =>
      obtain ⟨fuel, rfl⟩ := Nat.exists_eq_succ_of_ne_zero (by omega : fuel ≠ 0)
      have hnodup := h.nodup (isCluster_not_stop hsmall)
      obtain ⟨rfl, ⟨hlow, hlt⟩, hrest⟩ := h
      have hnot : f ∉ cs := (List.nodup_cons.mp hnodup).1
      -- the links of the remaining clusters are still there
      have hrest' : ChainAt g (update fat f freeMark) (fat f) cs :=
        (chain_update_iff hnot).mpr hrest
      rw [freeChain, if_pos (by omega), if_pos hlt,
        ih hrest' (by simpa using hfuel), cleared_update]

/-- The same for a directory entry, whose file may have no clusters. -/
theorem freeChain_of_entryChain
    (hsmall : g.fatCacheEntries ≤ eocMin) (h : EntryChain g fat f cs) :
    freeChain g.fatCacheEntries (g.fatCacheEntries + 2) fat f =
      .ok (cleared fat cs) := by
  rcases h with ⟨hf, rfl⟩ | hchain
  · rw [freeChain, if_neg (by omega), cleared_nil]
  · refine freeChain_of_chain hsmall hchain ?_
    have hle := length_le_of_nodup (hchain.nodup (isCluster_not_stop hsmall))
      (fun c hc => (hchain.node hc).2)
    omega

end Freeing

section Allocating

theorem allocCluster_eq_some
    (h : allocCluster v = some c) : IsCluster v.geom c ∧ v.fat c = freeMark := by
  have hmem := List.mem_of_find?_eq_some h
  have hspec := List.find?_some h
  simp only [decide_eq_true_eq] at hspec
  exact ⟨⟨hspec.1, List.mem_range.mp hmem⟩, hspec.2⟩

/-- The free clusters of a FAT. -/
def IsFree (fat : Nat → Nat) (c : Nat) : Prop := 2 ≤ c ∧ fat c = freeMark

instance (fat : Nat → Nat) : DecidablePred (IsFree fat) :=
  fun _ => inferInstanceAs (Decidable (_ ∧ _))

/-- The number of free clusters. -/
def freeCount (g : Geometry) (fat : Nat → Nat) : Nat :=
  Nat.count (IsFree fat) g.fatCacheEntries

theorem allocCluster_eq_none :
    allocCluster v = none ↔
      ∀ c, c < v.geom.fatCacheEntries → ¬ IsFree v.fat c := by
  simp only [allocCluster, List.find?_eq_none, List.mem_range, decide_eq_true_eq,
    IsFree]

/-- A free cluster is found as long as there is one. -/
theorem allocCluster_isSome
    (h : 0 < freeCount v.geom v.fat) : ∃ c, allocCluster v = some c := by
  obtain ⟨c, hc, hfree⟩ := count_pos_iff.mp h
  refine Option.ne_none_iff_exists'.mp (fun hnone => ?_)
  exact allocCluster_eq_none.mp hnone c hc hfree

/-- Clearing a chain makes its clusters free. -/
theorem freeCount_cleared
    (hnodup : cs.Nodup) (hnode : ∀ c, c ∈ cs → IsCluster g c)
    (hused : ∀ c, c ∈ cs → fat c ≠ freeMark) :
    freeCount g (cleared fat cs) = freeCount g fat + cs.length := by
  induction cs with
  | nil =>
      simp
  | cons c cs ih =>
      obtain ⟨hnot, hrest⟩ := List.nodup_cons.mp hnodup
      have hc := hnode c (by simp)
      have hstep : freeCount g (cleared fat (c :: cs)) =
          freeCount g (cleared fat cs) + 1 := by
        refine count_flip hc.2 ?_ ?_ ?_
        · intro d _ hd
          simp [IsFree, cleared, hd]
        · exact ⟨hc.1, by simp [cleared]⟩
        · rintro ⟨_, hfree⟩
          simp only [cleared, hnot, if_false] at hfree
          exact hused c (by simp) hfree
      rw [hstep, ih hrest (fun d hd => hnode d (List.mem_cons_of_mem _ hd))
        (fun d hd => hused d (List.mem_cons_of_mem _ hd)), List.length_cons]
      omega

/-- Different free clusters are counted. -/
theorem length_le_freeCount
    (hnodup : cs.Nodup) (hfree : ∀ c, c ∈ cs → IsCluster g c ∧ fat c = freeMark) :
    cs.length ≤ freeCount g fat := by
  rw [freeCount, Nat.count_eq_card_filter_range, ← List.toFinset_card_of_nodup hnodup]
  refine Finset.card_le_card ?_
  intro c hc
  obtain ⟨hnode, hmark⟩ := hfree c (List.mem_toFinset.mp hc)
  exact Finset.mem_filter.mpr ⟨Finset.mem_range.mpr hnode.2, hnode.1, hmark⟩

end Allocating

section Linking

theorem linkCluster_new
    (hne : prev ≠ c) : linkCluster fat prev c c = eocMark := by
  unfold linkCluster
  split_ifs
  · simp
  · simp [update_of_ne hne.symm]

theorem linkCluster_prev
    (hprev : prev ≠ 0) : linkCluster fat prev c prev = c % 2 ^ 16 := by
  simp [linkCluster, hprev]

theorem linkCluster_other
    (hdc : d ≠ c) (hd : prev ≠ 0 → d ≠ prev) : linkCluster fat prev c d = fat d := by
  unfold linkCluster
  split_ifs with hprev
  · rw [update_of_ne hdc]
  · rw [update_of_ne (hd hprev), update_of_ne hdc]

/-- Linking a new cluster leaves the other clusters free or used. -/
theorem isFree_linkCluster
    (hlow : 2 ≤ c) (hlt : c < 2 ^ 16) (hprev : prev ≠ 0 → fat prev ≠ freeMark)
    (hdc : d ≠ c) : IsFree (linkCluster fat prev c) d ↔ IsFree fat d := by
  by_cases hdp : prev ≠ 0 ∧ d = prev
  · obtain ⟨hp, rfl⟩ := hdp
    simp only [IsFree, linkCluster_prev hp, Nat.mod_eq_of_lt hlt, freeMark]
    have hused := hprev hp
    unfold freeMark at hused
    omega
  · have hd : prev ≠ 0 → d ≠ prev := fun hp heq => hdp ⟨hp, heq⟩
    simp only [IsFree, linkCluster_other hdc hd]

/-- Linking a new cluster uses up one free cluster below a bound. -/
theorem count_linkCluster
    (hcn : c < n) (hlow : 2 ≤ c) (hfree : fat c = freeMark)
    (hprev : prev ≠ 0 → fat prev ≠ freeMark) (hlt : c < 2 ^ 16) :
    Nat.count (IsFree fat) n =
      Nat.count (IsFree (linkCluster fat prev c)) n + 1 := by
  have hne : prev ≠ c := by
    rintro rfl
    exact hprev (by omega) hfree
  refine count_flip hcn ?_ ⟨hlow, hfree⟩ ?_
  · intro d _ hd
    exact (isFree_linkCluster hlow hlt hprev hd).symm
  · rintro ⟨_, h⟩
    rw [linkCluster_new hne] at h
    exact absurd h (by decide)

/-- The number of free clusters after that. -/
theorem freeCount_linkCluster
    (hc : IsCluster g c) (hfree : fat c = freeMark)
    (hprev : prev ≠ 0 → fat prev ≠ freeMark) (hlt : c < 2 ^ 16) :
    freeCount g fat = freeCount g (linkCluster fat prev c) + 1 :=
  count_linkCluster hc.2 hc.1 hfree hprev hlt

end Linking

section Data

/-- The clusters of a list hold consecutive chunks of the data. -/
def Stored (g : Geometry) (disk : Store) (data : Nat → UInt8) :
    List Nat → Nat → Nat → Prop
  | [], _, _ => True
  | c :: cs, offset, remaining =>
      let chunk := min g.clusterSizeBytes remaining
      (∀ j, j < g.clusterSizeBytes →
        disk (g.clusterAddr c + j) = clusterImage data offset chunk j) ∧
        Stored g disk data cs (offset + chunk) (remaining - chunk)

/-- Only the bytes of the listed clusters matter. -/
theorem Stored.congr
    {disk disk' : Store} (h : Stored g disk data cs offset remaining)
    (hsame : ∀ c, c ∈ cs → ∀ j, j < g.clusterSizeBytes →
      disk' (g.clusterAddr c + j) = disk (g.clusterAddr c + j)) :
    Stored g disk' data cs offset remaining := by
  induction cs generalizing offset remaining with
  | nil =>
      trivial
  | cons c cs ih =>
      obtain ⟨hc, hrest⟩ := h
      refine ⟨?_, ih hrest (fun d hd => hsame d (List.mem_cons_of_mem _ hd))⟩
      intro j hj
      rw [hsame c (by simp) j hj, hc j hj]

/-- Constant data, in the first byte of each cluster; a cluster is filled up with zeros. -/
theorem Stored.first_byte
    {disk : Store} {b : UInt8} (h : Stored g disk (fun _ => b) cs offset remaining)
    (hlen : b ≠ 0 → cs.length * g.clusterSizeBytes < remaining + g.clusterSizeBytes)
    (hc : c ∈ cs) : disk (g.clusterAddr c) = b := by
  induction cs generalizing offset remaining with
  | nil =>
      cases hc
  | cons d cs ih =>
      have hpos := g.clusterSizeBytes_pos
      obtain ⟨himage, hrest⟩ := h
      rw [List.length_cons, Nat.succ_mul] at hlen
      rcases List.mem_cons.mp hc with rfl | hc
      · have hbyte := himage 0 hpos
        rw [Nat.add_zero, clusterImage] at hbyte
        by_cases hb : b = 0
        · rw [hb, ite_self] at hbyte
          rw [hb, hbyte]
        · have hsize := hlen hb
          rwa [if_pos (by omega)] at hbyte
      · refine ih hrest (fun hb => ?_) hc
        have hsize := hlen hb
        have hcs : g.clusterSizeBytes ≤ cs.length * g.clusterSizeBytes :=
          Nat.le_mul_of_pos_left _ (List.length_pos_of_mem hc)
        omega

end Data

/--
The writing loop has allocated the clusters `new`, linked behind `prev`, and
stored `remaining` bytes of the data from `offset` on.
-/
structure Written
    (data : Nat → UInt8) (v v' : Volume) (prev : Nat) (new : List Nat)
    (offset remaining : Nat) : Prop where
  geom : v'.geom = v.geom
  clusters : ∀ c, c ∈ new → IsCluster v.geom c ∧ v.fat c = freeMark
  nodup : new.Nodup
  links : ∀ c, c ∉ new → (prev ≠ 0 → c ≠ prev) → v'.fat c = v.fat c
  prev_link : prev ≠ 0 → v'.fat prev = new.headD (v.fat prev)
  words : ∀ c, c ∈ new → v'.fat c < 2 ^ 16
  chain : new ≠ [] → ChainAt v.geom v'.fat (new.headD 0) new
  stored : Stored v.geom v'.device.disk data new offset remaining
  frame :
    ∀ x, (∀ c, c ∈ new →
      x < v.geom.clusterAddr c ∨
        v.geom.clusterAddr c + v.geom.clusterSizeBytes ≤ x) →
      v'.device.disk x = v.device.disk x

section Loop

/-- The volume after one round of the writing loop. -/
def writeCluster
    (data : Nat → UInt8) (v : Volume) (p : Progress) (c : Nat) : Volume :=
  writeSectors { v with fat := linkCluster v.fat p.prevCluster c }
    (v.geom.clusterToSector c) v.geom.sectorsPerCluster
    (clusterImage data p.offset (min v.geom.clusterSizeBytes p.remaining))

/-- The loop variables after one round. -/
def advance (v : Volume) (p : Progress) (c : Nat) : Progress where
  firstCluster := if p.prevCluster = 0 then c else p.firstCluster
  prevCluster := c
  offset := p.offset + min v.geom.clusterSizeBytes p.remaining
  remaining := p.remaining - min v.geom.clusterSizeBytes p.remaining

theorem writeClusters_succ
    (h : allocCluster v = some c) :
    writeClusters data (n + 1) v p =
      writeClusters data n (writeCluster data v p c) (advance v p c) := by
  simp only [writeClusters, h, writeCluster, advance]

theorem writeCluster_inside
    {j : Nat} (hj : j < v.geom.clusterSizeBytes) :
    (writeCluster data v p c).device.disk (v.geom.clusterAddr c + j) =
      clusterImage data p.offset (min v.geom.clusterSizeBytes p.remaining) j := by
  refine writeSectors_inside
    (v := { v with fat := linkCluster v.fat p.prevCluster c }) ?_
  rwa [Geometry.clusterSizeBytes, Nat.mul_comm] at hj

theorem writeCluster_outside
    {x : Nat} (hx : x < v.geom.clusterAddr c ∨
      v.geom.clusterAddr c + v.geom.clusterSizeBytes ≤ x) :
    (writeCluster data v p c).device.disk x = v.device.disk x := by
  refine writeSectors_outside
    (v := { v with fat := linkCluster v.fat p.prevCluster c }) ?_
  rwa [Geometry.clusterSizeBytes, Nat.mul_comm] at hx

/-- No rounds. -/
theorem Written.nil
    (v : Volume) : Written data v v prev [] offset remaining :=
  ⟨rfl, by simp, List.nodup_nil, fun _ _ _ => rfl, fun _ => rfl, by simp,
    fun hne => absurd rfl hne, trivial, fun _ _ => rfl⟩

section Round

variable {v' : Volume} {new : List Nat}

/-- The cluster before the new one is in use, so it is another one. -/
theorem prevCluster_ne
    (hprev : p.prevCluster ≠ 0 → v.fat p.prevCluster ≠ freeMark)
    (hc : IsCluster v.geom c) (hfree : v.fat c = freeMark) : p.prevCluster ≠ c := by
  intro heq
  have hlow := hc.1
  exact hprev (by omega) (heq ▸ hfree)

theorem linkCluster_prev_of_cluster
    (hsmall : v.geom.fatCacheEntries ≤ eocMin) (hc : IsCluster v.geom c)
    (hp : p.prevCluster ≠ 0) : linkCluster v.fat p.prevCluster c p.prevCluster = c := by
  have hhigh := hc.2
  unfold eocMin at hsmall
  rw [linkCluster_prev hp, Nat.mod_eq_of_lt (by omega)]

/-- Later clusters were free in the linked FAT, so they are new ones. -/
theorem Written.later
    (hsmall : v.geom.fatCacheEntries ≤ eocMin)
    (hprev : p.prevCluster ≠ 0 → v.fat p.prevCluster ≠ freeMark)
    (hc : IsCluster v.geom c) (hfree : v.fat c = freeMark)
    (h : Written data (writeCluster data v p c) v' c new offset remaining)
    (hd : d ∈ new) :
    d ≠ c ∧ (p.prevCluster ≠ 0 → d ≠ p.prevCluster) ∧
      IsCluster v.geom d ∧ v.fat d = freeMark := by
  have hlow := hc.1
  obtain ⟨hnode, hzero⟩ := h.clusters d hd
  change linkCluster v.fat p.prevCluster c d = freeMark at hzero
  have hdc : d ≠ c := by
    rintro rfl
    rw [linkCluster_new (prevCluster_ne hprev hc hfree)] at hzero
    exact absurd hzero (by decide)
  have hdp : p.prevCluster ≠ 0 → d ≠ p.prevCluster := by
    rintro hp rfl
    rw [linkCluster_prev_of_cluster hsmall hc hp, freeMark] at hzero
    omega
  rw [linkCluster_other hdc hdp] at hzero
  exact ⟨hdc, hdp, hnode, hzero⟩

/-- One round followed by the rest of the loop. -/
theorem Written.cons
    (hsmall : v.geom.fatCacheEntries ≤ eocMin)
    (hprev : p.prevCluster ≠ 0 → v.fat p.prevCluster ≠ freeMark)
    (hc : IsCluster v.geom c) (hfree : v.fat c = freeMark)
    (h : Written data (writeCluster data v p c) v' c new
      (advance v p c).offset (advance v p c).remaining) :
    Written data v v' p.prevCluster (c :: new) p.offset p.remaining := by
  have hlow := hc.1
  have hhigh : c < eocMin := lt_of_lt_of_le hc.2 hsmall
  have hne := prevCluster_ne hprev hc hfree
  have hfat : (writeCluster data v p c).fat =
      linkCluster v.fat p.prevCluster c := rfl
  have hgeom : (writeCluster data v p c).geom = v.geom := rfl
  have hlater := fun d (hd : d ∈ new) => h.later hsmall hprev hc hfree hd
  have hclusterLink : v'.fat c = new.headD eocMark := by
    have hlink := h.prev_link (by omega)
    rwa [hfat, linkCluster_new hne] at hlink
  constructor
  · exact h.geom
  · intro d hd
    rcases List.mem_cons.mp hd with rfl | hd
    · exact ⟨hc, hfree⟩
    · exact (hlater d hd).2.2
  · exact List.nodup_cons.mpr ⟨fun hin => (hlater c hin).1 rfl, h.nodup⟩
  · intro d hd hdp
    rw [List.mem_cons, not_or] at hd
    rw [h.links d hd.2 (fun _ => hd.1), hfat, linkCluster_other hd.1 hdp]
  · intro hp
    have hnot : p.prevCluster ∉ new := fun hin => (hlater _ hin).2.1 hp rfl
    rw [h.links _ hnot (fun _ => hne), hfat, linkCluster_prev_of_cluster hsmall hc hp]
    rfl
  · intro d hd
    rcases List.mem_cons.mp hd with rfl | hd
    · rw [hclusterLink]
      cases new with
      | nil =>
          show eocMark < 2 ^ 16
          decide
      | cons b bs =>
          have hlt := (h.clusters b (by simp)).1.2
          show b < 2 ^ 16
          rw [hgeom] at hlt
          unfold eocMin at hsmall
          omega
    · exact h.words d hd
  · intro _
    refine ⟨rfl, hc, ?_⟩
    rw [hclusterLink]
    cases new with
    | nil =>
        show eocMin ≤ eocMark
        decide
    | cons d ds =>
        exact h.chain (by simp)
  · refine ⟨?_, h.stored⟩
    intro j hj
    have hkeep : v'.device.disk (v.geom.clusterAddr c + j) =
        (writeCluster data v p c).device.disk (v.geom.clusterAddr c + j) := by
      refine h.frame _ ?_
      intro d hd
      obtain ⟨hdc, _, hnode, _⟩ := hlater d hd
      have hdisj := v.geom.clusterAddr_disjoint hlow hhigh hnode.1
        (lt_of_lt_of_le hnode.2 hsmall) hdc.symm
      rw [hgeom]
      omega
    rw [hkeep, writeCluster_inside hj]
  · intro x hx
    rw [h.frame x (fun d hd => hx d (List.mem_cons_of_mem _ hd)),
      writeCluster_outside (hx c (by simp))]

end Round

/-- The write requests for the clusters of a list, one for each cluster. -/
def dataRequests (g : Geometry) (data : Nat → UInt8) :
    List Nat → Nat → Nat → List Request
  | [], _, _ => []
  | c :: cs, offset, remaining =>
      let chunk := min g.clusterSizeBytes remaining
      ⟨g.lba (g.clusterToSector c), g.sectorsPerCluster,
          clusterImage data offset chunk⟩ ::
        dataRequests g data cs (offset + chunk) (remaining - chunk)

/-- The volume when the loop ends, also when it panics. -/
def loopVolume : Except (Panic × Volume) (Volume × Progress) → Volume
  | .ok r => r.1
  | .error e => e.2

/-- However the loop ends, it has not touched anything before the data area. -/
theorem writeClusters_before_data
    (data : Nat → UInt8) (n : Nat) (v : Volume) (p : Progress) :
    (loopVolume (writeClusters data n v p)).geom = v.geom ∧
      ∀ x, x < v.geom.dataAddr →
        (loopVolume (writeClusters data n v p)).device.disk x =
          v.device.disk x := by
  induction n generalizing v p with
  | zero =>
      exact ⟨rfl, fun _ _ => rfl⟩
  | succ n ih =>
      cases halloc : allocCluster v with
      | none =>
          simp [writeClusters, halloc, loopVolume]
      | some c =>
          have hcluster :=
            v.geom.dataAddr_le_of_entry (allocCluster_eq_some halloc).1.2
          obtain ⟨hgeom, hbytes⟩ := ih (writeCluster data v p c) (advance v p c)
          rw [writeClusters_succ halloc]
          refine ⟨hgeom, fun x hx => (hbytes x hx).trans ?_⟩
          exact writeCluster_outside (Or.inl (lt_of_lt_of_le hx hcluster))

/--
What the loop has done when it ends.  It has written all its clusters, or there
is no free cluster left.
-/
theorem writeClusters_trace
    (data : Nat → UInt8) (n : Nat) (hsmall : v.geom.fatCacheEntries ≤ eocMin)
    (hprev : p.prevCluster ≠ 0 → v.fat p.prevCluster ≠ freeMark) :
    ∃ new,
      Written data v (loopVolume (writeClusters data n v p)) p.prevCluster new
          p.offset p.remaining ∧
        (loopVolume (writeClusters data n v p)).device =
          (dataRequests v.geom data new p.offset p.remaining).foldl Device.write
            v.device ∧
        ((∃ r, writeClusters data n v p = .ok r ∧ new.length = n ∧
            r.2.firstCluster =
              if p.prevCluster = 0 then new.headD p.firstCluster
              else p.firstCluster) ∨
          ∃ u, writeClusters data n v p = .error (.diskFull, u) ∧
            new.length < n ∧ allocCluster u = none) := by
  induction n generalizing v p with
  | zero =>
      exact ⟨[], Written.nil v, rfl, Or.inl ⟨(v, p), rfl, rfl, by simp⟩⟩
  | succ n ih =>
      cases halloc : allocCluster v with
      | none =>
          have hfull : writeClusters data (n + 1) v p = .error (.diskFull, v) := by
            simp only [writeClusters, halloc]
          rw [hfull]
          exact ⟨[], Written.nil v, rfl, Or.inr ⟨v, rfl, Nat.succ_pos n, halloc⟩⟩
      | some c =>
          rw [writeClusters_succ halloc]
          obtain ⟨hc, hfree⟩ := allocCluster_eq_some halloc
          have hlow := hc.1
          have hne : p.prevCluster ≠ c := by
            intro heq
            exact hprev (by omega) (heq ▸ hfree)
          have hnew : (advance v p c).prevCluster ≠ 0 →
              (writeCluster data v p c).fat (advance v p c).prevCluster ≠
                freeMark := by
            intro _
            show linkCluster v.fat p.prevCluster c c ≠ freeMark
            rw [linkCluster_new hne]
            decide
          obtain ⟨new, hwritten, hdevice, hend⟩ :=
            ih (v := writeCluster data v p c) (p := advance v p c) hsmall hnew
          refine ⟨c :: new, hwritten.cons hsmall hprev hc hfree, hdevice, ?_⟩
          have hcpos : (advance v p c).prevCluster ≠ 0 := by
            show c ≠ 0
            omega
          rcases hend with ⟨r, hok, hlen, hfirst⟩ | ⟨u, herror, hlen, hfull⟩
          · refine Or.inl ⟨r, hok, by simp [hlen], ?_⟩
            rw [hfirst, if_neg hcpos]
            rfl
          · exact Or.inr ⟨u, herror, by simpa using hlen, hfull⟩

/-- What a finished loop has done. -/
theorem writeClusters_spec
    (hsmall : v.geom.fatCacheEntries ≤ eocMin)
    (hprev : p.prevCluster ≠ 0 → v.fat p.prevCluster ≠ freeMark)
    (h : writeClusters data n v p = .ok r) :
    ∃ new,
      Written data v r.1 p.prevCluster new p.offset p.remaining ∧
        r.1.device =
          (dataRequests v.geom data new p.offset p.remaining).foldl Device.write
            v.device ∧
        new.length = n ∧
        r.2.firstCluster =
          if p.prevCluster = 0 then new.headD p.firstCluster
          else p.firstCluster := by
  obtain ⟨new, hwritten, hdevice, hend⟩ :=
    writeClusters_trace data n hsmall hprev
  rw [h] at hwritten hdevice hend
  rcases hend with ⟨r', hok, hlen, hfirst⟩ | ⟨u, herror, _⟩
  · cases hok
    exact ⟨new, hwritten, hdevice, hlen, hfirst⟩
  · cases herror

/-- The first cluster of a finished loop is the first free one. -/
theorem writeClusters_first
    (hsmall : v.geom.fatCacheEntries ≤ eocMin) (hprev : p.prevCluster = 0)
    (hpos : 0 < n) (h : writeClusters data n v p = .ok r) :
    allocCluster v = some r.2.firstCluster := by
  obtain ⟨n, rfl⟩ := Nat.exists_eq_add_of_lt hpos
  rw [Nat.zero_add] at h
  cases halloc : allocCluster v with
  | none =>
      simp only [writeClusters, halloc] at h
      cases h
  | some c =>
      obtain ⟨hc, hfree⟩ := allocCluster_eq_some halloc
      have hlow := hc.1
      have hnext : (advance v p c).prevCluster ≠ 0 := by
        show c ≠ 0
        omega
      rw [writeClusters_succ halloc] at h
      obtain ⟨new, _, _, _, hfirst⟩ :=
        writeClusters_spec (v := writeCluster data v p c) (p := advance v p c)
          hsmall (fun _ => by
            show linkCluster v.fat p.prevCluster c c ≠ freeMark
            rw [linkCluster_new (by omega)]
            decide) h
      rw [hfirst, if_neg hnext, advance, if_pos hprev]

/-- The loop finishes when there are enough free clusters. -/
theorem writeClusters_ok
    (data : Nat → UInt8) (hsmall : v.geom.fatCacheEntries ≤ eocMin)
    (hprev : p.prevCluster ≠ 0 → v.fat p.prevCluster ≠ freeMark)
    (hspace : n ≤ freeCount v.geom v.fat) : ∃ r, writeClusters data n v p = .ok r := by
  induction n generalizing v p with
  | zero =>
      exact ⟨_, rfl⟩
  | succ n ih =>
      obtain ⟨c, halloc⟩ := allocCluster_isSome (v := v) (by omega)
      obtain ⟨hc, hfree⟩ := allocCluster_eq_some halloc
      have hlow := hc.1
      have hhigh : c < eocMin := lt_of_lt_of_le hc.2 hsmall
      have hcount := freeCount_linkCluster hc hfree hprev
        (by unfold eocMin at hhigh; omega)
      have hne : p.prevCluster ≠ c := by
        intro heq
        exact hprev (by omega) (heq ▸ hfree)
      rw [writeClusters_succ halloc]
      refine ih (v := writeCluster data v p c) (p := advance v p c) hsmall ?_ ?_
      · intro _
        show linkCluster v.fat p.prevCluster c c ≠ freeMark
        rw [linkCluster_new hne]
        decide
      · show n ≤ freeCount v.geom (linkCluster v.fat p.prevCluster c)
        omega

end Loop

end Fat16
end RebornOS
