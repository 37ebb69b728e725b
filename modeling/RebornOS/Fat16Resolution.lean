import RebornOS.Fat16Listing
import RebornOS.Fat16Paths

/-!
# Path resolution

Both resolvers cut a path into pieces: a piece ends at a slash or after twelve
bytes, and the slashes behind it are skipped.  Resolving is then a walk along the
pieces.  `resolve_parent_dir` walks along all pieces but the last;
`resolve_directory` walks along all of them, but takes an empty first piece for
the end of the path.

The pieces are the components between the slashes exactly if no component is
longer than twelve bytes.  `fat16_write_file` does not cut its path at all.
-/

namespace RebornOS
namespace Fat16

open ByteStore ListBlocks Fallible

variable {c : UInt8} {name path : List UInt8} {d dir fuel : Nat}
  {ps : List (List UInt8)} {entries : List Dirent} {serves : Nat → Bool} {v : Volume}

section Pieces

/-- The pieces of a path, of which each round of a resolver takes one. -/
def piecesFrom : Nat → List UInt8 → List (List UInt8)
  | 0, _ => []
  | fuel + 1, path =>
      if pathRest path = [] then
        [component path]
      else
        component path :: piecesFrom fuel (pathRest path)

/-- All pieces of a path. -/
def pieces (path : List UInt8) : List (List UInt8) :=
  piecesFrom (path.length + 1) path

@[simp] theorem component_nil : component [] = [] := by
  rfl

@[simp] theorem pathRest_nil : pathRest [] = [] := by
  rfl

@[simp] theorem component_slash
    (path : List UInt8) : component (0x2F :: path) = [] := by
  simp [component]

theorem component_cons_ne_nil
    (hc : c ≠ 0x2F) (path : List UInt8) : component (c :: path) ≠ [] := by
  simp [component, hc]

theorem component_eq_nil_iff
    (hne : path ≠ []) : component path = [] ↔ path.head? = some 0x2F := by
  obtain ⟨c, rest, rfl⟩ := List.exists_cons_of_ne_nil hne
  by_cases hc : c = 0x2F
  · simp [hc]
  · simp [hc, component_cons_ne_nil hc rest]

/-- A rest starts with a component. -/
theorem pathRest_head
    (path : List UInt8) : (pathRest path).head? ≠ some 0x2F := by
  intro hhead
  have hdrop := List.head?_dropWhile_not (fun c : UInt8 => decide (c = 0x2F))
    (path.drop (component path).length)
  rw [← pathRest, hhead] at hdrop
  simp at hdrop

/-- Every round consumes a byte. -/
theorem pathRest_length_lt
    (hrest : pathRest path ≠ []) : (pathRest path).length < path.length := by
  cases path with
  | nil =>
      exact absurd pathRest_nil hrest
  | cons c path =>
      by_cases hc : c = 0x2F
      · subst hc
        have hle := (List.dropWhile_sublist (l := path)
          (fun c : UInt8 => decide (c = 0x2F))).length_le
        simpa [pathRest] using Nat.lt_succ_of_le hle
      · have hpos := List.length_pos_iff.mpr (component_cons_ne_nil hc path)
        have hle := (List.dropWhile_sublist
          (l := (c :: path).drop (component (c :: path)).length)
          (fun c : UInt8 => decide (c = 0x2F))).length_le
        rw [List.length_drop] at hle
        rw [pathRest]
        simp only [List.length_cons] at hle ⊢
        omega

/-- The number of rounds does not matter, if it suffices. -/
theorem piecesFrom_eq
    (hfuel : path.length < fuel) : piecesFrom fuel path = pieces path := by
  have hrounds : ∀ m n, ∀ path : List UInt8, path.length < m → path.length < n →
      piecesFrom m path = piecesFrom n path := by
    intro m
    induction m with
    | zero =>
        intro n path hm
        exact absurd hm (Nat.not_lt_zero _)
    | succ m ih =>
        intro n path hm hn
        obtain ⟨n, rfl⟩ := Nat.exists_eq_add_of_lt (Nat.zero_lt_of_lt hn)
        rw [Nat.zero_add, piecesFrom, piecesFrom]
        by_cases hrest : pathRest path = []
        · rw [if_pos hrest, if_pos hrest]
        · have hlt := pathRest_length_lt hrest
          rw [if_neg hrest, if_neg hrest, ih n _ (by omega) (by omega)]
  exact hrounds _ _ path hfuel (Nat.lt_succ_self _)

theorem pieces_last
    (hrest : pathRest path = []) : pieces path = [component path] := by
  simp [pieces, piecesFrom, hrest]

theorem pieces_step
    (hrest : pathRest path ≠ []) :
    pieces path = component path :: pieces (pathRest path) := by
  rw [pieces, piecesFrom, if_neg hrest, piecesFrom_eq (pathRest_length_lt hrest)]

@[simp] theorem pieces_ne_nil
    (path : List UInt8) : pieces path ≠ [] := by
  by_cases hrest : pathRest path = []
  · simp [pieces_last hrest]
  · simp [pieces_step hrest]

/-- The pieces of a path, by the round that takes each of them. -/
theorem pieces_induction
    {P : List UInt8 → Prop}
    (last : ∀ path, pathRest path = [] → P path)
    (step : ∀ path, pathRest path ≠ [] → P (pathRest path) → P path)
    (path : List UInt8) : P path := by
  induction hlen : path.length using Nat.strong_induction_on generalizing path with
  | _ n ih =>
      subst hlen
      by_cases hrest : pathRest path = []
      · exact last path hrest
      · exact step path hrest (ih _ (pathRest_length_lt hrest) _ rfl)

/-- A valid name behind a slash is one more piece. -/
theorem pieces_append_name
    (hne : path ≠ []) (hlast : path.getLast? ≠ some 0x2F) (hslash : 0x2F ∉ name)
    (hname : name ≠ []) (hlen : name.length ≤ 12) :
    pieces (path ++ 0x2F :: name) = pieces path ++ [name] := by
  have hcomponent : ∀ path : List UInt8,
      component (path ++ 0x2F :: name) = component path := by
    intro path
    rw [component, component]
    congr 1
    induction path with
    | nil =>
        simp
    | cons c path ih =>
        by_cases hc : c = 0x2F
        · simp [hc]
        · simpa [hc] using ih
  have hskip : ∀ path : List UInt8, (path.dropWhile fun c => c = 0x2F) ≠ [] →
      ((path ++ 0x2F :: name).dropWhile fun c => c = 0x2F) =
        (path.dropWhile fun c => c = 0x2F) ++ 0x2F :: name := by
    intro path hpath
    rw [List.dropWhile_append]
    simp [hpath]
  have hnamed : pieces name = [name] := by
    rw [pieces_last (pathRest_of_plain hslash hlen), component_of_plain hslash hlen]
  induction path using pieces_induction with
  | last path hrest =>
      -- nothing but slashes could stand behind the component
      have hall : path = component path := by
        have hdrop : path.drop (component path).length = [] := by
          by_contra hdrop
          rw [pathRest, List.dropWhile_eq_nil_iff] at hrest
          have hmem := hrest _ (List.getLast_mem hdrop)
          rw [List.getLast_drop] at hmem
          refine hlast ?_
          rw [List.getLast?_eq_some_getLast hne]
          simpa using hmem
        have hle := List.drop_eq_nil_iff.mp hdrop
        have htake : component path <+: path :=
          (List.take_prefix _ _).trans (List.takeWhile_prefix _)
        exact (htake.eq_of_length (le_antisymm htake.length_le hle)).symm
      have hrest' : pathRest (path ++ 0x2F :: name) = name := by
        rw [pathRest, hcomponent, ← hall, List.drop_left]
        obtain ⟨c, rest, rfl⟩ := List.exists_cons_of_ne_nil hname
        have hc : c ≠ 0x2F := by
          rintro rfl
          simp at hslash
        simp [hc]
      rw [pieces_last hrest, pieces_step (by rwa [hrest']), hrest', hnamed, hcomponent]
      rfl
  | step path hrest ih =>
      have hle : (component path).length ≤ path.length :=
        ((List.take_sublist _ _).trans (List.takeWhile_sublist _)).length_le
      have hrest' : pathRest (path ++ 0x2F :: name) =
          pathRest path ++ 0x2F :: name := by
        rw [pathRest, hcomponent, List.drop_append_of_le_length hle, hskip _ hrest]
        rfl
      have hend : (pathRest path).getLast? ≠ some 0x2F := by
        have hsuffix : pathRest path <:+ path :=
          (List.dropWhile_suffix _).trans (List.drop_suffix _ _)
        obtain ⟨front, hfront⟩ := hsuffix
        rw [← hfront, List.getLast?_append_of_ne_nil _ hrest] at hlast
        exact hlast
      rw [pieces_step hrest, pieces_step (by rw [hrest']; simp), hrest',
        ih hrest hend, hcomponent]
      rfl

end Pieces

section Components

/-- The bytes up to the first slash. -/
def firstWord (path : List UInt8) : List UInt8 :=
  path.takeWhile (fun c => c ≠ 0x2F)

/-- The path from its first slash on. -/
def behindWord (path : List UInt8) : List UInt8 :=
  path.dropWhile (fun c => c ≠ 0x2F)

theorem firstWord_append
    (path : List UInt8) : firstWord path ++ behindWord path = path :=
  List.takeWhile_append_dropWhile

theorem slash_notMem_firstWord
    (path : List UInt8) : 0x2F ∉ firstWord path := by
  intro hmem
  simpa using List.mem_takeWhile_imp hmem

theorem behindWord_head
    (hhead : (behindWord path).head? = some c) : c = 0x2F := by
  have hdrop := List.head?_dropWhile_not (fun c : UInt8 => decide (c ≠ 0x2F)) path
  rw [← behindWord, hhead] at hdrop
  simpa using hdrop

theorem firstWord_ne_nil
    (hne : path ≠ []) (hhead : path.head? ≠ some 0x2F) : firstWord path ≠ [] := by
  obtain ⟨c, rest, rfl⟩ := List.exists_cons_of_ne_nil hne
  have hc : c ≠ 0x2F := by simpa using hhead
  simp [firstWord, hc]

/-- The components of a path, one by one. -/
theorem blocks_firstWord
    (hne : path ≠ []) (hhead : path.head? ≠ some 0x2F) :
    blocks 0x2F path = firstWord path :: blocks 0x2F (behindWord path) := by
  conv_lhs => rw [← firstWord_append path]
  exact blocks_append (slash_notMem_firstWord path) (firstWord_ne_nil hne hhead)
    (fun c hc => behindWord_head hc)

/-- A component of at most twelve bytes is a piece. -/
theorem blocks_of_short
    (hne : path ≠ []) (hhead : path.head? ≠ some 0x2F)
    (hshort : (firstWord path).length ≤ 12) :
    blocks 0x2F path = component path :: blocks 0x2F (pathRest path) := by
  have hcomponent : component path = firstWord path :=
    List.take_of_length_le hshort
  have hdrop : path.drop (component path).length = behindWord path := by
    calc
      path.drop (component path).length =
          (firstWord path ++ behindWord path).drop (firstWord path).length := by
        rw [firstWord_append, hcomponent]
      _ = behindWord path := List.drop_left
  have hskip : blocks 0x2F ((behindWord path).dropWhile fun c => c == 0x2F) =
      blocks 0x2F (behindWord path) := blocks_dropWhile _
  simp only [beq_eq_decide] at hskip
  rw [blocks_firstWord hne hhead, hcomponent, pathRest, hdrop, hskip]

/-- A longer component is cut after twelve bytes. -/
theorem pathRest_of_long
    (hlong : 12 < (firstWord path).length) :
    pathRest path = (firstWord path).drop 12 ++ behindWord path := by
  have hcomponent : (component path).length = 12 := by
    rw [component, List.length_take, ← firstWord]
    omega
  have hdrop : path.drop 12 = (firstWord path).drop 12 ++ behindWord path := by
    rw [← List.drop_append_of_le_length hlong.le, firstWord_append]
  obtain ⟨c, rest, hcut⟩ :=
    List.exists_cons_of_ne_nil (List.drop_eq_nil_iff.not.mpr (Nat.not_le.mpr hlong))
  have hc : c ≠ 0x2F := by
    rintro rfl
    refine slash_notMem_firstWord path (List.mem_of_mem_drop (i := 12) ?_)
    simp [hcut]
  rw [pathRest, hcomponent, hdrop, hcut]
  simp [hc]

/-- What is cut off becomes a component of the rest. -/
theorem blocks_of_long
    (hlong : 12 < (firstWord path).length) :
    blocks 0x2F (pathRest path) =
      (firstWord path).drop 12 :: blocks 0x2F (behindWord path) := by
  rw [pathRest_of_long hlong]
  refine blocks_append ?_ ?_ (fun c hc => behindWord_head hc)
  · intro hmem
    exact slash_notMem_firstWord path (List.mem_of_mem_drop hmem)
  · exact List.drop_eq_nil_iff.not.mpr (Nat.not_le.mpr hlong)

/-- No component is longer than a piece can be. -/
def ShortComponents (path : List UInt8) : Prop :=
  ∀ c ∈ blocks 0x2F path, c.length ≤ 12

instance (path : List UInt8) : Decidable (ShortComponents path) :=
  inferInstanceAs (Decidable (∀ c ∈ _, _))

/--
The pieces are the components if these are short enough; otherwise there are
more pieces than components.
-/
theorem pieces_components
    (hne : path ≠ []) (hhead : path.head? ≠ some 0x2F) :
    (ShortComponents path → pieces path = blocks 0x2F path) ∧
      (¬ ShortComponents path →
        (blocks 0x2F path).length < (pieces path).length) := by
  induction path using pieces_induction with
  | last path hrest =>
      have hshort : (firstWord path).length ≤ 12 := by
        by_contra hlong
        have hblocks := blocks_of_long (Nat.not_le.mp hlong)
        simp [hrest] at hblocks
      have hblocks := blocks_of_short hne hhead hshort
      have hcomponent : (component path).length ≤ 12 := by
        simp [component]
      rw [hrest, blocks_nil] at hblocks
      constructor
      · intro _
        rw [pieces_last hrest, hblocks]
      · intro hall
        exact absurd (by simpa [ShortComponents, hblocks] using hcomponent) hall
  | step path hrest ih =>
      obtain ⟨ihshort, ihlong⟩ := ih hrest (pathRest_head path)
      rw [pieces_step hrest]
      by_cases hshort : (firstWord path).length ≤ 12
      · have hblocks := blocks_of_short hne hhead hshort
        have hcomponent : (component path).length ≤ 12 := by
          simp [component]
        have hiff : ShortComponents path ↔ ShortComponents (pathRest path) := by
          simp [ShortComponents, hblocks, hcomponent]
        rw [hiff, hblocks]
        constructor
        · intro hall
          rw [ihshort hall]
        · intro hall
          simpa using ihlong hall
      · have hlong := Nat.not_le.mp hshort
        have hblocks := blocks_firstWord hne hhead
        have hcut := blocks_of_long hlong
        have hle : (blocks 0x2F (pathRest path)).length ≤
            (pieces (pathRest path)).length := by
          by_cases hall : ShortComponents (pathRest path)
          · rw [ihshort hall]
          · exact (ihlong hall).le
        constructor
        · intro hall
          exact absurd (hall (firstWord path) (by simp [hblocks])) hshort
        · intro _
          rw [hcut] at hle
          simpa [hblocks] using hle

end Components

section Walks

variable (serves : Nat → Bool) (v : Volume)

/-- Going on in the entry that was found, if it is a directory. -/
def enter {α : Type} (next : Nat → Except Panic (Option α)) :
    Option Dirent → Except Panic (Option α)
  | none => .ok none
  | some entry =>
      if entry.IsDirectory then next entry.firstCluster else .ok none

/-- The directory that a list of pieces leads to. -/
def followDirs : List (List UInt8) → Nat → Except Panic (Option Nat)
  | [], dir => .ok (some dir)
  | piece :: rest, dir =>
      findEntryInDir serves v dir (format83 piece) >>= enter (followDirs rest)

/-- The entries that a list of pieces leads through, the last one included. -/
def followEntries :
    List (List UInt8) → Nat → Except Panic (Option (List Dirent))
  | [], _ => .ok (some [])
  | piece :: rest, dir => do
      match ← findEntryInDir serves v dir (format83 piece) with
      | none => .ok none
      | some entry =>
          if rest = [] then
            .ok (some [entry])
          else if entry.IsDirectory then do
            let entries ← followEntries rest entry.firstCluster
            .ok (entries.map (fun es => entry :: es))
          else
            .ok none

/-- The last piece of a path. -/
def lastPiece (path : List UInt8) : List UInt8 := (pieces path).getLastD []

/-- The end of `fat16_open`. -/
def openLeaf : Option (Nat × List UInt8) → Except Panic (Option File)
  | none => .ok none
  | some (dir, leaf) => do
      let entry ← findEntryInDir serves v dir (format83 leaf)
      .ok (entry.map (fun d => ⟨d.firstCluster, d.fileSize⟩))

/-- The file of the last entry. -/
def lastFile (entries : List Dirent) : Option File :=
  entries.getLast?.map (fun d => ⟨d.firstCluster, d.fileSize⟩)

variable {serves v}

theorem lastPiece_last
    (hrest : pathRest path = []) : lastPiece path = component path := by
  simp [lastPiece, pieces_last hrest]

theorem lastPiece_step
    (hrest : pathRest path ≠ []) : lastPiece path = lastPiece (pathRest path) := by
  obtain ⟨piece, rest, hpieces⟩ :=
    List.exists_cons_of_ne_nil (pieces_ne_nil (pathRest path))
  simp [lastPiece, pieces_step hrest, hpieces]

/-- Renaming the result of a walk. -/
theorem map_bind_enter
    {α β : Type} (f : α → β) (x : Except Panic (Option Dirent))
    (next : Nat → Except Panic (Option α)) :
    (x >>= enter next).map (Option.map f) =
      x >>= enter (fun c => (next c).map (Option.map f)) := by
  cases x with
  | error e =>
      rfl
  | ok entry =>
      cases entry with
      | none =>
          rfl
      | some entry =>
          by_cases hdir : entry.IsDirectory
          · simp [enter, hdir, bind, Except.bind]
          · simp [enter, hdir, bind, Except.bind, Except.map]

/-- `resolve_parent_dir` walks along all pieces but the last. -/
theorem resolveFrom_eq
    (hfuel : path.length < fuel) :
    resolveFrom serves v fuel dir path =
      (followDirs serves v (pieces path).dropLast dir).map
        (Option.map fun d => (d, lastPiece path)) := by
  induction fuel generalizing dir path with
  | zero =>
      exact absurd hfuel (Nat.not_lt_zero _)
  | succ fuel ih =>
      by_cases hrest : pathRest path = []
      · rw [resolveFrom, if_pos hrest, pieces_last hrest, lastPiece_last hrest]
        rfl
      · have hlt := pathRest_length_lt hrest
        have hnext : descend serves v fuel (pathRest path) =
            enter (fun c => resolveFrom serves v fuel c (pathRest path)) := by
          funext entry
          cases entry with
          | none =>
              rfl
          | some entry =>
              rfl
        rw [resolveFrom_succ hrest, hnext, pieces_step hrest,
          List.dropLast_cons_of_ne_nil (pieces_ne_nil _), followDirs,
          map_bind_enter, lastPiece_step hrest]
        congr 2
        funext c
        exact ih (by omega)

theorem resolveParentDir_eq
    (path : List UInt8) :
    resolveParentDir serves v path =
      (followDirs serves v (pieces path).dropLast 0).map
        (Option.map fun d => (d, lastPiece path)) :=
  resolveFrom_eq (Nat.lt_succ_self _)

theorem resolveParentDir_eq_some
    {leaf : List UInt8} :
    resolveParentDir serves v path = .ok (some (d, leaf)) ↔
      followDirs serves v (pieces path).dropLast 0 = .ok (some d) ∧
        lastPiece path = leaf := by
  simp [resolveParentDir_eq, map_eq_ok]

/-- `resolve_directory` walks along all pieces, if the first one is not empty. -/
theorem resolveDirectoryFrom_eq
    (hfuel : path.length < fuel) (hne : path ≠ []) (hhead : path.head? ≠ some 0x2F) :
    resolveDirectoryFrom serves v fuel dir path =
      followDirs serves v (pieces path) dir := by
  induction fuel generalizing dir path with
  | zero =>
      exact absurd hfuel (Nat.not_lt_zero _)
  | succ fuel ih =>
      have hpiece : component path ≠ [] := (component_eq_nil_iff hne).not.mpr hhead
      rw [resolveDirectoryFrom, if_neg hpiece]
      by_cases hrest : pathRest path = []
      · rw [pieces_last hrest, followDirs]
        congr 1
        funext entry
        cases entry with
        | none =>
            rfl
        | some entry =>
            simp [enter, followDirs, hrest]
      · have hlt := pathRest_length_lt hrest
        rw [pieces_step hrest, followDirs]
        congr 1
        funext entry
        cases entry with
        | none =>
            rfl
        | some entry =>
            simp [enter, hrest, ih (Nat.lt_of_lt_of_le hlt (Nat.le_of_lt_succ hfuel))
              hrest (pathRest_head path)]

theorem resolveDirectory_eq
    (hne : path ≠ []) (hhead : path.head? ≠ some 0x2F) :
    resolveDirectory serves v path = followDirs serves v (pieces path) 0 := by
  rw [resolveDirectory, if_neg hne,
    resolveDirectoryFrom_eq (Nat.lt_succ_self _) hne hhead]

/-- A path that starts with a slash is the root for it. -/
theorem resolveDirectory_slash
    (hhead : path.head? = some 0x2F) :
    resolveDirectory serves v path = .ok (some 0) := by
  have hne : path ≠ [] := by
    rintro rfl
    cases hhead
  rw [resolveDirectory, if_neg hne, resolveDirectoryFrom,
    if_pos ((component_eq_nil_iff hne).mpr hhead)]

/-- A lookup finds an entry of the wanted name. -/
theorem name_of_find
    {want : List UInt8} {ent : Dirent}
    (hfind : findEntryInDir serves v dir want = .ok (some ent)) : ent.name = want := by
  obtain ⟨r, _, hresult⟩ := bind_eq_ok.mp hfind
  simp only [Except.ok.injEq, Option.map_eq_some_iff] at hresult
  obtain ⟨e, hindex, rfl⟩ := hresult
  exact (findFrom_zero_eq_some.mp hindex).2.1

/-- One step of a walk that arrives. -/
theorem followEntries_cons
    {piece : List UInt8} (h : followEntries serves v (piece :: ps) dir = .ok (some entries)) :
    ∃ ent tail, findEntryInDir serves v dir (format83 piece) = .ok (some ent) ∧
      entries = ent :: tail ∧
        followEntries serves v ps ent.firstCluster = .ok (some tail) := by
  obtain ⟨found, hfind, hresult⟩ := bind_eq_ok.mp h
  cases found with
  | none =>
      cases hresult
  | some ent =>
      by_cases hrest : ps = []
      · simp only [hrest, if_true, Except.ok.injEq, Option.some.injEq] at hresult
        exact ⟨ent, [], hfind, hresult.symm, by rw [hrest, followEntries]⟩
      · by_cases hdir : ent.IsDirectory
        · simp only [hrest, hdir, if_true, if_false] at hresult
          obtain ⟨tail, htail, hcons⟩ := bind_eq_ok.mp hresult
          simp only [Except.ok.injEq, Option.map_eq_some_iff] at hcons
          obtain ⟨tail, rfl, rfl⟩ := hcons
          exact ⟨ent, tail, hfind, rfl, htail⟩
        · simp [hrest, hdir] at hresult

/-- The entries of a walk have the short names of the pieces. -/
theorem followEntries_names
    (h : followEntries serves v ps dir = .ok (some entries)) :
    entries.map Dirent.name = ps.map format83 := by
  induction ps generalizing dir entries with
  | nil =>
      cases h
      rfl
  | cons piece rest ih =>
      obtain ⟨ent, tail, hfind, rfl, htail⟩ := followEntries_cons h
      simp [name_of_find hfind, ih htail]

theorem followEntries_length
    (h : followEntries serves v ps dir = .ok (some entries)) :
    entries.length = ps.length := by
  simpa using congrArg List.length (followEntries_names h)

/-- `fat16_open` returns the last entry of its walk. -/
theorem fat16Open_eq_followEntries
    (path : CString) :
    fat16Open serves v path =
      (followEntries serves v (pieces path.bytes) 0).map
        (fun entries => entries.bind lastFile) := by
  have hwalk : ∀ fuel dir (path : List UInt8), path.length < fuel →
      (resolveFrom serves v fuel dir path >>= openLeaf serves v) =
        (followEntries serves v (pieces path) dir).map
          (fun entries => entries.bind lastFile) := by
    intro fuel
    induction fuel with
    | zero =>
        intro dir path hfuel
        exact absurd hfuel (Nat.not_lt_zero _)
    | succ fuel ih =>
        intro dir path hfuel
        by_cases hrest : pathRest path = []
        · rw [resolveFrom, if_pos hrest, pieces_last hrest, followEntries,
            ok_bind, openLeaf]
          cases findEntryInDir serves v dir (format83 (component path)) with
          | error e =>
              rfl
          | ok entry =>
              cases entry with
              | none =>
                  rfl
              | some entry =>
                  rfl
        · have hlt := pathRest_length_lt hrest
          rw [resolveFrom_succ hrest, pieces_step hrest, followEntries]
          cases findEntryInDir serves v dir (format83 (component path)) with
          | error e =>
              rfl
          | ok entry =>
              cases entry with
              | none =>
                  rfl
              | some entry =>
                  by_cases hdir : entry.IsDirectory
                  · have hnext := ih entry.firstCluster (pathRest path) (by omega)
                    simp only [descend, hdir, if_true, pieces_ne_nil, if_false,
                      ok_bind] at hnext ⊢
                    rw [hnext]
                    cases htail : followEntries serves v (pieces (pathRest path))
                        entry.firstCluster with
                    | error e =>
                        rfl
                    | ok tail =>
                        cases tail with
                        | none =>
                            rfl
                        | some tail =>
                            have hpos : tail ≠ [] := by
                              rintro rfl
                              exact pieces_ne_nil _ (List.length_eq_zero_iff.mp
                                (followEntries_length htail).symm)
                            simp [bind, Except.bind, Except.map, lastFile,
                              List.getLast?_cons, List.getLast?_eq_some_getLast hpos]
                  · simp [descend_file hdir, hdir, openLeaf, bind, Except.bind,
                      Except.map]
  exact hwalk _ 0 path.bytes (Nat.lt_succ_self _)

end Walks

section Samples

/-- The directory `LONGNAME` at cluster 2. -/
def treeRoot : List UInt8 :=
  direntBytes (format83 [0x6C, 0x6F, 0x6E, 0x67, 0x6E, 0x61, 0x6D, 0x65])
    attrDirectory 2 0

/-- Clusters 2 and 3 are in use. -/
def treeFat (c : Nat) : Nat := if c = 2 ∨ c = 3 then eocMark else freeMark

/-- This directory holds a file `X` of one byte, at cluster 3. -/
def treeDisk : Store :=
  writeText
    (writeText (diskOf formattedDisk formattedGeometry treeFat treeRoot)
      (formattedGeometry.clusterAddr 2)
      (direntBytes (format83 [0x78]) attrArchive 3 1))
    (formattedGeometry.clusterAddr 3) [0x41]

/-- The volume that mounting it gives. -/
def treeVolume : Volume :=
  ⟨formattedGeometry, diskFat formattedGeometry treeDisk, ⟨treeDisk, []⟩⟩

/-- `longnameabcdx`, a component of thirteen bytes. -/
def longPath : CString :=
  ⟨[0x6C, 0x6F, 0x6E, 0x67, 0x6E, 0x61, 0x6D, 0x65, 0x61, 0x62, 0x63, 0x64, 0x78],
    by decide⟩

/-- `longname`. -/
def treeName : CString :=
  ⟨[0x6C, 0x6F, 0x6E, 0x67, 0x6E, 0x61, 0x6D, 0x65], by decide⟩

/-- `/d`. -/
def slashName : CString := ⟨[0x2F, 0x64], by decide⟩

/-- `longname//x`. -/
def treePath : CString :=
  ⟨[0x6C, 0x6F, 0x6E, 0x67, 0x6E, 0x61, 0x6D, 0x65, 0x2F, 0x2F, 0x78], by decide⟩

/-- `dir/x`. -/
def slashPath : CString := ⟨[0x64, 0x69, 0x72, 0x2F, 0x78], by decide⟩

theorem fat16Init_tree : fat16Init (fun _ => true) treeDisk = .ok treeVolume := by
  refine fat16Init_of_boot
    (bootGeometry_congr (bootGeometry_of_bpb (by decide) (by decide)) ?_) (by decide)
  intro x hx
  have hx' : x < 512 := hx
  have hfat : formattedGeometry.fatAddr = 512 := by decide
  have hfirst : formattedGeometry.clusterAddr 2 = 1536 := by decide
  have hsecond : formattedGeometry.clusterAddr 3 = 2048 := by decide
  rw [treeDisk, writeText, copyIn_outside (by omega), writeText,
    copyIn_outside (by omega), diskOf_before (by omega)]

end Samples

section Separators

variable {path : CString}

/--
The entries that `fat16_open` goes through are those of the components: as many,
and each with the short name of the whole component.
-/
def FollowsSeparators (serves : Nat → Bool) (v : Volume) (path : CString) : Prop :=
  ∃ entries,
    followEntries serves v (pieces path.bytes) 0 = .ok (some entries) ∧
      entries.map Dirent.name = (blocks 0x2F path.bytes).map format83

/--
**Separators.**  A path that opens is resolved component by component exactly if
it is not empty and has no component of more than twelve bytes.
-/
theorem open_follows_separators_iff
    {file : File} (hhead : path.bytes.head? ≠ some 0x2F)
    (hopen : fat16Open serves v path = .ok (some file)) :
    FollowsSeparators serves v path ↔
      path.bytes ≠ [] ∧ ShortComponents path.bytes := by
  rw [fat16Open_eq_followEntries] at hopen
  obtain ⟨result, hwalk, hlast⟩ := map_eq_ok.mp hopen
  obtain ⟨entries, rfl, _⟩ := Option.bind_eq_some_iff.mp hlast
  have hnames := followEntries_names hwalk
  constructor
  · rintro ⟨entries', hwalk', hcomponents⟩
    rw [hwalk, Except.ok.injEq, Option.some.injEq] at hwalk'
    subst hwalk'
    have hlen : (pieces path.bytes).length = (blocks 0x2F path.bytes).length := by
      simpa using congrArg List.length (hnames.symm.trans hcomponents)
    have hne : path.bytes ≠ [] := by
      intro hnil
      rw [hnil, blocks_nil] at hlen
      exact absurd hlen (by decide)
    refine ⟨hne, ?_⟩
    by_contra hlong
    have hlt := (pieces_components hne hhead).2 hlong
    omega
  · rintro ⟨hne, hshort⟩
    refine ⟨entries, hwalk, ?_⟩
    rw [hnames, (pieces_components hne hhead).1 hshort]

/-- `longname//x` is resolved through `LONGNAME` and `X`. -/
theorem open_follows_separators_tree :
    fat16Open (fun _ => true) treeVolume treePath = .ok (some ⟨3, 1⟩) ∧
      FollowsSeparators (fun _ => true) treeVolume treePath := by
  have hopen : fat16Open (fun _ => true) treeVolume treePath =
      .ok (some ⟨3, 1⟩) :=
    toOption_eq_some.mp (by decide)
  exact ⟨hopen, (open_follows_separators_iff (by decide) hopen).mpr
    ⟨by decide, by decide⟩⟩

/--
**A component is split.**  `longnameabcdx` is one component, and there is no such
entry in the root; but it opens the file `X` of the directory `LONGNAME`.
-/
theorem long_component_splits :
    fat16Init (fun _ => true) treeDisk = .ok treeVolume ∧
      (blocks 0x2F longPath.bytes).length = 1 ∧
      fat16Open (fun _ => true) treeVolume longPath = .ok (some ⟨3, 1⟩) ∧
      (followEntries (fun _ => true) treeVolume (pieces longPath.bytes) 0).map
          (Option.map (List.map Dirent.name)) =
        .ok (some [format83 (longPath.bytes.take 12), format83 [0x78]]) ∧
      ¬ FollowsSeparators (fun _ => true) treeVolume longPath := by
  have hwalk : (followEntries (fun _ => true) treeVolume (pieces longPath.bytes)
      0).map (Option.map (List.map Dirent.name)) =
        .ok (some [format83 (longPath.bytes.take 12), format83 [0x78]]) :=
    toOption_eq_some.mp (by decide)
  have hone : (blocks 0x2F longPath.bytes).length = 1 := by decide
  refine ⟨fat16Init_tree, hone,
    toOption_eq_some.mp (by decide), hwalk, ?_⟩
  rintro ⟨entries, hentries, hcomponents⟩
  rw [hentries] at hwalk
  simp only [Except.map, Option.map_some, Except.ok.injEq, Option.some.injEq] at hwalk
  have hlen := congrArg List.length (hwalk.symm.trans hcomponents)
  simp [hone] at hlen

end Separators

section Resolvers

variable {n p : CString}

/-- The two resolvers find the same directory for `p` and for `p/n`. -/
def ResolversAgree (serves : Nat → Bool) (v : Volume) (p n : CString) : Prop :=
  ∀ c,
    resolveDirectory serves v p.bytes = .ok (some c) ↔
      resolveParentDir serves v (p.bytes ++ 0x2F :: n.bytes) =
        .ok (some (c, n.bytes))

theorem Valid83.ne_nil
    (h : Valid83 name) : name ≠ [] := by
  rintro rfl
  obtain ⟨base, ext, hpos, _, _, _, hnil | ⟨_, _, _, _, hnil⟩⟩ := h
  · simp [← hnil] at hpos
  · simp at hnil

/-- The directory of `p/n`. -/
theorem resolveParentDir_append_name
    (hne : p.bytes ≠ []) (hlast : p.bytes.getLast? ≠ some 0x2F)
    (hname : Valid83 n.bytes) {c : Nat} :
    resolveParentDir serves v (p.bytes ++ 0x2F :: n.bytes) =
        .ok (some (c, n.bytes)) ↔
      followDirs serves v (pieces p.bytes) 0 = .ok (some c) := by
  have hpieces := pieces_append_name hne hlast hname.plain.1 hname.ne_nil
    hname.plain.2
  simp [resolveParentDir_eq_some, lastPiece, hpieces]

/--
**Resolvers.**  They agree exactly if `p` does not start with a slash, or if its
pieces, of which the first one is then empty, lead back to the root.
-/
theorem resolvers_agree_iff
    (hne : p.bytes ≠ []) (hlast : p.bytes.getLast? ≠ some 0x2F)
    (hname : Valid83 n.bytes) :
    ResolversAgree serves v p n ↔
      p.bytes.head? ≠ some 0x2F ∨
        followDirs serves v (pieces p.bytes) 0 = .ok (some 0) := by
  constructor
  · intro hagree
    by_cases hhead : p.bytes.head? = some 0x2F
    · right
      exact (resolveParentDir_append_name hne hlast hname).mp
        ((hagree 0).mp (resolveDirectory_slash hhead))
    · exact Or.inl hhead
  · intro hcase c
    rw [resolveParentDir_append_name hne hlast hname]
    by_cases hhead : p.bytes.head? = some 0x2F
    · have hroot := hcase.resolve_left (not_not_intro hhead)
      rw [resolveDirectory_slash hhead, hroot]
    · rw [resolveDirectory_eq hne hhead]

/-- `longname` on the tree volume. -/
theorem resolvers_agree_tree :
    ResolversAgree (fun _ => true) treeVolume treeName sampleName ∧
      resolveDirectory (fun _ => true) treeVolume treeName.bytes = .ok (some 2) := by
  exact ⟨(resolvers_agree_iff (by decide) (by decide) valid83_sampleName).mpr
    (Or.inl (by decide)), toOption_eq_some.mp (by decide)⟩

/-- **A leading slash.**  `/d` is listed as the root, but `/d/a.b` has no parent. -/
theorem leading_slash_differs :
    Valid83 sampleName.bytes ∧
      resolveDirectory (fun _ => true) treeVolume slashName.bytes =
        .ok (some 0) ∧
      resolveParentDir (fun _ => true) treeVolume
          (slashName.bytes ++ 0x2F :: sampleName.bytes) = .ok none ∧
      ¬ ResolversAgree (fun _ => true) treeVolume slashName sampleName := by
  have hdir : resolveDirectory (fun _ => true) treeVolume slashName.bytes =
      .ok (some 0) :=
    resolveDirectory_slash rfl
  have hparent : resolveParentDir (fun _ => true) treeVolume
      (slashName.bytes ++ 0x2F :: sampleName.bytes) = .ok none :=
    toOption_eq_some.mp (by decide)
  refine ⟨valid83_sampleName, hdir, hparent, ?_⟩
  intro hagree
  have hfound := (hagree 0).mp hdir
  rw [hparent] at hfound
  cases hfound

end Resolvers

section Writers

variable {v' : Volume} {path : CString} {data : Nat → UInt8} {size : Nat}

/-- The directory and the short name in which `fat16_open` looks for a path. -/
def openTarget (serves : Nat → Bool) (v : Volume) (path : CString) :
    Except Panic (Option (Nat × List UInt8)) :=
  (resolveParentDir serves v path.bytes).map
    (Option.map fun r => (r.1, format83 r.2))

/--
On the volume `w`, such as the one after the call, `fat16_open` looks for the path
in the root, under the name that the call from `v` to `v'` has stored there.
-/
def OpensWritten (serves : Nat → Bool) (v v' w : Volume) (path : CString) : Prop :=
  ∃ slot, chooseSlot v path = some slot ∧
    openTarget serves w path =
      .ok (some (0, (readDirent (rootBytes v') slot).name))

/-- The path has one piece, and this piece has the short name of the whole. -/
def OnePiece (path : List UInt8) : Prop :=
  pathRest path = [] ∧ format83 (component path) = format83 path

/--
The path has several pieces; they lead back to the root, through directory
entries without a cluster, to a last piece that has the short name of the whole.
-/
def BackToRoot (serves : Nat → Bool) (v : Volume) (path : List UInt8) : Prop :=
  pathRest path ≠ [] ∧
    followDirs serves v (pieces path).dropLast 0 = .ok (some 0) ∧
    format83 (lastPiece path) = format83 path

theorem openTarget_eq_some
    {short : List UInt8} :
    openTarget serves v path = .ok (some (d, short)) ↔
      followDirs serves v (pieces path.bytes).dropLast 0 = .ok (some d) ∧
        format83 (lastPiece path.bytes) = short := by
  simp [openTarget, resolveParentDir_eq, map_eq_ok]

/-- A short path without slashes. -/
theorem onePiece_of_plain
    {path : List UInt8} (hslash : 0x2F ∉ path) (hlen : path.length ≤ 12) :
    OnePiece path :=
  ⟨pathRest_of_plain hslash hlen, by rw [component_of_plain hslash hlen]⟩

/-- A component that is the whole path. -/
theorem ShortComponents.length_le
    {path : List UInt8} (h : ShortComponents path) (hslash : 0x2F ∉ path) :
    path.length ≤ 12 := by
  by_cases hne : path = []
  · simp [hne]
  · exact h path (by simp [blocks_of_not_mem hslash hne])

/--
**Writers and readers.**  A file is written to the root, under the short name of the
whole path.  If no component has more than twelve bytes, this is what the path is
opened as, on any volume, exactly if it has no slash, or is a single piece with the
short name of the whole, or leads back to the root.
-/
theorem write_open_same_iff
    (hok : fat16WriteFile serves v path data size = .ok v')
    (hshort : ShortComponents path.bytes) (serves' : Nat → Bool) (w : Volume) :
    (∃ slot, chooseSlot v path = some slot ∧
        (readDirent (rootBytes v') slot).name = format83 path.bytes) ∧
      (OpensWritten serves' v v' w path ↔
        0x2F ∉ path.bytes ∨ OnePiece path.bytes ∨
          BackToRoot serves' w path.bytes) := by
  obtain ⟨slot, first, hslot, hwritten⟩ := rootWritten_of_ok hok
  have hname : (readDirent (rootBytes v') slot).name = format83 path.bytes := by
    rw [hwritten.readDirent_slot]
  have htarget : OpensWritten serves' v v' w path ↔
      followDirs serves' w (pieces path.bytes).dropLast 0 = .ok (some 0) ∧
        format83 (lastPiece path.bytes) = format83 path.bytes := by
    simp [OpensWritten, hslot, openTarget_eq_some, hname]
  have hsame : OpensWritten serves' v v' w path ↔
      OnePiece path.bytes ∨ BackToRoot serves' w path.bytes := by
    rw [htarget]
    by_cases hrest : pathRest path.bytes = []
    · simp [OnePiece, BackToRoot, hrest, pieces_last, lastPiece_last, followDirs]
    · simp [OnePiece, BackToRoot, hrest]
  refine ⟨⟨slot, hslot, hname⟩, hsame.trans (or_iff_right_of_imp ?_).symm⟩
  exact fun hslash => Or.inl (onePiece_of_plain hslash (hshort.length_le hslash))

/-- `a.b` on the sample volume. -/
theorem write_open_same_sample :
    ∃ v', fat16WriteFile (fun _ => true) sampleVolume sampleName UInt8.ofNat 3 =
        .ok v' ∧
      OpensWritten (fun _ => true) sampleVolume v' v' sampleName := by
  have hrun : (fat16WriteFile (fun _ => true) sampleVolume sampleName UInt8.ofNat
      3).toOption.any (fun _ => true) = true := by
    decide +kernel
  obtain ⟨v', hok, _⟩ := any_toOption.mp hrun
  exact ⟨v', hok, (write_open_same_iff hok (by decide) _ v').2.mpr
    (Or.inl (by decide))⟩

/--
**A slash in a name.**  `fat16_write_file` creates an entry `DIR/X` in the root,
where `fat16_open` looks for `X` in the directory `DIR`.
-/
theorem slash_names_differ :
    ∃ v', fat16WriteFile (fun _ => true) sampleVolume slashPath UInt8.ofNat 3 =
        .ok v' ∧
      (readDirent (rootBytes v') 0).name = format83 slashPath.bytes ∧
      openTarget (fun _ => true) v' slashPath = .ok (some (3, format83 [0x78])) ∧
      fat16Open (fun _ => true) v' slashPath = .ok none ∧
      ¬ OpensWritten (fun _ => true) sampleVolume v' v' slashPath := by
  have hrun : (fat16WriteFile (fun _ => true) sampleVolume slashPath UInt8.ofNat
      3).toOption.any (fun v' =>
        decide ((readDirent (rootBytes v') 0).name = format83 slashPath.bytes ∧
          (openTarget (fun _ => true) v' slashPath).toOption =
            some (some (3, format83 [0x78])) ∧
          (fat16Open (fun _ => true) v' slashPath).toOption = some none)) =
        true := by
    decide +kernel
  obtain ⟨v', hok, hfacts⟩ := any_toOption.mp hrun
  simp only [decide_eq_true_eq, toOption_eq_some] at hfacts
  obtain ⟨hname, htarget, hopen⟩ := hfacts
  refine ⟨v', hok, hname, htarget, hopen, ?_⟩
  rintro ⟨slot, _, hroot⟩
  rw [htarget] at hroot
  simp at hroot

end Writers

end Fat16
end RebornOS
