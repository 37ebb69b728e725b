import RebornOS.Fat16Names

/-!
# Short names and the lines that list them

`format_83` writes a name into the eleven bytes of a directory entry, and
`fat16_list_dir` prints those bytes as a name again.  A `ShortName` has both
forms: its text, and its two fields filled up with spaces.  Formatting the text
gives the fields of the upper case name, and the line printed for the fields is
the text, so the two loops are inverse up to the case of letters.

Only the line itself is considered here: volume labels, parts of long names and
entries whose first byte marks them as deleted get no line.
-/

namespace RebornOS
namespace Fat16

variable {bytes : List UInt8} {n : Nat}

/-- A byte of a short name: not NUL, a dot, a slash or a space. -/
def NameByte (c : UInt8) : Prop :=
  c ≠ 0 ∧ c ≠ 0x2E ∧ c ≠ 0x2F ∧ c ≠ 0x20

/-- A lower case ASCII letter. -/
def LowerCase (c : UInt8) : Prop :=
  0x61 ≤ c ∧ c ≤ 0x7A
deriving Decidable

/-- One to eight bytes, and up to three bytes of an extension. -/
structure ShortName where
  base : List UInt8
  ext : List UInt8
  base_pos : 1 ≤ base.length
  base_le : base.length ≤ 8
  ext_le : ext.length ≤ 3
  base_bytes : ∀ c ∈ base, NameByte c
  ext_bytes : ∀ c ∈ ext, NameByte c

section Bytes

theorem NameByte.upper
    {c : UInt8} (h : NameByte c) : NameByte (upper c) := by
  obtain ⟨hnul, hdot, hslash, hspace⟩ := h
  refine ⟨?_, ?_, ?_, ?_⟩
  · rwa [ne_eq, upper_eq_iff (Or.inl (by decide))]
  · rwa [ne_eq, upper_eq_iff (Or.inl (by decide))]
  · rwa [ne_eq, upper_eq_iff (Or.inl (by decide))]
  · rwa [ne_eq, upper_eq_iff (Or.inl (by decide))]

theorem nameByte_map_upper
    (h : ∀ c ∈ bytes, NameByte c) : ∀ c ∈ bytes.map upper, NameByte c := by
  intro c hc
  obtain ⟨b, hb, rfl⟩ := List.mem_map.mp hc
  exact (h b hb).upper

theorem map_upper_eq_self
    (h : ∀ c ∈ bytes, ¬ LowerCase c) : bytes.map upper = bytes := by
  have hid : bytes.map upper = bytes.map id :=
    List.map_congr_left (fun c hc => if_neg (h c hc))
  rw [hid, List.map_id]

/-- A field that is not cut. -/
theorem padded_of_le
    (hlen : bytes.length ≤ n) :
    padded n bytes = bytes ++ List.replicate (n - bytes.length) 0x20 := by
  rw [padded, List.take_of_length_le hlen]

/-- Reading a field up to its first space gives back the bytes in it. -/
theorem takeWhile_padded
    (hlen : bytes.length ≤ n) (hbytes : ∀ c ∈ bytes, NameByte c) :
    (padded n bytes).takeWhile (fun c => c ≠ 0x20) = bytes := by
  rw [padded_of_le hlen, List.takeWhile_append_of_pos]
  · simp
  · intro c hc
    exact decide_eq_true (hbytes c hc).2.2.2

/-- The first byte of a field tells whether anything is in it. -/
theorem padded_getD_zero_ne_space
    (hbytes : ∀ c ∈ bytes, NameByte c) (hn : 0 < n) :
    (padded n bytes).getD 0 0x20 ≠ 0x20 ↔ bytes ≠ [] := by
  obtain ⟨n, rfl⟩ := Nat.exists_eq_succ_of_ne_zero hn.ne'
  cases bytes with
  | nil =>
      simp [padded, List.replicate_succ]
  | cons c bytes =>
      simpa [padded] using (hbytes c List.mem_cons_self).2.2.2

end Bytes

namespace ShortName

variable (s : ShortName)

/-- The name as a string: the dot is there if there is an extension. -/
def text : List UInt8 :=
  if s.ext = [] then s.base else s.base ++ 0x2E :: s.ext

/-- The name as a directory entry stores it. -/
def entryName : List UInt8 :=
  padded 8 s.base ++ padded 3 s.ext

/-- The name in upper case. -/
def upper : ShortName where
  base := s.base.map Fat16.upper
  ext := s.ext.map Fat16.upper
  base_pos := by simpa using s.base_pos
  base_le := by simpa using s.base_le
  ext_le := by simpa using s.ext_le
  base_bytes := nameByte_map_upper s.base_bytes
  ext_bytes := nameByte_map_upper s.ext_bytes

theorem text_upper : s.upper.text = s.text.map Fat16.upper := by
  have hdot : Fat16.upper 0x2E = 0x2E := by decide
  by_cases hext : s.ext = []
  · simp [text, upper, hext]
  · simp [text, upper, hext, hdot]

/-- A stored name without lower case letters is in upper case already. -/
theorem entryName_upper
    (hcase : ∀ c ∈ s.entryName, ¬ LowerCase c) : s.upper.entryName = s.entryName := by
  have hbase : s.base.map Fat16.upper = s.base := by
    refine map_upper_eq_self (fun c hc => hcase c ?_)
    rw [entryName, padded_of_le s.base_le]
    exact List.mem_append_left _ (List.mem_append_left _ hc)
  have hext : s.ext.map Fat16.upper = s.ext := by
    refine map_upper_eq_self (fun c hc => hcase c ?_)
    rw [entryName, padded_of_le s.ext_le]
    exact List.mem_append_right _ (List.mem_append_left _ hc)
  simp only [entryName, upper, hbase, hext]

theorem base_ne_dot : ∀ c ∈ s.base, decide (c ≠ 0x2E) = true := by
  intro c hc
  exact decide_eq_true (s.base_bytes c hc).2.1

/-- `format_83` splits the text where it was joined. -/
theorem format83_text : format83 s.text = s.upper.entryName := by
  by_cases hext : s.ext = []
  · have hbase : s.base.takeWhile (fun c => decide (c ≠ 0x2E)) = s.base :=
      List.takeWhile_eq_self_iff.mpr s.base_ne_dot
    have hrest : s.base.dropWhile (fun c => decide (c ≠ 0x2E)) = [] :=
      List.dropWhile_eq_nil_iff.mpr s.base_ne_dot
    simp only [format83, text, hext, if_pos, hbase, hrest, entryName, upper,
      List.drop_nil, List.map_nil]
  · simp only [format83, text, hext, if_false, entryName, upper,
      List.takeWhile_append_of_pos s.base_ne_dot,
      List.dropWhile_append_of_pos s.base_ne_dot]
    simp

/-- The line of an entry is the text of its name. -/
theorem listLine_entryName
    {d : Dirent} (hname : d.name = s.entryName) : listLine d = s.text ++ [0x0A] := by
  have hlen : (padded 8 s.base).length = 8 := padded_length 8 s.base
  have htake : d.name.take 8 = padded 8 s.base := by
    rw [hname, entryName, List.take_left' hlen]
  have hdrop : d.name.drop 8 = padded 3 s.ext := by
    rw [hname, entryName, List.drop_left' hlen]
  have hdot : d.name.getD 8 0x20 ≠ 0x20 ↔ s.ext ≠ [] := by
    rw [← padded_getD_zero_ne_space s.ext_bytes (by decide : 0 < 3), ← hdrop,
      List.getD_eq_getElem?_getD, List.getD_eq_getElem?_getD, List.getElem?_drop]
  simp only [listLine, htake, hdrop, takeWhile_padded s.base_le s.base_bytes,
    takeWhile_padded s.ext_le s.ext_bytes, hdot, text]
  by_cases hext : s.ext = []
  · simp [hext]
  · simp [hext]

end ShortName

/-- **Formatting and printing are inverse.**  The line for an entry with the
short name of `s` is `s` in upper case, a stored name without lower case letters
is the short name of its line, and only case variants share a short name. -/
theorem shortName_roundTrip :
    (∀ (s : ShortName) (d : Dirent), d.name = format83 s.text →
      listLine d = s.text.map upper ++ [0x0A]) ∧
    (∀ (s : ShortName) (d : Dirent) (line : List UInt8),
      d.name = s.entryName → (∀ c ∈ d.name, ¬ LowerCase c) →
      listLine d = line ++ [0x0A] → format83 line = d.name) ∧
    (∀ s t : ShortName, format83 s.text = format83 t.text ↔
      CaseVariant s.text t.text) := by
  have hline : ∀ (s : ShortName) (d : Dirent), d.name = format83 s.text →
      listLine d = s.text.map upper ++ [0x0A] := by
    intro s d hname
    rw [s.format83_text] at hname
    rw [s.upper.listLine_entryName hname, s.text_upper]
  refine ⟨hline, ?_, ?_⟩
  · intro s d line hname hcase hprinted
    rw [s.listLine_entryName hname] at hprinted
    have htext : s.text = line := List.append_cancel_right hprinted
    rw [hname] at hcase ⊢
    rw [← htext, s.format83_text, s.entryName_upper hcase]
  · intro s t
    constructor
    · intro hsame
      let d : Dirent := ⟨format83 s.text, 0, 0, 0, 0⟩
      have hs := hline s d rfl
      have ht := hline t d hsame
      exact List.append_cancel_right (hs.symm.trans ht)
    · exact CaseVariant.format83_eq

/-- `init.elf`. -/
def initElf : ShortName where
  base := [0x69, 0x6E, 0x69, 0x74]
  ext := [0x65, 0x6C, 0x66]
  base_pos := by decide
  base_le := by decide
  ext_le := by decide
  base_bytes := by simp [NameByte]
  ext_bytes := by simp [NameByte]

/-- `init.elf` is listed as `INIT.ELF`, which has the same short name. -/
theorem shortName_roundTrip_initElf :
    listLine ⟨format83 initElf.text, 0x20, 0, 0, 0⟩ =
        [0x49, 0x4E, 0x49, 0x54, 0x2E, 0x45, 0x4C, 0x46, 0x0A] ∧
      format83 [0x49, 0x4E, 0x49, 0x54, 0x2E, 0x45, 0x4C, 0x46] =
        format83 initElf.text := by
  obtain ⟨hline, hname, -⟩ := shortName_roundTrip
  have hprinted := hline initElf ⟨format83 initElf.text, 0x20, 0, 0, 0⟩ rfl
  have hcase : ∀ c ∈ format83 initElf.text, ¬ LowerCase c := by
    have hall : (format83 initElf.text).all (fun c => !decide (LowerCase c)) = true := by
      decide
    simpa using hall
  refine ⟨hprinted, ?_⟩
  exact hname initElf.upper ⟨format83 initElf.text, 0x20, 0, 0, 0⟩ _
    initElf.format83_text hcase hprinted

end Fat16
end RebornOS
