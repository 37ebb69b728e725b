import RebornOS.ByteStore
import RebornOS.ListBlocks
import RebornOS.Traced

/-!
# The tokenizer of the shell

`tokenize` cuts a command line into words where it stands: the space after a
word becomes its NUL, and `argv` points into the line.  The trace records every
byte of the line that is read or written and every element of `argv` that is set.

The loops have no bound but the NUL at the end of the line.  They are given fuel,
and run out of it only if the line is at least as long.  A round works on the rest
of the line: what it leaves behind is not touched again, so the words cut off
before stay as they are.
-/

namespace RebornOS
namespace Shell

open ByteStore ListBlocks Function

variable {mem mem' : Store} {a p : Nat}

section Model

/-- `MAX_ARGS`. -/
def maxArgs : Nat := 16

/-- Why a call does not return. -/
inductive Stop
  | endless

/-- What `tokenize` does to memory. -/
inductive Access
  | read (addr : Nat)
  | write (addr : Nat)
  | setArg (i : Nat)
deriving DecidableEq

variable (mem : Store) (fuel : Nat)

/-- `*p`. -/
def load (p : Nat) : Traced Stop Access UInt8 :=
  .emit [.read p] (mem p)

/-- `while (test(*p)) p++`. -/
def scan (test : UInt8 → Bool) : Nat → Nat → Traced Stop Access Nat
  | 0, _ => .fail .endless
  | n + 1, p => do
      let c ← load mem p
      if test c then scan test n (p + 1) else pure p

/-- `*p == ' '`. -/
def isSpace (c : UInt8) : Bool := c = 0x20

/-- `*p != '\0' && *p != ' '`. -/
def inWord (c : UInt8) : Bool := c ≠ 0 ∧ c ≠ 0x20

/-- The end of a round: the word at `p` gets its NUL. -/
def cutWord (p : Nat) : Traced Stop Access (Store × Nat) := do
  let q ← scan mem inWord fuel p
  let c ← load mem q
  if isSpace c then
    .emit [.write q] (update mem q 0, q + 1)
  else
    pure (mem, q)

/-- The loop with room for `n` more arguments.  Its test reads `*p` first, also
when `argc` has reached `MAX_ARGS`. -/
def tokenizeLoop : Nat → Store → List Nat → Nat → Traced Stop Access (Store × List Nat)
  | 0, mem, argv, p => do
      let _ ← load mem p
      pure (mem, argv)
  | n + 1, mem, argv, p => do
      let c ← load mem p
      if c = 0 then
        pure (mem, argv)
      else do
        let p ← scan mem isSpace fuel p
        let c ← load mem p
        if c = 0 then
          pure (mem, argv)
        else do
          let argv ← .emit [.setArg argv.length] (argv ++ [p])
          let r ← cutWord mem fuel p
          tokenizeLoop n r.1 argv r.2

/-- `tokenize`: the memory afterwards and the elements of `argv` that were set, of
which there are `argc`. -/
def tokenize (line : Nat) : Traced Stop Access (Store × List Nat) :=
  tokenizeLoop fuel maxArgs mem [] line

end Model

section Strings

/-- The NUL-terminated string at `a`. -/
def StringAt (mem : Store) : Nat → List UInt8 → Prop
  | a, [] => mem a = 0
  | a, c :: cs => mem a = c ∧ c ≠ 0 ∧ StringAt mem (a + 1) cs

variable {l u v : List UInt8}

/-- The rest of a string. -/
theorem StringAt.drop
    (h : StringAt mem a (u ++ v)) : StringAt mem (a + u.length) v := by
  induction u generalizing a with
  | nil =>
      exact h
  | cons c u ih =>
      have hrest := ih h.2.2
      rwa [Nat.add_assoc, Nat.add_comm 1] at hrest

/-- A string depends on its bytes and its NUL. -/
theorem StringAt.congr
    (h : StringAt mem a l) (hsame : ∀ x, a ≤ x → x ≤ a + l.length → mem' x = mem x) :
    StringAt mem' a l := by
  induction l generalizing a with
  | nil =>
      exact (hsame a (le_refl a) (le_refl a)).trans h
  | cons c l ih =>
      have hbyte := hsame a (le_refl a) (Nat.le_add_right _ _)
      refine ⟨hbyte.trans h.1, h.2.1, ih h.2.2 (fun x hx hx' => hsame x (by omega) ?_)⟩
      rw [List.length_cons]
      omega

/-- A NUL in place of a later byte ends the string there. -/
theorem StringAt.cut
    {c : UInt8} (h : StringAt mem a (u ++ c :: v)) :
    StringAt (update mem (a + u.length) 0) a u := by
  induction u generalizing a with
  | nil =>
      exact update_self ..
  | cons d u ih =>
      have hrest := ih h.2.2
      have hne : a ≠ a + (d :: u).length := by
        simp
      refine ⟨(update_of_ne hne ..).trans h.1, h.2.1, ?_⟩
      rwa [List.length_cons, Nat.add_comm u.length, ← Nat.add_assoc]

/-- The byte at the start of a string is zero only if the string is empty. -/
theorem StringAt.eq_zero_iff
    (h : StringAt mem a l) : mem a = 0 ↔ l = [] := by
  cases l with
  | nil =>
      exact iff_of_true h rfl
  | cons c l =>
      exact iff_of_false (h.1 ▸ h.2.1) (List.cons_ne_nil c l)

theorem StringAt.ne_zero
    (h : StringAt mem a l) {c : UInt8} (hc : c ∈ l) : c ≠ 0 := by
  induction l generalizing a with
  | nil =>
      cases hc
  | cons d l ih =>
      rcases List.mem_cons.mp hc with rfl | hc
      · exact h.2.1
      · exact ih h.2.2 hc

end Strings

section Specification

/-- An access to the string of `len` bytes at `a`, its NUL or `argv`. -/
def Access.Within (a len : Nat) : Access → Prop
  | .read x => a ≤ x ∧ x ≤ a + len
  | .write x => a ≤ x ∧ x < a + len
  | .setArg i => i < maxArgs

/-- The words of a line. -/
def words (l : List UInt8) : List (List UInt8) := blocks 0x20 l

/-- What `tokenize` leaves in memory and in `argv`. -/
structure Tokenized (l : List UInt8) (mem : Store) (argv : List Nat) : Prop where
  argc : argv.length = min maxArgs (words l).length
  string : ∀ (i : Nat) a, argv[i]? = some a → ∃ w, (words l)[i]? = some w ∧ StringAt mem a w
  disjoint : ∀ (i j : Nat) a b w, i < j → argv[i]? = some a → argv[j]? = some b →
    (words l)[i]? = some w → a + w.length < b

/-- The strings at `starts` are `ws`, one after the other from `p` on. -/
def Tokens (mem : Store) : Nat → List Nat → List (List UInt8) → Prop
  | _, [], [] => True
  | p, a :: starts, w :: ws =>
      p ≤ a ∧ StringAt mem a w ∧ Tokens mem (a + w.length + 1) starts ws
  | _, _, _ => False

variable {a' len len' : Nat} {starts : List Nat} {ws : List (List UInt8)}

theorem Access.Within.mono
    {x : Access} (h : x.Within a' len') (hle : a ≤ a') (hend : a' + len' ≤ a + len) :
    x.Within a len := by
  cases x with
  | read x =>
      obtain ⟨hlow, hhigh⟩ := h
      exact ⟨by omega, by omega⟩
  | write x =>
      obtain ⟨hlow, hhigh⟩ := h
      exact ⟨by omega, by omega⟩
  | setArg i =>
      exact h

theorem Tokens.length_eq
    (h : Tokens mem p starts ws) : starts.length = ws.length := by
  induction starts generalizing p ws with
  | nil =>
      cases ws with
      | nil =>
          rfl
      | cons w ws =>
          exact h.elim
  | cons a starts ih =>
      cases ws with
      | nil =>
          exact h.elim
      | cons w ws =>
          rw [List.length_cons, List.length_cons, ih h.2.2]

/-- Every pointer points to its word, behind `p`. -/
theorem Tokens.string
    (h : Tokens mem p starts ws) {i : Nat} (ha : starts[i]? = some a) :
    p ≤ a ∧ ∃ w, ws[i]? = some w ∧ StringAt mem a w := by
  induction starts generalizing p ws i with
  | nil =>
      cases ha
  | cons b starts ih =>
      cases ws with
      | nil =>
          exact h.elim
      | cons w ws =>
          obtain ⟨hle, hstring, hrest⟩ := h
          cases i with
          | zero =>
              obtain rfl : b = a := Option.some.inj ha
              exact ⟨hle, w, rfl, hstring⟩
          | succ i =>
              obtain ⟨hbehind, w', hw', hstring'⟩ := ih hrest ha
              exact ⟨by omega, w', hw', hstring'⟩

/-- The words do not overlap. -/
theorem Tokens.disjoint
    (h : Tokens mem p starts ws) {i j : Nat} {w : List UInt8} (hij : i < j)
    (ha : starts[i]? = some a) (ha' : starts[j]? = some a') (hw : ws[i]? = some w) :
    a + w.length < a' := by
  induction starts generalizing p ws i j with
  | nil =>
      cases ha
  | cons b starts ih =>
      cases ws with
      | nil =>
          exact h.elim
      | cons w' ws =>
          obtain ⟨-, -, hrest⟩ := h
          obtain ⟨j, rfl⟩ := Nat.exists_eq_succ_of_ne_zero (Nat.ne_zero_of_lt hij)
          cases i with
          | zero =>
              obtain rfl : b = a := Option.some.inj ha
              obtain rfl : w' = w := Option.some.inj hw
              exact (hrest.string ha').1
          | succ i =>
              exact ih hrest (Nat.lt_of_succ_lt_succ hij) ha ha' hw

end Specification

section Rounds

open Traced

variable {fuel len : Nat} {l w : List UInt8}

theorem returns_load
    (h : a ≤ p) (h' : p ≤ a + len) :
    Returns (Access.Within a len) (load mem p) (mem p) :=
  Returns.emit_one ⟨h, h'⟩ _

/-- A scan stops behind the bytes that pass the test, at the NUL at the latest. -/
theorem returns_scan
    {test : UInt8 → Bool} (hnul : test 0 = false)
    (h : StringAt mem p l) (hfuel : l.length < fuel) :
    Returns (Access.Within p l.length) (scan mem test fuel p)
      (p + (l.takeWhile test).length) := by
  induction l generalizing p fuel with
  | nil =>
      obtain ⟨n, rfl⟩ := Nat.exists_eq_succ_of_ne_zero (Nat.ne_zero_of_lt hfuel)
      have hbyte : mem p = 0 := h
      refine (returns_load (le_refl p) (le_refl p)).bind ?_
      rw [hbyte, hnul]
      exact Returns.pure p
  | cons c l ih =>
      obtain ⟨n, rfl⟩ := Nat.exists_eq_succ_of_ne_zero (Nat.ne_zero_of_lt hfuel)
      obtain ⟨hbyte, -, hrest⟩ := h
      rw [List.length_cons] at hfuel ⊢
      refine (returns_load (le_refl p) (Nat.le_add_right _ _)).bind ?_
      rw [hbyte]
      cases htest : test c with
      | false =>
          rw [List.takeWhile_cons_of_neg (by simp [htest])]
          exact Returns.pure p
      | true =>
          have hnext := ih hrest (by omega : l.length < n)
          rw [List.takeWhile_cons_of_pos htest, List.length_cons, if_pos rfl,
            ← Nat.add_assoc, Nat.add_right_comm]
          refine hnext.mono (fun x hx => ?_)
          exact hx.mono (by omega) (by omega)

/-- A word followed by a space or by the end of the line. -/
structure WordAt (mem : Store) (p : Nat) (w rest : List UInt8) : Prop where
  string : StringAt mem p (w ++ rest)
  word : ∀ c ∈ w, inWord c = true
  ends : ∀ c, rest.head? = some c → c = 0x20

/-- The word ends in memory, and `p'` is where the next round starts. -/
structure Cut (mem : Store) (p : Nat) (w rest : List UInt8) (mem' : Store) (p' : Nat)
    (rest' : List UInt8) : Prop where
  word : StringAt mem' p w
  next_string : StringAt mem' p' rest'
  next : p' = p + w.length ∧ rest' = [] ∨ p' = p + w.length + 1
  stop : p' + rest'.length = p + (w ++ rest).length
  words : words rest' = words rest
  frame : ∀ x, x < p ∨ p + (w ++ rest).length ≤ x → mem' x = mem x

variable {rest : List UInt8}

theorem WordAt.takeWhile_eq
    (h : WordAt mem p w rest) : (w ++ rest).takeWhile inWord = w := by
  rw [List.takeWhile_append_of_pos h.word]
  cases rest with
  | nil =>
      simp
  | cons c rest =>
      obtain rfl := h.ends c rfl
      simp [inWord]

theorem returns_cutWord
    (h : WordAt mem p w rest) (hfuel : (w ++ rest).length < fuel) :
    ∃ mem' p' rest', Cut mem p w rest mem' p' rest' ∧
      Returns (Access.Within p (w ++ rest).length) (cutWord mem fuel p)
        (mem', p') := by
  have hscan : Returns (Access.Within p (w ++ rest).length) (scan mem inWord fuel p)
      (p + ((w ++ rest).takeWhile inWord).length) :=
    returns_scan rfl h.string hfuel
  rw [h.takeWhile_eq] at hscan
  have hrest := h.string.drop
  have hlen : (w ++ rest).length = w.length + rest.length := List.length_append
  have hload : Returns (Access.Within p (w ++ rest).length) (load mem (p + w.length))
      (mem (p + w.length)) :=
    returns_load (by omega) (by omega)
  cases rest with
  | nil =>
      refine ⟨mem, p + w.length, [], ?_, hscan.bind (hload.bind ?_)⟩
      · exact
          { word := by simpa using h.string
            next_string := hrest
            next := Or.inl ⟨rfl, rfl⟩
            stop := by simp
            words := rfl
            frame := fun _ _ => rfl }
      · have hnul : mem (p + w.length) = 0 := hrest
        rw [hnul]
        exact Returns.pure _
  | cons c rest =>
      obtain rfl := h.ends c rfl
      rw [List.length_cons] at hlen
      refine ⟨update mem (p + w.length) 0, p + w.length + 1, rest, ?_,
        hscan.bind (hload.bind ?_)⟩
      · exact
          { word := h.string.cut
            next_string := hrest.2.2.congr (fun x hx _ => update_of_ne (by omega) ..)
            next := Or.inr rfl
            stop := by omega
            words := (blocks_cons_sep rest).symm
            frame := fun x hx => update_of_ne (by omega) .. }
      · rw [hrest.1]
        exact Returns.emit_one ⟨by omega, by omega⟩ _

/-- What stands behind the spaces. -/
theorem wordAt_of_stringAt
    (h : StringAt mem p l) :
    WordAt mem p (l.takeWhile inWord) (l.dropWhile inWord) where
  string := by rwa [List.takeWhile_append_dropWhile]
  word _ hc := List.mem_takeWhile_imp hc
  ends c hc := by
    have hmem : c ∈ l :=
      (List.dropWhile_suffix inWord).subset (List.mem_of_mem_head? hc)
    have hstop := List.head?_dropWhile_not inWord l
    rw [hc] at hstop
    have hne := h.ne_zero hmem
    simpa [inWord, hne] using hstop

/-- There is a word behind the spaces if there is anything. -/
theorem takeWhile_inWord_ne_nil
    (h : StringAt mem p (l.dropWhile isSpace)) (hne : l.dropWhile isSpace ≠ []) :
    (l.dropWhile isSpace).takeWhile inWord ≠ [] := by
  obtain ⟨c, rest, hcons⟩ := List.exists_cons_of_ne_nil hne
  have hspace := List.head?_dropWhile_not isSpace l
  rw [hcons] at h hspace ⊢
  have hword : inWord c = true := by
    have hne' : c ≠ 0x20 := by simpa [isSpace] using hspace
    simp [inWord, h.2.1, hne']
  rw [List.takeWhile_cons_of_pos hword]
  exact List.cons_ne_nil _ _

/-- The first word of a line and what follows it. -/
theorem WordAt.words_eq
    (h : WordAt mem p w rest) (hne : w ≠ []) : words (w ++ rest) = w :: words rest := by
  refine blocks_append ?_ hne h.ends
  intro hsep
  have hspace := h.word _ hsep
  simp [inWord] at hspace

theorem words_dropWhile
    (l : List UInt8) : words (l.dropWhile isSpace) = words l :=
  blocks_dropWhile l

/-- What the loop makes of the rest `l` of the line at `p`, with room for `n` more
arguments. -/
structure Split (mem : Store) (p : Nat) (l : List UInt8) (n : Nat) (mem' : Store)
    (starts : List Nat) : Prop where
  tokens : Tokens mem' p starts ((words l).take n)
  frame : ∀ x, x < p ∨ p + l.length ≤ x → mem' x = mem x

variable {mem₁ : Store} {n p₁ : Nat} {rest₁ : List UInt8} {starts : List Nat}

theorem Cut.le
    (h : Cut mem p w rest mem₁ p₁ rest₁) : p ≤ p₁ := by
  rcases h.next with ⟨rfl, -⟩ | rfl
  · omega
  · omega

theorem Split.nil
    (h : (words l).take n = []) : Split mem p l n mem [] where
  tokens := by
    rw [h]
    trivial
  frame _ _ := rfl

/-- The words of the later rounds come behind the word that was cut off. -/
theorem Split.cons
    (hcut : Cut mem p w rest mem₁ p₁ rest₁) (hword : words l = w :: words rest)
    (hnext : Split mem₁ p₁ rest₁ n mem' starts)
    (ha : a ≤ p) (hstop : p + (w ++ rest).length = a + l.length) :
    Split mem a l (n + 1) mem' (p :: starts) where
  tokens := by
    have hlen : (w ++ rest).length = w.length + rest.length := List.length_append
    have hend := hcut.stop
    rw [hword, ← hcut.words, List.take_succ_cons]
    rcases hcut.next with ⟨rfl, rfl⟩ | rfl
    · refine ⟨ha, hcut.word.congr (fun x _ hx => hnext.frame x ?_), ?_⟩
      · rw [List.length_nil]
        omega
      · have hempty := hnext.tokens
        have hnone : (words []).take n = [] := List.take_nil
        rw [hnone] at hempty ⊢
        cases starts with
        | nil =>
            trivial
        | cons b starts =>
            exact hempty.elim
    · exact ⟨ha, hcut.word.congr (fun x _ hx => hnext.frame x (Or.inl (by omega))),
        hnext.tokens⟩
  frame x hx := by
    have hend := hcut.stop
    have hpos := hcut.le
    exact (hnext.frame x (by omega)).trans (hcut.frame x (by omega))

/-- Where the word of a round starts. -/
def wordStart (p : Nat) (l : List UInt8) : Nat := p + (l.takeWhile isSpace).length

theorem wordStart_add_length
    (p : Nat) (l : List UInt8) :
    wordStart p l + (l.dropWhile isSpace).length = p + l.length := by
  rw [wordStart, Nat.add_assoc, ← List.length_append, List.takeWhile_append_dropWhile]

theorem StringAt.wordStart
    (h : StringAt mem p l) : StringAt mem (wordStart p l) (l.dropWhile isSpace) := by
  refine StringAt.drop ?_
  rwa [List.takeWhile_append_dropWhile]

/-- The word of a round. -/
theorem exists_wordAt
    (h : StringAt mem p l) (hne : l.dropWhile isSpace ≠ []) :
    ∃ w rest, w ++ rest = l.dropWhile isSpace ∧ WordAt mem (wordStart p l) w rest ∧
      words l = w :: words rest := by
  have hword := wordAt_of_stringAt h.wordStart
  have hsplit : (l.dropWhile isSpace).takeWhile inWord ++
      (l.dropWhile isSpace).dropWhile inWord = l.dropWhile isSpace :=
    List.takeWhile_append_dropWhile
  refine ⟨_, _, hsplit, hword, ?_⟩
  rw [← hword.words_eq (takeWhile_inWord_ne_nil h.wordStart hne), hsplit,
    words_dropWhile]

variable {argv : List Nat} {r : Store × List Nat}

theorem returns_skip
    (h : StringAt mem p l) (hfuel : l.length < fuel) :
    Returns (Access.Within p l.length) (scan mem isSpace fuel p) (wordStart p l) :=
  returns_scan rfl h hfuel

theorem returns_load_wordStart :
    Returns (Access.Within p l.length) (load mem (wordStart p l))
      (mem (wordStart p l)) := by
  have hlen := wordStart_add_length p l
  exact returns_load (Nat.le_add_right _ _) (by omega)

/-- A round that finds only spaces is the last one. -/
theorem returns_last
    (h : StringAt mem p l) (hfuel : l.length < fuel) (hnil : l.dropWhile isSpace = []) :
    Returns (Access.Within p l.length) (tokenizeLoop fuel (n + 1) mem argv p)
      (mem, argv) := by
  refine (returns_load (le_refl p) (Nat.le_add_right _ _)).bind ?_
  split_ifs with hend
  · exact Returns.pure _
  · refine (returns_skip h hfuel).bind (returns_load_wordStart.bind ?_)
    rw [if_pos (h.wordStart.eq_zero_iff.mpr hnil)]
    exact Returns.pure _

/-- A round that finds a word stores its address, cuts it off and goes on. -/
theorem returns_round
    (h : StringAt mem p l) (hfuel : l.length < fuel) (hroom : argv.length < maxArgs)
    (hne : l.dropWhile isSpace ≠ [])
    (hcut : Returns (Access.Within p l.length) (cutWord mem fuel (wordStart p l))
      (mem₁, p₁))
    (hnext : Returns (Access.Within p l.length)
      (tokenizeLoop fuel n mem₁ (argv ++ [wordStart p l]) p₁) r) :
    Returns (Access.Within p l.length) (tokenizeLoop fuel (n + 1) mem argv p) r := by
  have hstart : mem p ≠ 0 := by
    rw [Ne, h.eq_zero_iff]
    rintro rfl
    exact hne rfl
  refine (returns_load (le_refl p) (Nat.le_add_right _ _)).bind ?_
  rw [if_neg hstart]
  refine (returns_skip h hfuel).bind (returns_load_wordStart.bind ?_)
  rw [if_neg (mt h.wordStart.eq_zero_iff.mp hne)]
  have hset : Access.Within p l.length (.setArg argv.length) := hroom
  exact (Returns.emit_one hset _).bind (hcut.bind hnext)

/-- **Every round cuts off one word.** -/
theorem returns_tokenizeLoop
    (h : StringAt mem p l) (hfuel : l.length < fuel)
    (hroom : argv.length + n ≤ maxArgs) :
    ∃ mem' starts, Split mem p l n mem' starts ∧
      Returns (Access.Within p l.length) (tokenizeLoop fuel n mem argv p)
        (mem', argv ++ starts) := by
  induction n generalizing mem argv p l with
  | zero =>
      refine ⟨mem, [], Split.nil List.take_zero, ?_⟩
      rw [List.append_nil]
      exact (returns_load (le_refl p) (Nat.le_add_right _ _)).bind (Returns.pure _)
  | succ n ih =>
      by_cases hnil : l.dropWhile isSpace = []
      · refine ⟨mem, [], Split.nil ?_, ?_⟩
        · rw [← words_dropWhile, hnil]
          rfl
        · rw [List.append_nil]
          exact returns_last h hfuel hnil
      · obtain ⟨w, rest, hsplit, hword, hwords⟩ := exists_wordAt h hnil
        have hlen := wordStart_add_length p l
        have hle : p ≤ wordStart p l := Nat.le_add_right _ _
        rw [← hsplit] at hlen
        have hfuelWord : (w ++ rest).length < fuel := by omega
        obtain ⟨mem₁, p₁, rest₁, hcut, hcutReturns⟩ := returns_cutWord hword hfuelWord
        have hstop := hcut.stop
        have hnextLe := hcut.le
        -- the later rounds only touch what follows the word
        have hroom' : (argv ++ [wordStart p l]).length + n ≤ maxArgs := by
          rw [List.length_append, List.length_singleton]
          omega
        obtain ⟨mem', starts, hnext, hloop⟩ := ih hcut.next_string (by omega) hroom'
        refine ⟨mem', wordStart p l :: starts, Split.cons hcut hwords hnext hle hlen, ?_⟩
        rw [List.append_cons]
        refine returns_round h hfuel (by omega) hnil (hcutReturns.mono ?_) (hloop.mono ?_)
        · exact fun x hx => hx.mono hle (by omega)
        · exact fun x hx => hx.mono (by omega) (by omega)

/-- **The tokenizer is exact.**  On a NUL-terminated line of any length it
returns, `argv` holds pointers to the first `MAX_ARGS` words as strings that do
not overlap, and only the line, its NUL and the elements of `argv` are accessed. -/
theorem tokenize_exact
    {line : Nat} (h : StringAt mem line l) (hfuel : l.length < fuel) :
    ∃ mem' argv, (tokenize mem fuel line).result = .ok (mem', argv) ∧
      Tokenized l mem' argv ∧
      (tokenize mem fuel line).All (Access.Within line l.length) ∧
      ∀ x, x < line ∨ line + l.length ≤ x → mem' x = mem x := by
  have hroom : ([] : List Nat).length + maxArgs ≤ maxArgs := by decide
  obtain ⟨mem', argv, hsplit, hreturns⟩ := returns_tokenizeLoop h hfuel hroom
  refine ⟨mem', argv, hreturns.result, ?_, hreturns.all, hsplit.frame⟩
  have htokens := hsplit.tokens
  have hargc := htokens.length_eq
  rw [List.length_take] at hargc
  -- a pointer in `argv` belongs to one of the first words
  have hindex : ∀ (i : Nat) a, argv[i]? = some a → i < maxArgs := by
    intro i a ha
    have hlt := (List.getElem?_eq_some_iff.mp ha).1
    omega
  exact
    { argc := hargc
      string := by
        intro i a ha
        obtain ⟨-, w, hw, hstring⟩ := htokens.string ha
        rw [List.getElem?_take_of_lt (hindex i a ha)] at hw
        exact ⟨w, hw, hstring⟩
      disjoint := by
        intro i j a b w hij ha hb hw
        rw [← List.getElem?_take_of_lt (hindex i a ha)] at hw
        exact htokens.disjoint hij ha hb hw }

/-- The line `ls  a`: two words, with two spaces between them. -/
def sampleLine : Store
  | 100 => 0x6C
  | 101 => 0x73
  | 102 => 0x20
  | 103 => 0x20
  | 104 => 0x61
  | _ => 0

theorem tokenize_exact_sampleLine :
    ∃ mem' argv, (tokenize sampleLine 6 100).result = .ok (mem', argv) ∧
      argv.length = 2 := by
  have hline : StringAt sampleLine 100 [0x6C, 0x73, 0x20, 0x20, 0x61] := by
    simp [StringAt, sampleLine]
  have hfuel : ([0x6C, 0x73, 0x20, 0x20, 0x61] : List UInt8).length < 6 := by decide
  obtain ⟨mem', argv, hresult, htokens, -, -⟩ := tokenize_exact hline hfuel
  exact ⟨mem', argv, hresult, htokens.argc⟩

end Rounds

end Shell
end RebornOS
