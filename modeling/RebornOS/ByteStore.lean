import Mathlib.Tactic

/-!
# A byte-addressed store with little-endian words

This module is independent of the kernel.  A store is a total map from
addresses to bytes.  Multi-byte fields are read and written little-endian, so
that a store can hold C structures at their real offsets.

The rules fall into three groups:

* reading back what was just written (`readLE_writeLE_same`, `readLE_fill_zero`);
* frame rules for accesses that do not touch each other
  (`readLE_writeLE_of_disjoint`, `readLE_fill_of_disjoint`);
* congruence: a read depends only on the bytes it covers (`readLE_congr`).
-/

namespace RebornOS
namespace ByteStore

variable {a b e k n v x : Nat} {src : Nat → UInt8}

/-- A store of bytes. -/
abbrev Store := Nat → UInt8

variable {m : Store}

/-- The `n`-byte little-endian number at address `a`. -/
def readLE (m : Store) (a : Nat) : Nat → Nat
  | 0 => 0
  | n + 1 => (m a).toNat + 256 * readLE m (a + 1) n

/-- Store the low `n` bytes of `v` at address `a`, little-endian. -/
def writeLE (m : Store) (a n v : Nat) : Store :=
  fun x =>
    if a ≤ x ∧ x < a + n then UInt8.ofNat (v / 256 ^ (x - a)) else m x

/-- `memset`: `n` copies of the byte `b` from address `a` on. -/
def fill (m : Store) (a n : Nat) (b : UInt8) : Store :=
  fun x => if a ≤ x ∧ x < a + n then b else m x

/-- `memcpy`: the first `n` bytes of `src` to address `a`. -/
def copyIn (m : Store) (a n : Nat) (src : Nat → UInt8) : Store :=
  fun x => if a ≤ x ∧ x < a + n then src (x - a) else m x

/-- Two stores agree on the addresses `[a, e)`. -/
def AgreeOn (m m' : Store) (a e : Nat) : Prop :=
  ∀ x, a ≤ x → x < e → m' x = m x

theorem AgreeOn.mono
    {m' : Store} {f : Nat} (h : AgreeOn m m' a e) (hab : a ≤ b) (hfe : f ≤ e) :
    AgreeOn m m' b f := by
  intro x hx hxf
  exact h x (by omega) (by omega)

theorem AgreeOn.trans
    {m₁ m₂ m₃ : Store} (h₁ : AgreeOn m₁ m₂ a e) (h₂ : AgreeOn m₂ m₃ a e) :
    AgreeOn m₁ m₃ a e := by
  intro x hx hxe
  rw [h₂ x hx hxe, h₁ x hx hxe]

/-- Every address outside the written field keeps its byte. -/
theorem writeLE_outside
    (h : x < a ∨ a + n ≤ x) : writeLE m a n v x = m x := by
  unfold writeLE
  rw [if_neg (by omega)]

theorem fill_outside
    {b : UInt8} (h : x < a ∨ a + n ≤ x) : fill m a n b x = m x := by
  unfold fill
  rw [if_neg (by omega)]

theorem copyIn_outside
    (h : x < a ∨ a + n ≤ x) : copyIn m a n src x = m x := by
  unfold copyIn
  rw [if_neg (by omega)]

theorem agreeOn_writeLE
    (h : e ≤ a ∨ a + n ≤ b) : AgreeOn m (writeLE m a n v) b e := by
  intro x hx hxe
  exact writeLE_outside (by omega)

theorem agreeOn_fill
    {c : UInt8} (h : e ≤ a ∨ a + n ≤ b) : AgreeOn m (fill m a n c) b e := by
  intro x hx hxe
  exact fill_outside (by omega)

theorem agreeOn_copyIn
    (h : e ≤ a ∨ a + n ≤ b) : AgreeOn m (copyIn m a n src) b e := by
  intro x hx hxe
  exact copyIn_outside (by omega)

/-- A copy depends only on the bytes that are copied. -/
theorem copyIn_congr
    {src' : Nat → UInt8} (h : ∀ i, i < n → src' i = src i) :
    copyIn m a n src' = copyIn m a n src := by
  funext x
  unfold copyIn
  by_cases hx : a ≤ x ∧ x < a + n
  · rw [if_pos hx, if_pos hx, h (x - a) (by omega)]
  · rw [if_neg hx, if_neg hx]

/-- Two copies, the second right behind the first. -/
theorem copyIn_copyIn
    (m : Store) (a n k : Nat) (src : Nat → UInt8) :
    copyIn (copyIn m a n src) (a + n) k (fun i => src (n + i)) =
      copyIn m a (n + k) src := by
  funext x
  unfold copyIn
  by_cases hfirst : a ≤ x ∧ x < a + n
  · rw [if_neg (by omega), if_pos hfirst, if_pos (by omega)]
  · by_cases hsecond : a + n ≤ x ∧ x < a + n + k
    · rw [if_pos hsecond, if_pos (by omega)]
      show src (n + (x - (a + n))) = src (x - a)
      congr 1
      omega
    · rw [if_neg hsecond, if_neg hfirst, if_neg (by omega)]

/-- An `n`-byte field holds a number below `256 ^ n`. -/
theorem readLE_lt
    (m : Store) (a n : Nat) : readLE m a n < 256 ^ n := by
  induction n generalizing a with
  | zero =>
      simp [readLE]
  | succ n ih =>
      have hb := (m a).toNat_lt
      have ht := ih (a + 1)
      rw [readLE, Nat.pow_succ]
      omega

/-- A read depends only on the bytes it covers. -/
theorem readLE_congr
    {m' : Store} (h : AgreeOn m m' a (a + n)) : readLE m' a n = readLE m a n := by
  induction n generalizing a with
  | zero =>
      rfl
  | succ n ih =>
      have hhead : m' a = m a := h a (by omega) (by omega)
      have htail : readLE m' (a + 1) n = readLE m (a + 1) n :=
        ih (h.mono (by omega) (by omega))
      rw [readLE, readLE, hhead, htail]

/-- A read that the written field does not touch. -/
theorem readLE_writeLE_of_disjoint
    (h : b + k ≤ a ∨ a + n ≤ b) : readLE (writeLE m a n v) b k = readLE m b k :=
  readLE_congr (agreeOn_writeLE h)

theorem readLE_fill_of_disjoint
    {c : UInt8} (h : b + k ≤ a ∨ a + n ≤ b) :
    readLE (fill m a n c) b k = readLE m b k :=
  readLE_congr (agreeOn_fill h)

/-- The bytes of `v` read back from any `i` on are the bytes of `v / 256 ^ i`. -/
theorem readLE_writeLE_suffix
    (m : Store) (a v : Nat) :
    ∀ (k i : Nat),
      readLE (writeLE m a (i + k) v) (a + i) k = v / 256 ^ i % 256 ^ k
  | 0, i => by
      simp [readLE, Nat.mod_one]
  | k + 1, i => by
      have ih := readLE_writeLE_suffix m a v k (i + 1)
      have hlen : i + (k + 1) = i + 1 + k := by omega
      have hbyte :
          (writeLE m a (i + 1 + k) v (a + i)).toNat =
            v / 256 ^ i % 256 := by
        unfold writeLE
        rw [if_pos (by omega)]
        simp
      have hsplit :
          v / 256 ^ i % 256 ^ (k + 1) =
            v / 256 ^ i % 256 + 256 * (v / 256 ^ i / 256 % 256 ^ k) := by
        rw [Nat.pow_succ, Nat.mul_comm, Nat.mod_mul]
      have haddr : a + i + 1 = a + (i + 1) := by omega
      rw [readLE, hlen, hbyte, haddr, ih, hsplit,
        Nat.div_div_eq_div_mul, ← Nat.pow_succ]

/-- Reading a field back right after writing it. -/
theorem readLE_writeLE_same
    (m : Store) (a n v : Nat) : readLE (writeLE m a n v) a n = v % 256 ^ n := by
  have h := readLE_writeLE_suffix m a v n 0
  simpa using h

/-- A field whose value fits is read back exactly. -/
theorem readLE_writeLE_of_lt
    (h : v < 256 ^ n) : readLE (writeLE m a n v) a n = v := by
  rw [readLE_writeLE_same, Nat.mod_eq_of_lt h]

/-- A field inside a zero-filled range reads as zero. -/
theorem readLE_fill_zero
    (hab : a ≤ b) (hbe : b + k ≤ a + n) : readLE (fill m a n 0) b k = 0 := by
  induction k generalizing b with
  | zero =>
      rfl
  | succ k ih =>
      have hbyte : fill m a n 0 b = 0 := by
        unfold fill
        rw [if_pos (by omega)]
      rw [readLE, hbyte, ih (by omega) (by omega)]
      rfl

end ByteStore
end RebornOS
