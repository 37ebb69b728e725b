import RebornOS.ByteStore

/-!
# Registers pushed on a stack in memory

This module is independent of the kernel.  A machine has 64-bit registers, one of
them the stack pointer, and a memory of bytes.  `pushAll` and `popAll` push and
pop lists of registers; their rules say what lies in memory afterwards and which
registers change, so that code that saves and restores registers can be followed
without looking at single words.
-/

namespace RebornOS
namespace StackMachine

open ByteStore Function

variable {ws : List (BitVec 64)}

section Words

variable {m m' : Store} {a : Nat}

/-- The 64-bit words from address `a` on. -/
def WordsAt (m : Store) (a : Nat) : List (BitVec 64) → Prop
  | [] => True
  | w :: ws => readLE m a 8 = w.toNat ∧ WordsAt m (a + 8) ws

theorem WordsAt.congr
    (h : WordsAt m a ws) (hsame : ∀ b, a ≤ b → b < a + 8 * ws.length → m' b = m b) :
    WordsAt m' a ws := by
  induction ws generalizing a with
  | nil =>
      trivial
  | cons w ws ih =>
      rw [List.length_cons] at hsame
      refine ⟨?_, ih h.2 (fun b hb hlt => hsame b (by omega) (by omega))⟩
      rw [← h.1]
      exact readLE_congr (fun b hb hlt => hsame b hb (by omega))

theorem wordsAt_append
    {us : List (BitVec 64)} :
    WordsAt m a (ws ++ us) ↔ WordsAt m a ws ∧ WordsAt m (a + 8 * ws.length) us := by
  induction ws generalizing a with
  | nil =>
      simp [WordsAt]
  | cons w ws ih =>
      have hshift : a + 8 * (w :: ws).length = a + 8 + 8 * ws.length := by
        rw [List.length_cons]
        omega
      rw [List.cons_append, WordsAt, WordsAt, ih, hshift, and_assoc]

/-- One of the words. -/
theorem WordsAt.get
    (h : WordsAt m a ws) {k : Nat} {w : BitVec 64} (hk : ws[k]? = some w) :
    readLE m (a + 8 * k) 8 = w.toNat := by
  induction ws generalizing a k with
  | nil =>
      simp at hk
  | cons u us ih =>
      cases k with
      | zero =>
          cases hk
          exact h.1
      | succ k =>
          have hrest := ih h.2 (k := k) (by simpa using hk)
          rw [show a + 8 * (k + 1) = a + 8 + 8 * k by omega]
          exact hrest

/-- A word below the others. -/
theorem WordsAt.cons
    {w : BitVec 64} (h : WordsAt m (a + 8) ws) :
    WordsAt (writeLE m a 8 w.toNat) a (w :: ws) := by
  refine ⟨readLE_writeLE_of_lt ?_, h.congr (fun b hb _ => ?_)⟩
  · exact lt_of_lt_of_eq w.isLt (by norm_num)
  · exact writeLE_outside (by omega)

end Words

variable {ρ : Type}

/-- What a core's code works on. -/
structure View (ρ : Type) where
  regs : ρ → BitVec 64
  mem : Store

variable [DecidableEq ρ] (sp : ρ)

def push (x : View ρ) (r : ρ) : View ρ where
  regs := update x.regs sp (x.regs sp - 8)
  mem := writeLE x.mem (x.regs sp - 8).toNat 8 (x.regs r).toNat

def pop (x : View ρ) (r : ρ) : View ρ where
  regs := update
    (update x.regs r (BitVec.ofNat 64 (readLE x.mem (x.regs sp).toNat 8)))
    sp (x.regs sp + 8)
  mem := x.mem

/-- Push a value. -/
def pushWord (x : View ρ) (w : BitVec 64) : View ρ where
  regs := update x.regs sp (x.regs sp - 8)
  mem := writeLE x.mem (x.regs sp - 8).toNat 8 w.toNat

/-- Push the values, the first one first. -/
def pushWords (ws : List (BitVec 64)) (x : View ρ) : View ρ := ws.foldl (pushWord sp) x

/-- Push the registers, the first one first. -/
def pushAll (rs : List ρ) (x : View ρ) : View ρ := rs.foldl (push sp) x

/-- Pop the registers, the first one first. -/
def popAll (rs : List ρ) (x : View ρ) : View ρ := rs.foldl (pop sp) x

section Rules

variable {sp} {x y : View ρ} {r : ρ} {rs : List ρ}

theorem push_pointer
    (h : 8 ≤ (x.regs sp).toNat) :
    ((push sp x r).regs sp).toNat = (x.regs sp).toNat - 8 := by
  have hval : (push sp x r).regs sp = x.regs sp - 8 := update_self ..
  rw [hval]
  bv_omega

theorem pop_pointer
    (h : (x.regs sp).toNat + 8 < 2 ^ 64) :
    ((pop sp x r).regs sp).toNat = (x.regs sp).toNat + 8 := by
  have hval : (pop sp x r).regs sp = x.regs sp + 8 := update_self ..
  rw [hval]
  bv_omega

/-- What `pushAll` does on top of the words `ws`. -/
structure Pushed (sp : ρ) (rs : List ρ) (ws : List (BitVec 64)) (x y : View ρ) :
    Prop where
  pointer : (y.regs sp).toNat = (x.regs sp).toNat - 8 * rs.length
  regs : ∀ r, r ≠ sp → y.regs r = x.regs r
  words : WordsAt y.mem (y.regs sp).toNat ((rs.map x.regs).reverse ++ ws)
  outside : ∀ a, a < (x.regs sp).toNat - 8 * rs.length ∨ (x.regs sp).toNat ≤ a →
    y.mem a = x.mem a

theorem pushAll_spec
    (sp : ρ) (rs : List ρ) :
    ∀ x ws, sp ∉ rs → 8 * rs.length ≤ (x.regs sp).toNat →
      WordsAt x.mem (x.regs sp).toNat ws → Pushed sp rs ws x (pushAll sp rs x) := by
  induction rs with
  | nil =>
      intro x ws _ _ hws
      exact ⟨rfl, fun _ _ => rfl, hws, fun _ _ => rfl⟩
  | cons r rs ih =>
      intro x ws hsp hroom hws
      rw [List.mem_cons, not_or] at hsp
      rw [List.length_cons] at hroom
      have hpointer : ((push sp x r).regs sp).toNat = (x.regs sp).toNat - 8 :=
        push_pointer (by omega)
      have hword : WordsAt (push sp x r).mem ((push sp x r).regs sp).toNat
          (x.regs r :: ws) := by
        rw [hpointer]
        show WordsAt (writeLE x.mem (x.regs sp - 8).toNat 8 _) _ _
        rw [show (x.regs sp - 8).toNat = (x.regs sp).toNat - 8 by bv_omega]
        refine WordsAt.cons ?_
        rwa [show (x.regs sp).toNat - 8 + 8 = (x.regs sp).toNat by omega]
      have hrest := ih (push sp x r) (x.regs r :: ws) hsp.2 (by omega) hword
      have hregs : ∀ q, q ≠ sp → (push sp x r).regs q = x.regs q := fun q hq =>
        update_of_ne hq _ _
      refine ⟨?_, fun q hq => ?_, ?_, fun a ha => ?_⟩
      · show ((pushAll sp rs (push sp x r)).regs sp).toNat = _
        rw [hrest.pointer, hpointer, List.length_cons]
        omega
      · exact (hrest.regs q hq).trans (hregs q hq)
      · have hmap : rs.map (push sp x r).regs = rs.map x.regs :=
          List.map_congr_left (fun q hq => hregs q (fun heq => hsp.2 (heq ▸ hq)))
        have hwords := hrest.words
        rw [hmap] at hwords
        rw [List.map_cons, List.reverse_cons, List.append_assoc]
        exact hwords
      · rw [List.length_cons] at ha
        have hone : (push sp x r).mem a = x.mem a := by
          show writeLE x.mem (x.regs sp - 8).toNat 8 _ a = _
          rw [show (x.regs sp - 8).toNat = (x.regs sp).toNat - 8 by bv_omega]
          exact writeLE_outside (by omega)
        exact (hrest.outside a (by omega)).trans hone

/--
The words lie at the stack pointer, right below `top`, and outside of them the memory
is `m`.
-/
structure Stacked (sp : ρ) (top : Nat) (ws : List (BitVec 64)) (m : Store) (y : View ρ) :
    Prop where
  pointer : (y.regs sp).toNat + 8 * ws.length = top
  words : WordsAt y.mem (y.regs sp).toNat ws
  outside : ∀ a, a + 8 * ws.length < top ∨ top ≤ a → y.mem a = m a

theorem Stacked.pushWords
    {top : Nat} {m : Store} (us : List (BitVec 64)) :
    ∀ {ws y}, Stacked sp top ws m y → 8 * (us.length + ws.length) ≤ top →
      Stacked sp top (us.reverse ++ ws) m (pushWords sp us y) ∧
        ∀ r, r ≠ sp → (StackMachine.pushWords sp us y).regs r = y.regs r := by
  induction us with
  | nil =>
      exact fun h _ => ⟨h, fun _ _ => rfl⟩
  | cons w us ih =>
      intro ws y h hroom
      rw [List.length_cons] at hroom
      have hpointer := h.pointer
      have haddr : (y.regs sp - 8).toNat = (y.regs sp).toNat - 8 := by bv_omega
      have hval : (pushWord sp y w).regs sp = y.regs sp - 8 := update_self ..
      have hmem : (pushWord sp y w).mem = writeLE y.mem ((y.regs sp).toNat - 8) 8 w.toNat := by
        rw [← haddr]
        rfl
      have hone : Stacked sp top (w :: ws) m (pushWord sp y w) := by
        refine ⟨?_, ?_, fun a ha => ?_⟩
        · rw [hval, haddr, List.length_cons]
          omega
        · rw [hval, haddr, hmem]
          refine WordsAt.cons ?_
          rw [Nat.sub_add_cancel (by omega)]
          exact h.words
        · rw [List.length_cons] at ha
          rw [hmem, writeLE_outside (by omega), h.outside a (by omega)]
      obtain ⟨hstacked, hregs⟩ := ih hone (by rw [List.length_cons]; omega)
      rw [List.reverse_cons, List.append_assoc]
      exact ⟨hstacked, fun r hr => (hregs r hr).trans (update_of_ne hr _ _)⟩

/-- What `popAll` does when the words are the values of `f`. -/
structure Popped (sp : ρ) (rs : List ρ) (f : ρ → BitVec 64) (x y : View ρ) :
    Prop where
  mem : y.mem = x.mem
  pointer : (y.regs sp).toNat = (x.regs sp).toNat + 8 * rs.length
  restored : ∀ r, r ∈ rs → y.regs r = f r
  regs : ∀ r, r ∉ rs → r ≠ sp → y.regs r = x.regs r

theorem popAll_spec
    (sp : ρ) (rs : List ρ) :
    ∀ (x : View ρ) (f : ρ → BitVec 64), sp ∉ rs → rs.Nodup →
      WordsAt x.mem (x.regs sp).toNat (rs.map f) →
      (x.regs sp).toNat + 8 * rs.length < 2 ^ 64 →
      Popped sp rs f x (popAll sp rs x) := by
  induction rs with
  | nil =>
      intro x f _ _ _ _
      exact ⟨rfl, rfl, nofun, fun _ _ _ => rfl⟩
  | cons r rs ih =>
      intro x f hsp hnodup hwords hroom
      rw [List.mem_cons, not_or] at hsp
      rw [List.nodup_cons] at hnodup
      rw [List.length_cons] at hroom
      have hpointer : ((pop sp x r).regs sp).toNat = (x.regs sp).toNat + 8 :=
        pop_pointer (by omega)
      have hvalue : (pop sp x r).regs r = f r := by
        show update _ sp _ r = _
        rw [update_of_ne (Ne.symm hsp.1), update_self, hwords.1]
        simp
      have hrest := ih (pop sp x r) f hsp.2 hnodup.2 (by rw [hpointer]; exact hwords.2)
        (by omega)
      refine ⟨hrest.mem, ?_, fun q hq => ?_, fun q hq hqsp => ?_⟩
      · show ((popAll sp rs (pop sp x r)).regs sp).toNat = _
        rw [hrest.pointer, hpointer, List.length_cons]
        omega
      · by_cases hqr : q = r
        · subst hqr
          exact (hrest.regs q hnodup.1 (Ne.symm hsp.1)).trans hvalue
        · exact hrest.restored q ((List.mem_cons.mp hq).resolve_left hqr)
      · rw [List.mem_cons, not_or] at hq
        refine (hrest.regs q hq.2 hqsp).trans ?_
        show update (update x.regs r _) sp _ q = _
        rw [update_of_ne hqsp, update_of_ne hq.1]

end Rules

end StackMachine
end RebornOS
