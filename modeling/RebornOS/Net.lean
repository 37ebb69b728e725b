import RebornOS.ByteStore
import RebornOS.OnesComplement
import RebornOS.Traced

/-!
# The Internet checksum

`checksum16` adds the big-endian 16-bit words of a buffer in a 32-bit variable,
folds the carries into the low half and flips the bits.  The trace of a call has
the exact value of every addition, before it is cut to 32 bits.

`returns_checksum16` relates the function to ones' complement arithmetic.  A buffer
that carries its own checksum in a field of it is verified by the same function,
which then returns zero; `net_ping` builds two such buffers.
-/

namespace RebornOS
namespace Net

open ByteStore OnesComplement

variable {mem : Store} {a len off v : Nat}

section Model

/-- `htons16`. -/
def htons16 (v : Nat) : Nat :=
  ((v <<< 8) ||| (v >>> 8)) % 2 ^ 16

/-- `sum += v` in 32 bits. -/
def accumulate (sum v : Nat) : Traced Empty Nat Nat :=
  .emit [sum + v] ((sum + v) % 2 ^ 32)

variable (mem : Store)

/-- The loop over the words and the odd last byte. -/
def addWords : Nat → Nat → Nat → Traced Empty Nat Nat
  | 0, _, sum => pure sum
  | 1, p, sum => accumulate sum (((mem p).toNat <<< 8) % 2 ^ 16)
  | len + 2, p, sum => do
      let sum ← accumulate sum
        ((((mem p).toNat <<< 8) ||| (mem (p + 1)).toNat) % 2 ^ 16)
      addWords len (p + 2) sum

/-- One round of the second loop. -/
def foldOnce (sum : Nat) : Nat := (sum &&& 0xFFFF) + (sum >>> 16)

theorem foldOnce_eq
    (sum : Nat) : foldOnce sum = carry (2 ^ 16) sum := by
  rw [foldOnce, carry, Nat.shiftRight_eq_div_pow]
  congr 1
  exact Nat.and_two_pow_sub_one_eq_mod sum 16

theorem foldOnce_lt
    {sum : Nat} (h : sum >>> 16 ≠ 0) : foldOnce sum < sum := by
  rw [foldOnce_eq]
  refine carry_lt (by decide) ?_
  rw [Nat.shiftRight_eq_div_pow] at h
  exact (Nat.div_ne_zero_iff.mp h).2

/-- `while (sum >> 16) sum = (sum & 0xFFFF) + (sum >> 16)`. -/
def foldCarries (sum : Nat) : Traced Empty Nat Nat :=
  if sum >>> 16 ≠ 0 then do
    .emit [foldOnce sum] ()
    foldCarries (foldOnce sum % 2 ^ 32)
  else
    pure sum
termination_by sum
decreasing_by
  exact lt_of_le_of_lt (Nat.mod_le _ _) (foldOnce_lt ‹_›)

/-- `checksum16`. -/
def checksum16 (data len : Nat) : Traced Empty Nat Nat := do
  let sum ← addWords mem len data 0
  let sum ← foldCarries sum
  pure ((2 ^ 32 - 1 - sum) % 2 ^ 16)

end Model

section Words

/-- The big-endian words from `p` on; a zero follows an odd last byte. -/
def bigEndianWords (mem : Store) : Nat → Nat → List Nat
  | 0, _ => []
  | 1, p => [256 * (mem p).toNat]
  | len + 2, p =>
      (256 * (mem p).toNat + (mem (p + 1)).toNat) :: bigEndianWords mem len (p + 2)

variable {mem' : Store} {p : Nat}

theorem bigEndianWords_lt
    (mem : Store) (len p : Nat) : ∀ w ∈ bigEndianWords mem len p, w < 2 ^ 16 := by
  fun_induction bigEndianWords mem len p with
  | case1 p =>
      simp
  | case2 p =>
      have hp := (mem p).toNat_lt
      simp only [List.mem_singleton, forall_eq]
      omega
  | case3 len p ih =>
      have hp := (mem p).toNat_lt
      have hp' := (mem (p + 1)).toNat_lt
      intro w hw
      rcases List.mem_cons.mp hw with rfl | hw
      · omega
      · exact ih w hw

theorem bigEndianWords_length
    (mem : Store) (len p : Nat) : 2 * (bigEndianWords mem len p).length ≤ len + 1 := by
  fun_induction bigEndianWords mem len p with
  | case1 p =>
      simp
  | case2 p =>
      simp
  | case3 len p ih =>
      rw [List.length_cons]
      omega

/-- The sum of the words of a buffer of less than 64 KiB. -/
theorem bigEndianWords_sum_lt
    (mem : Store) (p : Nat) (hlen : len ≤ 65535) :
    (bigEndianWords mem len p).sum < 2 ^ 32 := by
  have hcount := bigEndianWords_length mem len p
  have hsum := List.sum_le_card_nsmul (bigEndianWords mem len p) (2 ^ 16)
    (fun w hw => (bigEndianWords_lt mem len p w hw).le)
  rw [smul_eq_mul] at hsum
  omega

/-- The words depend on the bytes of the buffer. -/
theorem bigEndianWords_congr
    (h : AgreeOn mem mem' p (p + len)) :
    bigEndianWords mem' len p = bigEndianWords mem len p := by
  fun_induction bigEndianWords mem len p with
  | case1 p =>
      rfl
  | case2 p =>
      rw [bigEndianWords, h p (le_refl p) (by omega)]
  | case3 len p ih =>
      rw [bigEndianWords, h p (le_refl p) (by omega), h (p + 1) (by omega) (by omega),
        ih (h.mono (by omega) (by omega))]

/-- A word stored in a field that was zero adds to the sum. -/
theorem bigEndianWords_sum_write
    (heven : off % 2 = 0) (hoff : off + 2 ≤ len) (hhigh : mem (p + off) = 0)
    (hlow : mem (p + off + 1) = 0)
    (hsame : ∀ x, x ≠ p + off → x ≠ p + off + 1 → mem' x = mem x) :
    (bigEndianWords mem' len p).sum =
      (bigEndianWords mem len p).sum +
        (256 * (mem' (p + off)).toNat + (mem' (p + off + 1)).toNat) := by
  fun_induction bigEndianWords mem len p generalizing off with
  | case1 p =>
      omega
  | case2 p =>
      omega
  | case3 len p ih =>
      rw [bigEndianWords, List.sum_cons, List.sum_cons]
      rcases Nat.eq_zero_or_pos off with rfl | hpos
      · have hrest : bigEndianWords mem' len (p + 2) = bigEndianWords mem len (p + 2) :=
          bigEndianWords_congr (fun x hx _ => hsame x (by omega) (by omega))
        simp only [Nat.add_zero] at hhigh hlow ⊢
        rw [hrest, hhigh, hlow]
        simp only [UInt8.toNat_zero]
        omega
      · -- the field lies behind the first word
        obtain ⟨off, rfl⟩ : ∃ k, off = k + 2 := ⟨off - 2, by omega⟩
        have hshift : p + (off + 2) = p + 2 + off := by omega
        rw [hshift] at hhigh hlow hsame ⊢
        rw [hsame p (by omega) (by omega), hsame (p + 1) (by omega) (by omega),
          ih (by omega) (by omega) hhigh hlow hsame]
        omega

end Words

section Sums

open Traced

variable {p sum : Nat}

/-- A 32-bit value. -/
def Fits (s : Nat) : Prop := s < 2 ^ 32

theorem returns_accumulate
    (h : Fits (sum + v)) : Returns Fits (accumulate sum v) (sum + v) := by
  have hmod : (sum + v) % 2 ^ 32 = sum + v := Nat.mod_eq_of_lt h
  rw [accumulate, hmod]
  exact Returns.emit_one h _

/-- The two bytes of a word. -/
theorem word_eq
    (hi lo : UInt8) :
    ((hi.toNat <<< 8) ||| lo.toNat) % 2 ^ 16 = 256 * hi.toNat + lo.toNat := by
  have hhi := hi.toNat_lt
  have hlo := lo.toNat_lt
  rw [← Nat.shiftLeft_add_eq_or_of_lt hlo, Nat.shiftLeft_eq]
  omega

/-- The first part of `checksum16` adds up the words. -/
theorem returns_addWords
    (h : sum + (bigEndianWords mem len p).sum < 2 ^ 32) :
    Returns Fits (addWords mem len p sum) (sum + (bigEndianWords mem len p).sum) := by
  fun_induction bigEndianWords mem len p generalizing sum with
  | case1 p =>
      exact Returns.pure sum
  | case2 p =>
      have hp := (mem p).toNat_lt
      have hword : ((mem p).toNat <<< 8) % 2 ^ 16 = 256 * (mem p).toNat := by
        rw [Nat.shiftLeft_eq]
        omega
      rw [List.sum_singleton] at h ⊢
      rw [addWords, hword]
      exact returns_accumulate h
  | case3 len p ih =>
      rw [List.sum_cons, ← Nat.add_assoc] at h ⊢
      rw [addWords, word_eq]
      have hfirst : Fits (sum + (256 * (mem p).toNat + (mem (p + 1)).toNat)) :=
        lt_of_le_of_lt (Nat.le_add_right _ _) h
      exact (returns_accumulate hfirst).bind (ih h)

/-- The second part folds the carries. -/
theorem returns_foldCarries
    (h : sum < 2 ^ 32) : Returns Fits (foldCarries sum) (rep (2 ^ 16) sum) := by
  induction sum using Nat.strong_induction_on with
  | h sum ih =>
      rw [foldCarries]
      split_ifs with hcarry
      · have hlt := foldOnce_lt hcarry
        have hfits : Fits (foldOnce sum) := lt_trans hlt h
        rw [Nat.mod_eq_of_lt hfits, ← rep_carry (by decide), ← foldOnce_eq]
        exact (Returns.emit_one hfits ()).bind (ih _ hlt hfits)
      · have hlow : sum < 2 ^ 16 := by
          rw [not_not, Nat.shiftRight_eq_div_pow] at hcarry
          exact (Nat.div_eq_zero_iff_lt (by decide)).mp hcarry
        rw [rep_of_lt hlow]
        exact Returns.pure sum

/-- `checksum16` is the complement of the ones' complement sum of the words. -/
theorem returns_checksum16
    (hlen : len ≤ 65535) :
    Returns Fits (checksum16 mem p len)
      (complement (2 ^ 16) (OnesComplement.sum (2 ^ 16) (bigEndianWords mem len p))) := by
  have hsum := bigEndianWords_sum_lt mem p hlen
  have hadd : Returns Fits (addWords mem len p 0) (bigEndianWords mem len p).sum := by
    have hfits : 0 + (bigEndianWords mem len p).sum < 2 ^ 32 := by omega
    simpa using returns_addWords hfits
  have hrep : rep (2 ^ 16) (bigEndianWords mem len p).sum < 2 ^ 16 :=
    rep_lt (by decide)
  have hflip : (2 ^ 32 - 1 - rep (2 ^ 16) (bigEndianWords mem len p).sum) % 2 ^ 16 =
      complement (2 ^ 16) (rep (2 ^ 16) (bigEndianWords mem len p).sum) := by
    unfold complement
    omega
  rw [sum_eq_rep (by decide) (bigEndianWords_lt mem len p), ← hflip]
  exact hadd.bind ((returns_foldCarries hsum).bind (Returns.pure _))

/-- The checksum depends on the bytes of the buffer. -/
theorem returns_checksum16_congr
    {mem' : Store} {c : Nat} (h : Returns Fits (checksum16 mem p len) c)
    (hlen : len ≤ 65535) (hsame : AgreeOn mem mem' p (p + len)) :
    Returns Fits (checksum16 mem' p len) c := by
  have hc := Except.ok.inj ((returns_checksum16 hlen).result.symm.trans h.result)
  have hreturns : Returns Fits (checksum16 mem' p len) _ := returns_checksum16 hlen
  rwa [bigEndianWords_congr hsame, hc] at hreturns

end Sums

section Fields

open Traced

variable {buf : Nat}

theorem htons16_eq
    (h : v < 2 ^ 16) : htons16 v = v / 256 + 256 * (v % 256) := by
  have hhigh : v >>> 8 < 2 ^ 8 := by
    rw [Nat.shiftRight_eq_div_pow]
    omega
  rw [htons16, ← Nat.shiftLeft_add_eq_or_of_lt hhigh, Nat.shiftLeft_eq,
    Nat.shiftRight_eq_div_pow]
  omega

/-- A word that is stored after `htons16` stands in memory high byte first. -/
theorem writeLE_htons16
    (h : v < 2 ^ 16) :
    256 * (writeLE mem a 2 (htons16 v) a).toNat +
      (writeLE mem a 2 (htons16 v) (a + 1)).toNat = v := by
  have hread := readLE_writeLE_of_lt (m := mem) (a := a) (n := 2) (v := htons16 v)
    (by rw [htons16_eq h]; omega)
  have hfirst := (writeLE mem a 2 (htons16 v) a).toNat_lt
  have hsecond := (writeLE mem a 2 (htons16 v) (a + 1)).toNat_lt
  rw [htons16_eq h] at hread hfirst hsecond ⊢
  simp only [readLE] at hread
  omega

theorem bytes_eq_zero
    (h : readLE mem a 2 = 0) : mem a = 0 ∧ mem (a + 1) = 0 := by
  simp only [readLE] at h
  constructor
  · exact UInt8.toNat_inj.mp (by simp; omega)
  · exact UInt8.toNat_inj.mp (by simp; omega)

/-- A buffer with its own checksum in it has the checksum zero. -/
theorem returns_checksum16_stored
    {c : Nat} (hlen : len ≤ 65535) (heven : off % 2 = 0) (hoff : off + 2 ≤ len)
    (hzero : readLE mem (buf + off) 2 = 0)
    (hc : (checksum16 mem buf len).result = .ok c) :
    Returns Fits (checksum16 (writeLE mem (buf + off) 2 (htons16 c)) buf len) 0 := by
  have hreturns : Returns Fits (checksum16 mem buf len) _ := returns_checksum16 hlen
  have hvalue := Except.ok.inj (hc.symm.trans hreturns.result)
  rw [sum_eq_rep (by decide) (bigEndianWords_lt mem len buf)] at hvalue
  have hc16 : c < 2 ^ 16 := by
    rw [hvalue, complement]
    omega
  -- storing the checksum adds it to the sum of the words
  obtain ⟨hhigh, hlow⟩ := bytes_eq_zero hzero
  have hsame : ∀ x, x ≠ buf + off → x ≠ buf + off + 1 →
      writeLE mem (buf + off) 2 (htons16 c) x = mem x := by
    intro x hx hx'
    exact writeLE_outside (by omega)
  have hsum := bigEndianWords_sum_write heven hoff hhigh hlow hsame
  rw [writeLE_htons16 hc16] at hsum
  have hbalance : complement (2 ^ 16)
      (rep (2 ^ 16) ((bigEndianWords mem len buf).sum + c)) = 0 := by
    rw [hvalue, rep_add_complement (by decide), complement, Nat.sub_self]
  have hstored : Returns Fits
      (checksum16 (writeLE mem (buf + off) 2 (htons16 c)) buf len) _ :=
    returns_checksum16 hlen
  rwa [sum_eq_rep (by decide) (bigEndianWords_lt _ len buf), hsum, hbalance] at hstored

/-- **The checksum verifies itself.**  For a buffer of less than 64 KiB,
`checksum16` is the complement of the ones' complement sum of its big-endian words
and no addition leaves 32 bits; and once it is stored in a field that was zero, the
checksum of the buffer is zero. -/
theorem checksum16_selfVerifying
    (mem : Store) (buf : Nat) (hlen : len ≤ 65535) :
    Returns Fits (checksum16 mem buf len)
        (complement (2 ^ 16) (sum (2 ^ 16) (bigEndianWords mem len buf))) ∧
      ∀ off c, off % 2 = 0 → off + 2 ≤ len → readLE mem (buf + off) 2 = 0 →
        (checksum16 mem buf len).result = .ok c →
        Returns Fits (checksum16 (writeLE mem (buf + off) 2 (htons16 c)) buf len) 0 := by
  refine ⟨returns_checksum16 hlen, ?_⟩
  intro off c heven hoff hzero hc
  exact returns_checksum16_stored hlen heven hoff hzero hc

/-- Five bytes with a zero field at offset 2: the odd byte counts as a high byte. -/
theorem checksum16_selfVerifying_five :
    ∃ c, (checksum16 (fun a => if a = 4 then 0xAB else 0) 0 5).result = .ok c ∧
      Returns Fits
        (checksum16 (writeLE (fun a => if a = 4 then 0xAB else 0) 2 2 (htons16 c)) 0 5) 0 := by
  obtain ⟨hexact, hstored⟩ :=
    checksum16_selfVerifying (fun a => if a = 4 then 0xAB else 0) 0 (by decide : 5 ≤ 65535)
  exact ⟨_, hexact.result, hstored 2 _ rfl (by decide) (by decide) hexact.result⟩

end Fields

section Ping

open Traced

/-- `NET_OUR_IP`. -/
def netOurIp (i : Nat) : UInt8 := [10, 0, 2, 15].getD i 0

/-- The fields of the Ethernet header. -/
def fillEthHeader (mem : Store) (eth : Nat) (ourMac mac : Nat → UInt8) : Store :=
  let mem := copyIn mem eth 6 mac
  let mem := copyIn mem (eth + 6) 6 ourMac
  writeLE mem (eth + 12) 2 (htons16 0x0800)

/-- The fields of the IPv4 header, with a zero checksum. -/
def fillIpHeader (mem : Store) (ip4 : Nat) (ip : Nat → UInt8) : Store :=
  let mem := writeLE mem ip4 1 0x45
  let mem := writeLE mem (ip4 + 1) 1 0
  let mem := writeLE mem (ip4 + 2) 2 (htons16 (20 + 8 + 32))
  let mem := writeLE mem (ip4 + 4) 2 (htons16 1)
  let mem := writeLE mem (ip4 + 6) 2 0
  let mem := writeLE mem (ip4 + 8) 1 64
  let mem := writeLE mem (ip4 + 9) 1 1
  let mem := writeLE mem (ip4 + 10) 2 0
  let mem := copyIn mem (ip4 + 12) 4 netOurIp
  copyIn mem (ip4 + 16) 4 ip

/-- The fields of the echo request and its payload, with a zero checksum. -/
def fillEcho (mem : Store) (icmp identifier sequence : Nat) : Store :=
  let mem := writeLE mem icmp 1 8
  let mem := writeLE mem (icmp + 1) 1 0
  let mem := writeLE mem (icmp + 2) 2 0
  let mem := writeLE mem (icmp + 4) 2 (htons16 identifier)
  let mem := writeLE mem (icmp + 6) 2 (htons16 sequence)
  copyIn mem (icmp + 8) 32 (fun i => UInt8.ofNat (0x41 + i % 26))

/-- `field = htons16(checksum16(buf, len))`, for the field at offset `off`. -/
def storeChecksum (mem : Store) (buf len off : Nat) : Store :=
  writeLE mem (buf + off) 2 (htons16 (checksum16 mem buf len).value)

/-- The packet that `net_ping` sends. -/
def pingPacket (mem : Store) (packet : Nat) (ourMac mac ip : Nat → UInt8)
    (identifier sequence : Nat) : Store :=
  let mem := fillEthHeader mem packet ourMac mac
  let mem := fillIpHeader mem (packet + 14) ip
  let mem := storeChecksum mem (packet + 14) 20 10
  let mem := fillEcho mem (packet + 34) identifier sequence
  storeChecksum mem (packet + 34) 40 2

variable {buf : Nat}

theorem returns_storeChecksum
    (hlen : len ≤ 65535) (heven : off % 2 = 0) (hoff : off + 2 ≤ len)
    (hzero : readLE mem (buf + off) 2 = 0) :
    Returns Fits (checksum16 (storeChecksum mem buf len off) buf len) 0 := by
  have hreturns : Returns Fits (checksum16 mem buf len) _ := returns_checksum16 hlen
  refine returns_checksum16_stored hlen heven hoff hzero ?_
  rw [hreturns.value_eq]
  exact hreturns.result

theorem readLE_fillIpHeader
    (mem : Store) (ip4 : Nat) (ip : Nat → UInt8) :
    readLE (fillIpHeader mem ip4 ip) (ip4 + 10) 2 = 0 := by
  dsimp only [fillIpHeader]
  rw [readLE_congr (agreeOn_copyIn (by omega)), readLE_congr (agreeOn_copyIn (by omega)),
    readLE_writeLE_same, Nat.zero_mod]

theorem readLE_fillEcho
    (mem : Store) (icmp identifier sequence : Nat) :
    readLE (fillEcho mem icmp identifier sequence) (icmp + 2) 2 = 0 := by
  dsimp only [fillEcho]
  rw [readLE_congr (agreeOn_copyIn (by omega)), readLE_writeLE_of_disjoint (by omega),
    readLE_writeLE_of_disjoint (by omega), readLE_writeLE_same, Nat.zero_mod]

/-- The echo request is written behind the IPv4 header. -/
theorem agreeOn_fillEcho
    {icmp identifier sequence : Nat} :
    AgreeOn mem (fillEcho mem icmp identifier sequence) a icmp := by
  intro x _ hx
  dsimp only [fillEcho]
  rw [copyIn_outside (by omega), writeLE_outside (by omega), writeLE_outside (by omega),
    writeLE_outside (by omega), writeLE_outside (by omega), writeLE_outside (by omega)]

/-- **Both checksums of a ping packet verify.** -/
theorem pingPacket_verifies
    (mem : Store) (packet : Nat) (ourMac mac ip : Nat → UInt8)
    (identifier sequence : Nat) :
    Returns Fits
        (checksum16 (pingPacket mem packet ourMac mac ip identifier sequence)
          (packet + 14) 20) 0 ∧
      Returns Fits
        (checksum16 (pingPacket mem packet ourMac mac ip identifier sequence)
          (packet + 34) 40) 0 := by
  constructor
  · refine returns_checksum16_congr ?_ (by decide)
      (agreeOn_fillEcho.trans (agreeOn_writeLE (by omega)))
    exact returns_storeChecksum (by decide) (by decide) (by decide)
      (readLE_fillIpHeader _ _ _)
  · exact returns_storeChecksum (by decide) (by decide) (by decide) (readLE_fillEcho _ _ _ _)

end Ping

end Net
end RebornOS
