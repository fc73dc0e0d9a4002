import Mathlib

/-!
# Bits of an octet string

The bits of an octet string, counted from the first bit of the first octet (`bitAt`), are
the bits of the big-endian number that the octets are, counted from the most significant
one (`getMsbD_value`). Masking a number keeps its leading bits, so two numbers are equal
under a mask when their leading bits are (`and_prefixMask_inj`).
-/

namespace Bits

/-- The big-endian number of some octets. -/
def value (octets : List UInt8) : ℕ := octets.foldl (fun n b => n * 256 + b.toNat) 0

/-- The bit at an index; behind the last octet there are zeros. -/
def bitAt (octets : List UInt8) (i : ℕ) : Bool :=
  (octets.getD (i / 8) 0).toNat.testBit (7 - i % 8)

/-- The number with the given number of leading ones. -/
def prefixMask (w len : ℕ) : BitVec w := if len = 0 then 0 else BitVec.allOnes w <<< (w - len)

/-- One more octet shifts the number by eight bits. -/
theorem value_concat (octets : List UInt8) (b : UInt8) :
    value (octets ++ [b]) = 2 ^ 8 * value octets + b.toNat := by
  rw [value, List.foldl_append, List.foldl_cons, List.foldl_nil, ← value]
  ring

/-! ### Parts of an octet string -/

/-- Zeros at the end do not change the bits. -/
@[simp] theorem bitAt_append_zeros (octets : List UInt8) (m i : ℕ) :
    bitAt (octets ++ List.replicate m 0) i = bitAt octets i := by
  have hzero : ∀ j : ℕ, ((List.replicate m (0 : UInt8))[j]?).getD 0 = 0 := by
    intro j
    rw [List.getElem?_replicate]
    split_ifs <;> rfl
  unfold bitAt
  rw [List.getD_eq_getElem?_getD, List.getD_eq_getElem?_getD, List.getElem?_append]
  split_ifs with h
  · rfl
  · rw [hzero, List.getElem?_eq_none (not_lt.mp h)]
    rfl

theorem bitAt_of_le {octets : List UInt8} {i : ℕ} (h : 8 * octets.length ≤ i) :
    bitAt octets i = false := by
  rw [bitAt, List.getD_eq_default _ _ (by omega)]
  exact Nat.zero_testBit _

/-- The bits of a prefix of the octets are those in front of its end. -/
theorem bitAt_take (octets : List UInt8) (n i : ℕ) :
    bitAt (octets.take n) i = (decide (i < 8 * n) && bitAt octets i) := by
  unfold bitAt
  rw [List.getD_eq_getElem?_getD, List.getD_eq_getElem?_getD, List.getElem?_take]
  by_cases h : i < 8 * n
  · rw [if_pos (by omega)]
    simp [h]
  · rw [if_neg (by omega)]
    simp [h]

/-- The octet at one place is replaced. -/
theorem bitAt_set (octets : List UInt8) {n : ℕ} (h : n < octets.length) (b : UInt8) (i : ℕ) :
    bitAt (octets.set n b) i =
      if i / 8 = n then b.toNat.testBit (7 - i % 8) else bitAt octets i := by
  unfold bitAt
  rw [List.getD_eq_getElem?_getD, List.getD_eq_getElem?_getD, List.getElem?_set]
  by_cases hi : i / 8 = n
  · rw [if_pos hi.symm, if_pos h, if_pos hi, Option.getD_some]
  · rw [if_neg (Ne.symm hi), if_neg hi]

/-! ### Octets and numbers -/

/-- Octets behind others do not change the bits of these. -/
theorem bitAt_append_left {octets rest : List UInt8} {i : ℕ} (h : i < 8 * octets.length) :
    bitAt (octets ++ rest) i = bitAt octets i := by
  have hi : i / 8 < octets.length := by omega
  rw [bitAt, List.getD_append _ _ _ _ hi, ← bitAt]

/-- The bits of the number are those of the octets, the first one on top. -/
theorem testBit_value {octets : List UInt8} {i : ℕ} (h : i < 8 * octets.length) :
    (value octets).testBit (8 * octets.length - 1 - i) = bitAt octets i := by
  induction octets using List.reverseRecOn with
  | nil => exact absurd h (by simp)
  | append_singleton octets b ih =>
    rw [List.length_append, List.length_singleton] at h ⊢
    rw [value_concat, Nat.testBit_two_pow_mul_add _ b.toNat_lt]
    by_cases hi : i < 8 * octets.length
    · -- the bit is one of an octet before the last
      have hidx : 8 * (octets.length + 1) - 1 - i - 8 = 8 * octets.length - 1 - i := by omega
      rw [if_neg (by omega), hidx, ih hi, bitAt_append_left hi]
    · have hdiv : i / 8 = octets.length := by omega
      have hidx : 8 * (octets.length + 1) - 1 - i = 7 - i % 8 := by omega
      rw [if_pos (by omega), hidx, bitAt, hdiv, List.getD_append_right _ _ _ _ le_rfl,
        Nat.sub_self]
      rfl

/-- **The bits of the octets are the bits of their number.** -/
theorem getMsbD_value {w : ℕ} {octets : List UInt8} (hw : 8 * octets.length = w) {i : ℕ}
    (hi : i < w) : (BitVec.ofNat w (value octets)).getMsbD i = bitAt octets i := by
  subst hw
  have hlt : 8 * octets.length - 1 - i < 8 * octets.length := by omega
  rw [BitVec.getMsbD_eq_getLsbD, BitVec.getLsbD_ofNat, testBit_value hi]
  simp [hi, hlt]

/-! ### Masks -/

theorem getMsbD_prefixMask {w len i : ℕ} (hlen : len ≤ w) :
    (prefixMask w len).getMsbD i = decide (i < len) := by
  unfold prefixMask
  split_ifs with h
  · simp [h]
  · rw [BitVec.getMsbD_shiftLeft, BitVec.getMsbD_allOnes]
    congr 1
    exact propext ⟨fun _ => by omega, fun _ => by omega⟩

/-- **Equal under a mask** means equal in the leading bits. -/
theorem and_prefixMask_inj {w len : ℕ} (hlen : len ≤ w) (a b : BitVec w) :
    a &&& prefixMask w len = b &&& prefixMask w len ↔
      ∀ i < len, a.getMsbD i = b.getMsbD i := by
  constructor
  · intro h i hi
    have hbit := congrArg (fun x => BitVec.getMsbD x i) h
    simpa only [BitVec.getMsbD_and, getMsbD_prefixMask hlen, hi, decide_true, Bool.and_true]
      using hbit
  · intro h
    refine BitVec.eq_of_getMsbD_eq fun i _ => ?_
    rw [BitVec.getMsbD_and, BitVec.getMsbD_and, getMsbD_prefixMask hlen]
    by_cases hi : i < len
    · rw [h i hi]
    · simp [hi]

/-- Octet strings with the same bits are equal. -/
theorem ext_bitAt {a b : List UInt8} (hlen : a.length = b.length)
    (h : ∀ i < 8 * a.length, bitAt a i = bitAt b i) : a = b := by
  refine List.ext_getElem hlen fun j ha hb => UInt8.toNat_inj.mp (Nat.eq_of_testBit_eq fun k => ?_)
  by_cases hk : k < 8
  · -- bit `k` of octet `j`
    have hbit := h (8 * j + (7 - k)) (by omega)
    have hdiv : (8 * j + (7 - k)) / 8 = j := by omega
    have hmod : 7 - (8 * j + (7 - k)) % 8 = k := by omega
    rw [bitAt, bitAt, hdiv, hmod, List.getD_eq_getElem _ _ ha, List.getD_eq_getElem _ _ hb] at hbit
    exact hbit
  · have hzero : ∀ x : UInt8, x.toNat.testBit k = false := fun x =>
      Nat.testBit_lt_two_pow (x.toNat_lt.trans_le (Nat.pow_le_pow_right (by decide) (not_lt.mp hk)))
    rw [hzero, hzero]

end Bits
