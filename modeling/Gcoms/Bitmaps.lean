import Mathlib

/-!
# Natural numbers as finite bitmaps

Bit `i` of a mask says whether item `i` is present. `popcount` counts the
present items of a machine word, `bitLength` is one more than the highest
present item (word size minus leading zeros), and the lemmas below follow
these two measures through setting one bit and through shifting out a set
low bit.
-/
namespace Gcoms.Bitmaps

/-- The set bits of the low `w` positions. -/
def bits (w m : ℕ) : Finset ℕ := (Finset.range w).filter (fun i => m.testBit i)

def popcount (w m : ℕ) : ℕ := (bits w m).card

/-- `w - leading_zeros` for a `w`-bit word. -/
def bitLength (m : ℕ) : ℕ := if m = 0 then 0 else m.log2+1

theorem mem_bits {w m i : ℕ} : i ∈ bits w m ↔ i < w ∧ m.testBit i = true := by
  simp [bits]

@[simp] theorem testBit_setBit (m i j : ℕ) :
    (m ||| 1 <<< i).testBit j = (m.testBit j || decide (i = j)) := by
  simp [Nat.testBit_or,Nat.one_shiftLeft,Nat.testBit_two_pow]

theorem popcount_setBit {w m i : ℕ} (hi : i < w) (hm : m.testBit i = false) :
    popcount w (m ||| 1 <<< i) = popcount w m+1 := by
  have hset : bits w (m ||| 1 <<< i) = insert i (bits w m) := by
    ext j
    simp only [mem_bits,testBit_setBit,Finset.mem_insert,Bool.or_eq_true,decide_eq_true_eq]
    constructor
    · rintro ⟨hj,h | h⟩
      · exact .inr ⟨hj,h⟩
      · exact .inl h.symm
    · rintro (h | ⟨hj,h⟩)
      · exact ⟨h ▸ hi,.inr h.symm⟩
      · exact ⟨hj,.inl h⟩
  have hn : i ∉ bits w m := by simp [mem_bits,hm]
  rw [popcount,hset,Finset.card_insert_of_notMem hn,popcount]

/-- Shifting out a set low bit removes exactly one item. -/
theorem popcount_shiftRight_one {w m : ℕ} (hw : m < 2^w) (hm : m.testBit 0 = true) :
    popcount w (m >>> 1)+1 = popcount w m := by
  have hset : bits w m = insert 0 ((bits w (m >>> 1)).image (·+1)) := by
    ext j
    cases j with
    | zero =>
        have hpos : 0 < w := by
          by_contra h
          have hz : m = 0 := by
            have h0 : w = 0 := by omega
            simpa [h0] using hw
          simp [hz] at hm
        simp [mem_bits,hm,hpos]
    | succ j =>
        simp only [mem_bits,Finset.mem_insert,Finset.mem_image,Nat.testBit_shiftRight,
          Nat.add_right_cancel_iff,exists_eq_right,Nat.succ_ne_zero,false_or]
        have hb : m.testBit (j+1) = true → j+1 < w := by
          intro h
          by_contra hle
          rw [Nat.testBit_lt_two_pow (hw.trans_le (Nat.pow_le_pow_right (by omega) (not_lt.mp hle)))] at h
          exact Bool.false_ne_true h
        rw [Nat.add_comm 1 j]
        constructor
        · rintro ⟨hj,h⟩
          exact ⟨by omega,h⟩
        · rintro ⟨_,h⟩
          exact ⟨hb h,h⟩
  have hn : 0 ∉ (bits w (m >>> 1)).image (·+1) := by simp
  rw [popcount,popcount,hset,Finset.card_insert_of_notMem hn,
    Finset.card_image_of_injective _ (fun a b h => Nat.add_right_cancel h)]

@[simp] theorem bitLength_zero : bitLength 0 = 0 := rfl

theorem lt_two_pow_bitLength (m : ℕ) : m < 2^bitLength m := by
  unfold bitLength
  split
  · next h => simp [h]
  · exact Nat.lt_log2_self

theorem testBit_lt_bitLength {m i : ℕ} (h : m.testBit i = true) : i < bitLength m := by
  by_contra hle
  have hm := (lt_two_pow_bitLength m).trans_le (Nat.pow_le_pow_right (by omega : 0 < 2) (not_lt.mp hle))
  rw [Nat.testBit_lt_two_pow hm] at h
  exact Bool.false_ne_true h

theorem bitLength_le_iff {m w : ℕ} : bitLength m ≤ w ↔ m < 2^w := by
  constructor
  · intro h
    exact (lt_two_pow_bitLength m).trans_le (Nat.pow_le_pow_right (by omega) h)
  · intro h
    unfold bitLength
    split
    · omega
    · next hz => exact (Nat.log2_lt hz).mpr h

theorem testBit_bitLength_pred {m : ℕ} (hm : m ≠ 0) : m.testBit (bitLength m-1) = true := by
  have hl : bitLength m = m.log2+1 := by simp [bitLength,hm]
  obtain ⟨i,hi,ht⟩ := Nat.exists_ge_and_testBit_of_ge_two_pow (Nat.log2_self_le hm)
  have hlt := testBit_lt_bitLength ht
  have he : bitLength m-1 = i := by omega
  rwa [he]

/-- The bit length is the least bound on the positions of the set bits. -/
theorem bitLength_le_of_forall {m w : ℕ} (h : ∀ i, m.testBit i = true → i < w) :
    bitLength m ≤ w := by
  by_cases hm : m = 0
  · simp [hm]
  · have := h _ (testBit_bitLength_pred hm)
    omega

end Gcoms.Bitmaps
