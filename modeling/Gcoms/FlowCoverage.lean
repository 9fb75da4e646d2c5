import Gcoms.Bitmaps
import Gcoms.FlowRecord

/-!
# Receive coverage: a contiguous floor and a selective bitmap

`Coverage` is the machine representation: every counter up to `floor`, and the
counter `floor+1+i` for each set bit `i` of `mask`. Its meaning is the set
`covered` of natural numbers. Absorbing trailing ones into the floor does not
change the meaning, and a mask whose low bit is clear makes the representation
canonical. All later arguments about windows use the set, its greatest element
`top` and its count `size`, never the bit operations.
-/
namespace Gcoms.FlowCoverage
open Bitmaps FlowRecord

structure Coverage where
  floor : ℕ
  mask : ℕ
  deriving DecidableEq, Repr

namespace Coverage

def empty : Coverage := ⟨0,0⟩

def top (c : Coverage) : ℕ := c.floor+bitLength c.mask
def size (c : Coverage) : ℕ := c.floor+popcount 64 c.mask

def highest (c : Coverage) : Except Error ℕ :=
  if c.floor+bitLength c.mask < 2^64 then .ok (c.floor+bitLength c.mask) else .error .counter

def count (c : Coverage) : Except Error ℕ :=
  if c.floor+popcount 64 c.mask < 2^64 then .ok (c.floor+popcount 64 c.mask) else .error .counter

def contains (c : Coverage) (counter : ℕ) : Bool :=
  counter ≤ c.floor || (c.floor+1 ≤ counter &&
    (counter-(c.floor+1) < 63 && c.mask.testBit (counter-(c.floor+1))))

/-- `while mask & 1 != 0`: a 64-bit word has at most 64 trailing ones. -/
def absorb : ℕ → Coverage → Except Error Coverage
  | 0,c => .ok c
  | fuel+1,c =>
      if c.mask.testBit 0 then
        if c.floor+1 < 2^64 then absorb fuel ⟨c.floor+1,c.mask >>> 1⟩ else .error .counter
      else .ok c

def accept (c : Coverage) (counter : ℕ) : Except Error Coverage :=
  if counter < c.floor then .error .counter
  else if counter-c.floor = 0 ∨ counter-c.floor > counterWindow ∨ c.contains counter then
    .error .counter
  else absorb 64 ⟨c.floor,c.mask ||| 1 <<< (counter-c.floor-1)⟩

/-- The merge inside `accept_credit`: `checked_shr` takes a `u32` amount and gives
nothing from 64 on. -/
def merge (credited coverage : Coverage) : Except Error Coverage :=
  let advance := (coverage.floor-credited.floor)%2^32
  let previousMask := if advance < 64 then credited.mask >>> advance else 0
  absorb 64 ⟨coverage.floor,coverage.mask ||| previousMask⟩

def valid (c : Coverage) : Bool :=
  c.mask.testBit 0 = false ∧ c.mask >>> 63 = 0 ∧ c.floor+bitLength c.mask < 2^64

/-! ## Meaning -/

/-- The counters that a coverage claims to have received. -/
def covered (c : Coverage) : Set ℕ :=
  {n | n ≤ c.floor ∨ ∃ i, n = c.floor+1+i ∧ c.mask.testBit i = true}

structure Valid (c : Coverage) : Prop where
  even : c.mask.testBit 0 = false
  mask_lt : c.mask < 2^63
  top_lt : c.top < 2^64

theorem valid_iff (c : Coverage) : c.valid = true ↔ c.Valid := by
  have hs : c.mask >>> 63 = 0 ↔ c.mask < 2^63 := by
    rw [Nat.shiftRight_eq_div_pow]
    constructor
    · intro h
      exact Nat.lt_of_div_eq_zero (by omega) h
    · exact Nat.div_eq_of_lt
  simp only [valid,decide_eq_true_eq,hs]
  exact ⟨fun h => ⟨h.1,h.2.1,h.2.2⟩,fun h => ⟨h.even,h.mask_lt,h.top_lt⟩⟩

theorem valid_empty : empty.Valid := ⟨by decide,by decide,by decide⟩

theorem covered_empty : empty.covered = {0} := by
  ext n
  simp [covered,empty]

theorem mem_of_le_floor {c : Coverage} {n : ℕ} (h : n ≤ c.floor) : n ∈ c.covered := .inl h

theorem contains_iff {c : Coverage} (hm : c.mask < 2^63) {n : ℕ} :
    c.contains n = true ↔ n ∈ c.covered := by
  simp only [contains,Bool.or_eq_true,Bool.and_eq_true,decide_eq_true_eq,covered,Set.mem_ofPred_eq]
  constructor
  · rintro (h | ⟨h,_,hb⟩)
    · exact .inl h
    · exact .inr ⟨n-(c.floor+1),by omega,hb⟩
  · rintro (h | ⟨i,rfl,hb⟩)
    · exact .inl h
    · have hi : i < 63 := (testBit_lt_bitLength hb).trans_le (bitLength_le_iff.mpr hm)
      have he : c.floor+1+i-(c.floor+1) = i := by omega
      rw [he]
      exact .inr ⟨by omega,hi,hb⟩

theorem isGreatest_top (c : Coverage) : IsGreatest c.covered c.top := by
  constructor
  · by_cases hm : c.mask = 0
    · exact .inl (by simp [top,hm])
    · have hl : 0 < bitLength c.mask := by simp [bitLength,hm]
      exact .inr ⟨bitLength c.mask-1,by simp only [top]; omega,testBit_bitLength_pred hm⟩
  · rintro n (h | ⟨i,rfl,hb⟩)
    · exact h.trans (Nat.le_add_right _ _)
    · have := testBit_lt_bitLength hb
      simp only [top]
      omega

theorem le_top {c : Coverage} {n : ℕ} (h : n ∈ c.covered) : n ≤ c.top := c.isGreatest_top.2 h

theorem top_eq_of_covered {c d : Coverage} (h : c.covered = d.covered) : c.top = d.top :=
  c.isGreatest_top.unique (h ▸ d.isGreatest_top)

theorem top_le_of_subset {c d : Coverage} (h : c.covered ⊆ d.covered) : c.top ≤ d.top :=
  le_top (h c.isGreatest_top.1)

theorem floor_le_top (c : Coverage) : c.floor ≤ c.top := Nat.le_add_right _ _

theorem top_le_floor_add {c : Coverage} (hm : c.mask < 2^63) : c.top ≤ c.floor+63 := by
  have := bitLength_le_iff.mpr hm
  simp only [top]
  omega

/-- A clear low bit means that the counter above the floor is missing. -/
theorem succ_floor_not_mem {c : Coverage} (he : c.mask.testBit 0 = false) :
    c.floor+1 ∉ c.covered := by
  rintro (h | ⟨i,h,hb⟩)
  · omega
  · have hi : i = 0 := by omega
    rw [hi,he] at hb
    exact Bool.false_ne_true hb

theorem floor_le_of_subset {c d : Coverage} (hd : d.mask.testBit 0 = false)
    (h : c.covered ⊆ d.covered) : c.floor ≤ d.floor := by
  by_contra hlt
  exact succ_floor_not_mem hd (h (mem_of_le_floor (by omega)))

theorem testBit_iff_mem {c : Coverage} {i : ℕ} :
    c.mask.testBit i = true ↔ c.floor+1+i ∈ c.covered := by
  constructor
  · intro h
    exact .inr ⟨i,rfl,h⟩
  · rintro (h | ⟨j,h,hb⟩)
    · omega
    · have hj : i = j := by omega
      rwa [hj]

/-- With a clear low bit the set determines the representation. -/
theorem ext_covered {c d : Coverage} (hc : c.mask.testBit 0 = false)
    (hd : d.mask.testBit 0 = false) (h : c.covered = d.covered) : c = d := by
  have hf : c.floor = d.floor :=
    le_antisymm (floor_le_of_subset hd h.subset) (floor_le_of_subset hc h.symm.subset)
  have hm : c.mask = d.mask := by
    apply Nat.eq_of_testBit_eq
    intro i
    rw [Bool.eq_iff_iff,testBit_iff_mem,testBit_iff_mem,h,hf]
  cases c
  cases d
  simp_all

theorem mask_lt_of_covered_le {c : Coverage} (h : ∀ n ∈ c.covered, n ≤ c.floor+63) :
    c.mask < 2^63 := by
  apply bitLength_le_iff.mp
  apply bitLength_le_of_forall
  intro i hi
  have := h _ (testBit_iff_mem.mp hi)
  omega

/-! ## Absorbing trailing ones -/

theorem covered_shift {c : Coverage} (h : c.mask.testBit 0 = true) :
    (⟨c.floor+1,c.mask >>> 1⟩ : Coverage).covered = c.covered := by
  ext n
  simp only [covered,Set.mem_ofPred_eq,Nat.testBit_shiftRight]
  constructor
  · rintro (hn | ⟨i,rfl,hb⟩)
    · rcases Nat.lt_or_ge c.floor n with hlt | hge
      · exact .inr ⟨0,by omega,h⟩
      · exact .inl hge
    · exact .inr ⟨1+i,by omega,hb⟩
  · rintro (hn | ⟨i,rfl,hb⟩)
    · exact .inl (by omega)
    · cases i with
      | zero => exact .inl (by omega)
      | succ i =>
          refine .inr ⟨i,by omega,?_⟩
          rwa [Nat.add_comm 1 i]

/-- The loop stops with a clear low bit and keeps the meaning and the count. -/
theorem absorb_spec (fuel : ℕ) (c : Coverage) (hm : c.mask < 2^fuel) (hf : fuel ≤ 64)
    (ht : c.top < 2^64) :
    ∃ d, absorb fuel c = .ok d ∧ d.mask.testBit 0 = false ∧ d.covered = c.covered ∧
      d.size = c.size := by
  induction fuel generalizing c with
  | zero =>
      have hz : c.mask = 0 := by simpa using hm
      exact ⟨c,rfl,by simp [hz],rfl,rfl⟩
  | succ fuel ih =>
      cases hb : c.mask.testBit 0 with
      | false => exact ⟨c,by simp [absorb,hb],hb,rfl,rfl⟩
      | true =>
          have hcov := covered_shift hb
          have htop := top_eq_of_covered hcov
          have hlt : c.floor+1 < 2^64 := by
            have := floor_le_top ⟨c.floor+1,c.mask >>> 1⟩
            simp only at this
            omega
          have hshift : c.mask >>> 1 < 2^fuel := by
            rw [Nat.shiftRight_eq_div_pow]
            rw [pow_succ] at hm
            omega
          obtain ⟨d,hd,heven,hset,hsize⟩ :=
            ih ⟨c.floor+1,c.mask >>> 1⟩ hshift (by omega) (by omega)
          refine ⟨d,by simp only [absorb,hb,hlt,if_true]; exact hd,heven,hset.trans hcov,?_⟩
          have hw : c.mask < 2^64 := hm.trans_le (Nat.pow_le_pow_right (by omega) hf)
          have hp := popcount_shiftRight_one hw hb
          rw [hsize]
          simp only [size]
          omega

/-! ## Accepting one counter -/

theorem accept_inv {c d : Coverage} {n : ℕ} (h : c.accept n = .ok d) :
    c.floor < n ∧ n ≤ c.floor+63 ∧ c.contains n = false := by
  unfold accept at h
  split_ifs at h with h₁ h₂
  simp only [not_or] at h₂
  have hw : counterWindow = 63 := rfl
  exact ⟨by omega,by omega,by simpa using h₂.2.2⟩

/-- A missing counter inside the window is added, and nothing else changes. -/
theorem accept_spec {c : Coverage} (hc : c.Valid) {n : ℕ} (hn : n < 2^64)
    (hlo : c.floor < n) (hhi : n ≤ c.floor+63) (hnew : n ∉ c.covered) :
    ∃ d, c.accept n = .ok d ∧ d.Valid ∧ d.covered = insert n c.covered ∧
      d.size = c.size+1 ∧ d.top = max n c.top := by
  let e : Coverage := ⟨c.floor,c.mask ||| 1 <<< (n-c.floor-1)⟩
  have hbit : c.mask.testBit (n-c.floor-1) = false := by
    rw [← Bool.not_eq_true,testBit_iff_mem]
    have he : c.floor+1+(n-c.floor-1) = n := by omega
    rwa [he]
  have hset : e.covered = insert n c.covered := by
    ext k
    simp only [e,covered,Set.mem_ofPred_eq,Set.mem_insert_iff,testBit_setBit,Bool.or_eq_true,
      decide_eq_true_eq]
    constructor
    · rintro (h | ⟨i,rfl,h | h⟩)
      · exact .inr (.inl h)
      · exact .inr (.inr ⟨i,rfl,h⟩)
      · exact .inl (by omega)
    · rintro (rfl | h | ⟨i,rfl,h⟩)
      · exact .inr ⟨k-c.floor-1,by omega,.inr rfl⟩
      · exact .inl h
      · exact .inr ⟨i,rfl,.inl h⟩
  have hg : IsGreatest e.covered (max n c.top) := hset ▸ c.isGreatest_top.insert n
  have htop : e.top = max n c.top := e.isGreatest_top.unique hg
  have hctop := top_le_floor_add hc.mask_lt
  have hmask : e.mask < 2^63 := mask_lt_of_covered_le (fun k hk => by
    have := hg.2 hk
    simp only [e]
    omega)
  have htlt := hc.top_lt
  have hmask' : e.mask < 2^64 := hmask.trans (by norm_num)
  obtain ⟨d,hd,heven,hcov,hsize⟩ := absorb_spec 64 e hmask' le_rfl (by rw [htop]; omega)
  have hdtop : d.top = max n c.top := (top_eq_of_covered hcov).trans htop
  have hfl : c.floor ≤ d.floor := by
    apply floor_le_of_subset heven
    rw [hcov,hset]
    exact Set.subset_insert _ _
  refine ⟨d,?_,⟨heven,?_,by rw [hdtop]; omega⟩,hcov.trans hset,?_,hdtop⟩
  · have hcn : c.contains n = false := by
      rw [← Bool.not_eq_true,contains_iff hc.mask_lt]
      exact hnew
    have hw : counterWindow = 63 := rfl
    have h₂ : ¬ (n-c.floor = 0 ∨ n-c.floor > counterWindow ∨ c.contains n = true) := by
      rw [hcn]
      simp only [Bool.false_eq_true,or_false]
      omega
    rw [accept,if_neg (by omega),if_neg h₂]
    exact hd
  · apply mask_lt_of_covered_le
    intro k hk
    have := le_top hk
    omega
  · have hi : n-c.floor-1 < 64 := by omega
    rw [hsize]
    simp only [e,size,popcount_setBit hi hbit]
    omega

theorem accept_valid {c d : Coverage} (hc : c.Valid) {n : ℕ} (hn : n < 2^64)
    (h : c.accept n = .ok d) :
    n ∉ c.covered ∧ c.floor < n ∧ d.Valid ∧ d.covered = insert n c.covered ∧
      d.size = c.size+1 ∧ d.top = max n c.top := by
  obtain ⟨hlo,hhi,hcont⟩ := accept_inv h
  have hnew : n ∉ c.covered := by
    rw [← contains_iff hc.mask_lt,hcont]
    exact Bool.false_ne_true
  obtain ⟨e,he,hv,hs,hz,ht⟩ := accept_spec hc hn hlo hhi hnew
  rw [h] at he
  cases he
  exact ⟨hnew,hlo,hv,hs,hz,ht⟩

/-- Merging two coverages of counters that fit one window is set union. -/
theorem merge_spec {c d : Coverage} (hc : c.Valid) (hd : d.Valid) (hle : c.floor ≤ d.floor)
    {n : ℕ} (hcn : c.top ≤ n) (hdn : d.top ≤ n) (hn : n ≤ c.floor+63) :
    ∃ e, c.merge d = .ok e ∧ e.Valid ∧ e.covered = c.covered ∪ d.covered := by
  have hdf := d.floor_le_top
  have hadv : (d.floor-c.floor)%2^32 = d.floor-c.floor := Nat.mod_eq_of_lt (by omega)
  let m : Coverage := ⟨d.floor,d.mask ||| c.mask >>> (d.floor-c.floor)⟩
  have hset : m.covered = c.covered ∪ d.covered := by
    ext k
    rcases Nat.lt_or_ge d.floor k with hk | hk
    · obtain ⟨i,rfl⟩ : ∃ i, k = d.floor+1+i := ⟨k-(d.floor+1),by omega⟩
      have hi : c.floor+1+(d.floor-c.floor+i) = d.floor+1+i := by omega
      have hm : m.mask.testBit i = true ↔ d.mask.testBit i = true ∨
          c.mask.testBit (d.floor-c.floor+i) = true := by
        simp [m,Nat.testBit_or,Nat.testBit_shiftRight]
      change m.floor+1+i ∈ m.covered ↔ _
      rw [← testBit_iff_mem,hm,testBit_iff_mem,testBit_iff_mem,hi,Set.mem_union,or_comm]
    · exact iff_of_true (mem_of_le_floor hk) (.inr (mem_of_le_floor hk))
  have hbound : ∀ k ∈ m.covered, k ≤ n := by
    intro k hk
    rw [hset] at hk
    rcases hk with hk | hk
    · exact (le_top hk).trans hcn
    · exact (le_top hk).trans hdn
  have hmask : m.mask < 2^63 := mask_lt_of_covered_le (fun k hk => by
    have := hbound k hk
    simp only [m]
    omega)
  have htop : m.top < 2^64 := by
    have h := m.isGreatest_top.1
    rw [hset] at h
    rcases h with h | h
    · exact (le_top h).trans_lt hc.top_lt
    · exact (le_top h).trans_lt hd.top_lt
  obtain ⟨e,he,heven,hcov,_⟩ := absorb_spec 64 m (hmask.trans (by norm_num)) le_rfl htop
  refine ⟨e,?_,⟨heven,?_,(top_eq_of_covered hcov).trans_lt htop⟩,hcov.trans hset⟩
  · simp only [merge,hadv]
    rw [if_pos (by omega)]
    exact he
  · apply mask_lt_of_covered_le
    intro k hk
    rw [hcov] at hk
    have hfl : c.floor ≤ e.floor := by
      apply floor_le_of_subset heven
      rw [hcov,hset]
      exact Set.subset_union_left
    have := hbound k hk
    omega

theorem Valid.highest {c : Coverage} (hc : c.Valid) : c.highest = .ok c.top := by
  have h : c.floor+bitLength c.mask < 2^64 := hc.top_lt
  simp only [Coverage.highest,if_pos h,top]

/-- A set bit contributes at most its position, so the count never exceeds `top`. -/
theorem size_le_top (c : Coverage) : c.size ≤ c.top := by
  have h : popcount 64 c.mask ≤ bitLength c.mask := by
    have hsub : bits 64 c.mask ⊆ Finset.range (bitLength c.mask) := by
      intro i hi
      exact Finset.mem_range.mpr (testBit_lt_bitLength (mem_bits.mp hi).2)
    simpa [popcount] using Finset.card_le_card hsub
  simp only [size,top]
  omega

theorem Valid.count {c : Coverage} (hc : c.Valid) : c.count = .ok c.size := by
  have h : c.floor+popcount 64 c.mask < 2^64 := c.size_le_top.trans_lt hc.top_lt
  simp only [Coverage.count,if_pos h,size]

end Coverage

end Gcoms.FlowCoverage
