import Mathlib.Algebra.BigOperators.Group.List.Basic
import Mathlib.Algebra.Order.Ring.Nat
import Mathlib.Data.Nat.Factorial.Basic
import InstructionCard.Machine.Arithmetic

/-!
# Byte arithmetic and exact numbers

What each byte operation makes of the exact result. Sums, products, powers and factorials are the exact
number clamped to 255; the product that sticks once it has overflowed is clamped only at its end, as no
later factor is zero. Differences and shifts to the left are exact modulo 256.
-/

set_option autoImplicit false

namespace InstructionCard.ByteResult

/-- An exact number clamped to a byte, and whether it was too large. -/
def clamp (n : Nat) : ByteResult :=
  ⟨UInt8.ofNat (min n 255), decide (255 < n)⟩

@[simp] theorem toNat_value_clamp (n : Nat) : (clamp n).value.toNat = min n 255 := by
  simp only [clamp, UInt8.toNat_ofNat']
  omega

@[simp] theorem overflow_clamp (n : Nat) : (clamp n).overflow = decide (255 < n) := rfl

/-- A wide result is cut down to a byte by clamping. -/
theorem ofWide_eq_clamp (wide : UInt16) : ofWide wide = clamp wide.toNat := by
  have small : wide ≤ 255 ↔ wide.toNat ≤ 255 := UInt16.le_iff_toNat_le
  unfold ofWide clamp
  split
  · next fits =>
    rw [small] at fits
    rw [Nat.min_eq_left fits, decide_eq_false (by omega)]
    rfl
  · next large =>
    rw [small] at large
    rw [Nat.min_eq_right (by omega), decide_eq_true (by omega)]
    rfl

theorem add_eq_clamp (a b : UInt8) : add a b = clamp (a.toNat + b.toNat) := by
  have ha := a.toNat_lt
  have hb := b.toNat_lt
  rw [add, ofWide_eq_clamp, UInt16.toNat_add, UInt8.toNat_toUInt16, UInt8.toNat_toUInt16,
    Nat.mod_eq_of_lt (by omega)]

theorem mul_eq_clamp (a b : UInt8) : mul a b = clamp (a.toNat * b.toNat) := by
  have small : a.toNat * b.toNat ≤ 255 * 255 :=
    Nat.mul_le_mul (Nat.le_of_lt_succ a.toNat_lt) (Nat.le_of_lt_succ b.toNat_lt)
  rw [mul, ofWide_eq_clamp, UInt16.toNat_mul, UInt8.toNat_toUInt16, UInt8.toNat_toUInt16,
    Nat.mod_eq_of_lt (by omega)]

/-- A difference below zero wraps around and is flagged. -/
theorem sub_exact (a b : UInt8) :
    ((sub a b).value.toNat : Int) = ((a.toNat : Int) - b.toNat) % 256 ∧
      (sub a b).overflow = decide (a.toNat < b.toNat) := by
  have ha := a.toNat_lt
  have hb := b.toNat_lt
  constructor
  · simp only [sub, UInt8.toNat_sub]
    omega
  · simp only [sub, UInt8.lt_iff_toNat_lt]

/-! ## Products -/

/-- One more factor. An overflow is kept by a factor that is not zero. -/
theorem times_clamp (n : Nat) (b : UInt8) (h : n ≤ 255 ∨ b.toNat ≠ 0) :
    (clamp n).times b = clamp (n * b.toNat) := by
  unfold times
  simp only [mul_eq_clamp, toNat_value_clamp, overflow_clamp]
  rcases Nat.lt_or_ge 255 n with large | fits
  · have positive : 1 ≤ b.toNat := by omega
    have exact : n ≤ n * b.toNat := Nat.le_mul_of_pos_right n positive
    have sticks : 255 ≤ 255 * b.toNat := Nat.le_mul_of_pos_right 255 positive
    have left : min (min n 255 * b.toNat) 255 = 255 := by
      rw [Nat.min_eq_right (Nat.le_of_lt large)]
      omega
    have right : min (n * b.toNat) 255 = 255 := by omega
    simp only [clamp, left, right]
    simp [large, Nat.lt_of_lt_of_le large exact]
  · rw [Nat.min_eq_left fits]
    simp [clamp, Nat.not_lt.2 fits]

/-- A product of many factors is clamped once, however often it overflows on the way. -/
theorem foldl_times_clamp (factors : List UInt8) (n : Nat) (h : ∀ b ∈ factors, b.toNat ≠ 0) :
    factors.foldl times (clamp n) = clamp (n * (factors.map UInt8.toNat).prod) := by
  induction factors generalizing n with
  | nil => simp
  | cons b factors ih =>
    rw [List.foldl_cons, times_clamp n b (.inr (h b List.mem_cons_self)),
      ih _ fun c hc => h c (List.mem_cons_of_mem b hc), List.map_cons, List.prod_cons, Nat.mul_assoc]

theorem product_eq_clamp {factors : List UInt8} (h : ∀ b ∈ factors, b.toNat ≠ 0) :
    product factors = clamp (factors.map UInt8.toNat).prod := by
  have one : clamp 1 = ⟨1, false⟩ := rfl
  rw [product, ← one, foldl_times_clamp factors 1 h, Nat.one_mul]

/-- Powers are clamped products of equal factors. -/
theorem pow_eq_clamp (a b : UInt8) : pow a b = clamp (a.toNat ^ b.toNat) := by
  by_cases zero : a.toNat = 0
  · -- Powers of zero are 1 for the power zero and 0 for all others.
    obtain rfl : a = 0 := UInt8.toNat.inj zero
    have zeros (n : Nat) : (List.replicate n (0 : UInt8)).foldl times ⟨1, false⟩ = clamp (0 ^ n) := by
      induction n with
      | zero => rfl
      | succ n ih =>
        have fits : 0 ^ n ≤ 255 := (pow_le_one₀ (Nat.zero_le 0) (Nat.zero_le 1)).trans (by omega)
        rw [List.replicate_succ', List.foldl_append, ih, List.foldl_cons, List.foldl_nil,
          times_clamp _ _ (.inl fits), Nat.pow_succ]
        rfl
    exact zeros b.toNat
  · have nonzero : ∀ c ∈ List.replicate b.toNat a, c.toNat ≠ 0 := by
      intro c hc
      rw [List.eq_of_mem_replicate hc]
      exact zero
    rw [pow, product_eq_clamp nonzero, List.map_replicate, List.prod_replicate]

/-- Factorials are clamped products of the numbers from 1 on. -/
theorem factorial_eq_clamp (a : UInt8) : factorial a = clamp a.toNat.factorial := by
  have small : ∀ n ∈ List.range' 1 a.toNat, (UInt8.ofNat n).toNat = n := by
    intro n hn
    have ha := a.toNat_lt
    rw [List.mem_range'_1] at hn
    rw [UInt8.toNat_ofNat', Nat.mod_eq_of_lt (by omega)]
  have nonzero : ∀ b ∈ (List.range' 1 a.toNat).map UInt8.ofNat, b.toNat ≠ 0 := by
    intro b hb
    obtain ⟨n, hn, rfl⟩ := List.mem_map.1 hb
    rw [small n hn]
    rw [List.mem_range'_1] at hn
    omega
  have back : ((List.range' 1 a.toNat).map UInt8.ofNat).map UInt8.toNat = List.range' 1 a.toNat := by
    rw [List.map_map]
    exact (List.map_congr_left small).trans (List.map_id _)
  rw [factorial, product_eq_clamp nonzero, back]
  congr 1
  induction a.toNat with
  | zero => rfl
  | succ n ih =>
    rw [List.range'_1_concat, List.prod_append, ih, List.prod_singleton, Nat.factorial_succ, Nat.mul_comm,
      Nat.add_comm 1 n]

/-! ## Shifts -/

/-- Shifting by eight places or more leaves nothing of the byte, as the exact product does modulo 256. -/
theorem shiftLeft_exact (a b : UInt8) :
    (shiftLeft a b).value.toNat = a.toNat * 2 ^ b.toNat % 256 ∧
      (shiftLeft a b).overflow = decide (255 < a.toNat * 2 ^ b.toNat) := by
  have ha := a.toNat_lt
  have small : b < 8 ↔ b.toNat < 8 := UInt8.lt_iff_toNat_lt
  unfold shiftLeft
  split
  · next few =>
    rw [small] at few
    have power : 2 ^ b.toNat ≤ 2 ^ 7 := Nat.pow_le_pow_right (by omega) (by omega)
    have bound : a.toNat * 2 ^ b.toNat < 2 ^ 16 := by
      calc a.toNat * 2 ^ b.toNat ≤ 255 * 2 ^ 7 := Nat.mul_le_mul (by omega) power
        _ < 2 ^ 16 := by omega
    have wide : (a.toUInt16 <<< b.toUInt16).toNat = a.toNat * 2 ^ b.toNat := by
      rw [UInt16.toNat_shiftLeft, UInt8.toNat_toUInt16, UInt8.toNat_toUInt16,
        Nat.mod_eq_of_lt (by omega : b.toNat < 16), Nat.shiftLeft_eq, Nat.mod_eq_of_lt bound]
    refine ⟨?_, ?_⟩
    · rw [UInt16.toNat_toUInt8, wide]
    · simp only [UInt16.lt_iff_toNat_lt, wide]
      rfl
  · next many =>
    rw [small] at many
    have power : 2 ^ b.toNat = 2 ^ 8 * 2 ^ (b.toNat - 8) := by rw [← Nat.pow_add]; congr 1; omega
    refine ⟨?_, ?_⟩
    · rw [power, Nat.mul_left_comm]
      exact (Nat.mul_mod_right _ _).symm
    · have positive : 1 ≤ 2 ^ (b.toNat - 8) := Nat.one_le_two_pow
      rw [power]
      by_cases zero : a.toNat = 0
      · obtain rfl : a = 0 := UInt8.toNat.inj zero
        simp
      · have large : 255 < a.toNat * (2 ^ 8 * 2 ^ (b.toNat - 8)) := by
          calc 255 < 1 * (2 ^ 8 * 1) := by omega
            _ ≤ a.toNat * (2 ^ 8 * 2 ^ (b.toNat - 8)) :=
              Nat.mul_le_mul (by omega) (Nat.mul_le_mul_left _ positive)
        have differs : a ≠ 0 := fun e => zero (by rw [e]; rfl)
        rw [decide_eq_true large]
        simpa using differs

/-- Shifting to the right never overflows. -/
theorem shiftRight_exact (a b : UInt8) :
    (shiftRight a b).value.toNat = a.toNat / 2 ^ b.toNat ∧ (shiftRight a b).overflow = false := by
  have ha := a.toNat_lt
  have small : b < 8 ↔ b.toNat < 8 := UInt8.lt_iff_toNat_lt
  refine ⟨?_, rfl⟩
  unfold shiftRight
  simp only [small]
  split
  · next few => rw [UInt8.toNat_shiftRight, Nat.mod_eq_of_lt few, Nat.shiftRight_eq_div_pow]
  · next many =>
    have power : 2 ^ 8 ≤ 2 ^ b.toNat := Nat.pow_le_pow_right (by omega) (by omega)
    rw [Nat.div_eq_of_lt (by omega)]
    rfl

end InstructionCard.ByteResult
