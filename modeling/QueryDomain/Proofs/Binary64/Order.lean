import Mathlib.Algebra.Order.Field.Basic
import Mathlib.Algebra.Order.Ring.Rat
import Mathlib.Data.Int.ConditionallyCompleteOrder
import Mathlib.Order.Monotone.Odd
import Mathlib.Tactic.Linarith
import Mathlib.Tactic.Ring
import QueryDomain.Binary64.Basic

/-! The numbers that doubles stand for, as fractions. Magnitude words grow with their numbers, so the
order of the signed words is the order of the numbers. -/
namespace QueryDomain.Binary64

def value (x : Binary64) : ℚ :=
  (if x.negative then -1 else 1) * (x.significand * 2 ^ x.exponent)

def wordValue (word : Nat) : ℚ := value ⟨false, word⟩

theorem wordValue_eq (word : Nat) : wordValue word =
    significand ⟨false, word⟩ * 2 ^ exponent ⟨false, word⟩ :=
  one_mul _

theorem value_eq (x : Binary64) :
    x.value = if x.negative then -wordValue x.magnitude else wordValue x.magnitude := by
  obtain ⟨negative, word⟩ := x
  rw [wordValue_eq]
  cases negative with
  | false => exact one_mul _
  | true => exact neg_one_mul _

/-- A significand is added to the word of its exponent. One that is rounded up may come to 54 bits,
and without an exponent it may have fewer than 53. -/
theorem wordValue_add {e s : Nat} (hs : s ≤ 2 * fractionLimit) (he : fractionLimit ≤ s ∨ e = 0) :
    wordValue (e * fractionLimit + s) = s * 2 ^ ((e : ℤ) - 1074) := by
  rw [wordValue_eq, significand, exponent]
  dsimp only
  by_cases hsmall : e * fractionLimit + s < fractionLimit
  · have he : e = 0 := by simp only [fractionLimit] at *; omega
    subst he
    rw [if_pos hsmall, if_pos hsmall]
    simp
  rw [if_neg hsmall, if_neg hsmall]
  obtain hs | rfl := Nat.lt_or_eq_of_le hs
  · have hdiv : (e * fractionLimit + s) / fractionLimit = e + 1 := by
      simp only [fractionLimit] at *
      omega
    have hmod : (e * fractionLimit + s) % fractionLimit + fractionLimit = s := by
      simp only [fractionLimit] at *
      omega
    rw [hdiv, hmod]
    congr 2
    omega
  · have hdiv : (e * fractionLimit + 2 * fractionLimit) / fractionLimit = e + 2 := by
      simp only [fractionLimit]
      omega
    have hmod : (e * fractionLimit + 2 * fractionLimit) % fractionLimit = 0 := by
      simp only [fractionLimit]
      omega
    have hexponent : ((e + 2 : Nat) : ℤ) - 1075 = (e : ℤ) - 1074 + 1 := by omega
    rw [hdiv, hmod, hexponent, zpow_add_one₀ two_ne_zero]
    push_cast
    ring

theorem exists_parts (word : Nat) : ∃ e s, word = e * fractionLimit + s ∧ s < 2 * fractionLimit ∧
    (fractionLimit ≤ s ∨ e = 0) := by
  by_cases hsmall : word < fractionLimit
  · exact ⟨0, word, by omega, by omega, .inr rfl⟩
  · refine ⟨word / fractionLimit - 1, word % fractionLimit + fractionLimit, ?_⟩
    simp only [fractionLimit] at *
    omega

theorem strictMono_wordValue : StrictMono wordValue := by
  refine strictMono_nat_of_lt_succ fun word => ?_
  obtain ⟨e, s, rfl, hs, he⟩ := exists_parts word
  rw [Nat.add_assoc, wordValue_add hs.le he, wordValue_add hs (he.imp_left Nat.le_succ_of_le)]
  have hpos : (0 : ℚ) < 2 ^ ((e : ℤ) - 1074) := zpow_pos two_pos _
  exact mul_lt_mul_of_pos_right (mod_cast Nat.lt_succ_self s) hpos

@[simp] theorem wordValue_zero : wordValue 0 = 0 := by
  simpa using @wordValue_add 0 0 (Nat.zero_le _) (.inr rfl)

def keyValue (key : ℤ) : ℚ := key.sign * wordValue key.natAbs

theorem keyValue_neg (key : ℤ) : keyValue (-key) = -keyValue key := by
  simp [keyValue]

theorem keyValue_natCast (word : Nat) : keyValue word = wordValue word := by
  obtain rfl | hpos := Nat.eq_zero_or_pos word
  · simp [keyValue]
  · rw [keyValue, Int.sign_natCast_of_ne_zero hpos.ne', Int.natAbs_natCast, Int.cast_one, one_mul]

theorem strictMono_keyValue : StrictMono keyValue := by
  refine strictMono_of_odd_strictMonoOn_nonneg keyValue_neg fun a ha b hb hab => ?_
  obtain ⟨m, rfl⟩ := Int.eq_ofNat_of_zero_le ha
  obtain ⟨n, rfl⟩ := Int.eq_ofNat_of_zero_le hb
  rw [keyValue_natCast, keyValue_natCast]
  exact strictMono_wordValue (Int.ofNat_lt.1 hab)

theorem keyValue_key (x : Binary64) : keyValue x.key = x.value := by
  rw [value_eq, key]
  split
  · rw [keyValue_neg, keyValue_natCast]
  · exact keyValue_natCast _

theorem compare_key (x y : Binary64) : compare x.key y.key = compare x.value y.value := by
  rw [← cmp_eq_compare, ← cmp_eq_compare, ← keyValue_key, ← keyValue_key,
    strictMono_keyValue.cmp_map_eq]

theorem isNaN_of_isFinite {x : Binary64} (h : x.isFinite = true) : x.isNaN = false := by
  simp only [isFinite, decide_eq_true_eq] at h
  simp only [isNaN, decide_eq_false_iff_not]
  omega

theorem compare?_eq {x y : Binary64} (hx : x.isFinite = true) (hy : y.isFinite = true) :
    x.compare? y = some (compare x.value y.value) := by
  rw [compare?, isNaN_of_isFinite hx, isNaN_of_isFinite hy, compare_key]
  rfl

end QueryDomain.Binary64
