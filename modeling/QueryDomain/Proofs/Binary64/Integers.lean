import Mathlib.Data.Nat.Cast.Field
import Mathlib.Data.Nat.Cast.Order.Field
import QueryDomain.Binary64.Rounding
import QueryDomain.Proofs.Binary64.Order

/-! Integers among the doubles. An integer is rounded to a double with no other between the two, so
rounding changes its order at most with that double. Whole doubles are read off exactly. -/
namespace QueryDomain.Binary64

/-- No signed word lies between the number and the one it is rounded to, which is its own if it has
one. -/
structure RoundsTo (q : ℚ) (key : ℤ) : Prop where
  below : ∀ k, keyValue k < q → k ≤ key
  above : ∀ k, q < keyValue k → key ≤ k
  exact : ∀ k, keyValue k = q → k = key

theorem roundsTo_of_floor {q : ℚ} {floor key : ℤ} (hlow : keyValue floor ≤ q)
    (hhigh : q < keyValue (floor + 1)) (hkey : key = floor ∨ key = floor + 1)
    (hexact : keyValue floor = q → key = floor) : RoundsTo q key where
  below k hk := by
    have := strictMono_keyValue.lt_iff_lt.1 (hk.trans hhigh)
    omega
  above k hk := by
    have := strictMono_keyValue.lt_iff_lt.1 (hlow.trans_lt hk)
    omega
  exact k hk := by
    have hle := strictMono_keyValue.le_iff_le.1 (hlow.trans_eq hk.symm)
    have hlt := strictMono_keyValue.lt_iff_lt.1 (hk.trans_lt hhigh)
    obtain rfl : k = floor := by omega
    exact (hexact hk).symm

theorem RoundsTo.neg {q : ℚ} {key : ℤ} (h : RoundsTo q key) : RoundsTo (-q) (-key) where
  below k hk := neg_le_neg_iff.1 <| by
    rw [neg_neg]
    exact h.above _ (by rw [keyValue_neg]; exact lt_neg_of_lt_neg hk)
  above k hk := neg_le_neg_iff.1 <| by
    rw [neg_neg]
    exact h.below _ (by rw [keyValue_neg]; exact neg_lt_of_neg_lt hk)
  exact k hk := neg_inj.1 <| by
    rw [neg_neg]
    exact h.exact _ (by rw [keyValue_neg, hk, neg_neg])

theorem roundDiv_cases (num den : Nat) :
    roundDiv num den = num / den ∨ roundDiv num den = num / den + 1 := by
  simp only [roundDiv]
  split
  · exact .inl rfl
  · split
    · exact .inr rfl
    · omega

theorem roundDiv_of_dvd {num den : Nat} (hden : 0 < den) (h : den ∣ num) :
    roundDiv num den = num / den := by
  simp only [roundDiv, Nat.mod_eq_zero_of_dvd h]
  exact if_pos hden

/-- A fraction of 53 bits before the point that is the integer once its exponent is added. -/
structure IsScaled (m : Nat) (q : ℤ) (num den : Nat) : Prop where
  pos : 0 < den
  low : fractionLimit ≤ num / den
  high : num / den < 2 * fractionLimit
  value : (m : ℚ) = num / den * 2 ^ q

theorem log2_mul_bounds {m k : Nat} (hm : m ≠ 0) (hk : 52 = Nat.log2 m + k) :
    fractionLimit ≤ m * 2 ^ k ∧ m * 2 ^ k < 2 * fractionLimit := by
  have hlow := Nat.mul_le_mul_right (2 ^ k) (Nat.log2_self_le hm)
  have hhigh := Nat.mul_lt_mul_of_pos_right (@Nat.lt_log2_self m) (Nat.two_pow_pos k)
  rw [← Nat.pow_add, ← hk] at hlow
  rw [← Nat.pow_add, Nat.add_right_comm, ← hk] at hhigh
  exact ⟨hlow, hhigh⟩

theorem isScaled {m : Nat} (hm : m ≠ 0) : IsScaled m (Nat.log2 m - 52)
    (scaled m 1 (Nat.log2 m - 52)).1 (scaled m 1 (Nat.log2 m - 52)).2 := by
  by_cases hlog : 52 ≤ Nat.log2 m
  · obtain ⟨k, hk⟩ := Nat.exists_eq_add_of_le hlog
    have hq : ((Nat.log2 m : Nat) : ℤ) - 52 = (k : ℤ) := by omega
    have hscaled : scaled m 1 k = (m, 2 ^ k) := by
      rw [scaled, if_pos (by omega), Int.toNat_natCast, Nat.one_mul]
      rfl
    have hpos : 0 < 2 ^ k := Nat.two_pow_pos k
    have hlow := Nat.log2_self_le hm
    have hhigh := @Nat.lt_log2_self m
    rw [hk, Nat.pow_add] at hlow
    rw [hk, Nat.add_right_comm, Nat.pow_add] at hhigh
    rw [hq, hscaled]
    refine ⟨hpos, (Nat.le_div_iff_mul_le hpos).2 hlow, (Nat.div_lt_iff_lt_mul hpos).2 hhigh, ?_⟩
    rw [zpow_natCast, Nat.cast_pow, Nat.cast_ofNat, div_mul_cancel₀ _ (pow_ne_zero k two_ne_zero)]
  · obtain ⟨k, hk⟩ := Nat.exists_eq_add_of_le (Nat.le_of_not_le hlog)
    have hq : ((Nat.log2 m : Nat) : ℤ) - 52 = -(k : ℤ) := by omega
    have hscaled : scaled m 1 (-k) = (m * 2 ^ k, 1) := by
      rw [scaled, if_neg (by omega), neg_neg, Int.toNat_natCast]
      rfl
    obtain ⟨hlow, hhigh⟩ := log2_mul_bounds hm hk
    rw [hq, hscaled]
    refine ⟨Nat.one_pos, ?_, ?_, ?_⟩
    · rwa [Nat.div_one]
    · rwa [Nat.div_one]
    · rw [Nat.cast_mul, Nat.cast_pow, Nat.cast_ofNat, Nat.cast_one, div_one, zpow_neg, zpow_natCast,
        mul_inv_cancel_right₀ (pow_ne_zero k two_ne_zero)]

theorem exponentFor_one {m : Nat} (hm : m ≠ 0) : exponentFor m 1 = (Nat.log2 m : ℤ) - 52 := by
  have hlow := (isScaled hm).low
  have hlog : ((Nat.log2 1 : Nat) : ℤ) = 0 := rfl
  simp only [exponentFor, hlog, sub_zero]
  rw [if_neg (Nat.not_lt.2 hlow)]
  omega

/-- Rounding the fraction to an integer rounds the number to a word. -/
theorem IsScaled.roundsTo {m num den : Nat} {q : ℤ} (h : IsScaled m q num den) (hq : -1074 ≤ q) :
    RoundsTo m ((q + 1074).toNat * fractionLimit + roundDiv num den : Nat) := by
  have hden : (0 : ℚ) < den := mod_cast h.pos
  have htwo : (0 : ℚ) < 2 ^ q := zpow_pos two_pos q
  have hcast : (((q + 1074).toNat : Nat) : ℤ) - 1074 = q := by omega
  have hfloor : keyValue ((q + 1074).toNat * fractionLimit + num / den : Nat) =
      (num / den : Nat) * 2 ^ q := by
    rw [keyValue_natCast, wordValue_add h.high.le (.inl h.low), hcast]
  have hlow : keyValue ((q + 1074).toNat * fractionLimit + num / den : Nat) ≤ m := by
    rw [hfloor, h.value]
    exact mul_le_mul_of_nonneg_right Nat.cast_div_le htwo.le
  have hhigh : m < keyValue (((q + 1074).toNat * fractionLimit + num / den : Nat) + 1) := by
    have hnext : num < (num / den + 1) * den := by
      rw [Nat.mul_comm]
      exact Nat.lt_mul_div_succ num h.pos
    rw [← Nat.cast_succ, keyValue_natCast, Nat.succ_eq_add_one, Nat.add_assoc,
      wordValue_add h.high (.inl (Nat.le_succ_of_le h.low)), hcast, h.value]
    exact mul_lt_mul_of_pos_right ((div_lt_iff₀ hden).2 (mod_cast hnext)) htwo
  refine roundsTo_of_floor hlow hhigh ?_ fun hexact => ?_
  · have := roundDiv_cases num den
    omega
  · rw [hfloor, h.value, mul_left_inj' htwo.ne', eq_div_iff hden.ne'] at hexact
    have hdvd : den ∣ num := Dvd.intro_left _ (mod_cast hexact)
    rw [roundDiv_of_dvd h.pos hdvd]

theorem exists_word (negative : Bool) (m : Nat) : ∃ word : Nat, RoundsTo m word ∧
    ofRatio negative m 1 = ⟨negative, min word infinityWord⟩ := by
  obtain rfl | hm := Decidable.eq_or_ne m 0
  · have hnext : ((0 : Nat) : ℚ) < keyValue (0 + 1) := by
      rw [Nat.cast_zero, ← wordValue_zero, ← keyValue_natCast]
      exact strictMono_keyValue Int.one_pos
    refine ⟨0, roundsTo_of_floor (by simp [keyValue]) hnext (.inl rfl) fun _ => rfl, ?_⟩
    rw [Nat.zero_min]
    rfl
  refine ⟨_, (isScaled hm).roundsTo (by omega), ?_⟩
  rw [ofRatio, if_neg hm, exponentFor_one hm]
  dsimp only
  split
  · rename_i hlarge
    rw [Nat.min_eq_right hlarge]
    rfl
  · rename_i hsmall
    rw [Nat.min_eq_left (Nat.le_of_not_le hsmall)]

theorem exists_key (n : ℤ) : ∃ key, RoundsTo n key ∧
    (ofInt n).key = max (-(infinityWord : ℤ)) (min key infinityWord) := by
  cases n with
  | ofNat m =>
    obtain ⟨word, hround, hword⟩ := exists_word false m
    have hof : ofInt (.ofNat m) = ⟨false, min word infinityWord⟩ := hword
    refine ⟨word, hround, ?_⟩
    rw [hof, key, if_neg Bool.false_ne_true]
    dsimp only
    omega
  | negSucc m =>
    obtain ⟨word, hround, hword⟩ := exists_word true (m + 1)
    have hof : ofInt (.negSucc m) = ⟨true, min word infinityWord⟩ := by
      rw [ofInt, decide_eq_true (Int.negSucc_lt_zero m)]
      exact hword
    refine ⟨-word, ?_, ?_⟩
    · rw [Int.cast_negSucc]
      exact hround.neg
    · rw [hof, key, if_pos rfl]
      dsimp only
      omega

theorem isFinite_iff {x : Binary64} :
    x.isFinite = true ↔ -(infinityWord : ℤ) < x.key ∧ x.key < infinityWord := by
  rw [isFinite, decide_eq_true_eq, key]
  split <;> omega

theorem isFinite_ofInt {n : ℤ} (h : n.natAbs ≤ 2 ^ 64) : (ofInt n).isFinite = true := by
  obtain ⟨key, hround, hkey⟩ := exists_key n
  have hlarge : keyValue (1200 * fractionLimit + fractionLimit : Nat) = 2 ^ 178 := by
    rw [keyValue_natCast, wordValue_add (by simp [fractionLimit]) (.inl (Nat.le_refl _))]
    norm_num [fractionLimit]
  have hhigh : (n : ℚ) < keyValue (1200 * fractionLimit + fractionLimit : Nat) := by
    rw [hlarge]
    exact_mod_cast (show n < 2 ^ 178 by omega)
  have hlow : keyValue (-(1200 * fractionLimit + fractionLimit : Nat)) < n := by
    rw [keyValue_neg, hlarge]
    exact_mod_cast (show -2 ^ 178 < n by omega)
  have := hround.above _ hhigh
  have := hround.below _ hlow
  rw [isFinite_iff, hkey]
  simp only [fractionLimit, infinityWord] at *
  omega

/-- The integer is rounded to the double, which is another number. -/
structure Blurs (n : ℤ) (x : Binary64) : Prop where
  finite : x.isFinite = true
  rounded : (ofInt n).key = x.key
  ne : x.value ≠ n

theorem isNaN_ofInt (n : ℤ) : (ofInt n).isNaN = false := by
  obtain ⟨word, -, hword⟩ := exists_word (decide (n < 0)) n.natAbs
  rw [ofInt, hword]
  simp [isNaN]

theorem ofInt_compare?_eq {n : ℤ} {x : Binary64} (hx : x.isNaN = false) :
    (ofInt n).compare? x = some (compare (ofInt n).key x.key) := by
  rw [compare?, isNaN_ofInt, hx]
  rfl

/-- An integer is ordered exactly beside a double that it is not blurred with. -/
theorem ofInt_compare? {n : ℤ} {x : Binary64} (hx : x.isFinite = true) (h : ¬Blurs n x) :
    (ofInt n).compare? x = some (compare (n : ℚ) x.value) := by
  obtain ⟨key, hround, hkey⟩ := exists_key n
  have hbounds := isFinite_iff.1 hx
  have hne : x.value ≠ n → (ofInt n).key ≠ x.key := fun hvalue hrounded =>
    h ⟨hx, hrounded, hvalue⟩
  rw [ofInt_compare?_eq (isNaN_of_isFinite hx), Option.some.injEq]
  rw [← keyValue_key] at hne ⊢
  obtain hlt | heq | hgt := lt_trichotomy (n : ℚ) (keyValue x.key)
  · have := hround.above _ hlt
    have := hne hlt.ne'
    rw [compare_lt_iff_lt.2 hlt, compare_lt_iff_lt]
    omega
  · have := hround.exact _ heq.symm
    rw [compare_eq_iff_eq.2 heq, compare_eq_iff_eq]
    omega
  · have := hround.below _ hgt
    have := hne hgt.ne
    rw [compare_gt_iff_gt.2 hgt, compare_gt_iff_gt]
    omega

theorem Blurs.compare? {n : ℤ} {x : Binary64} (h : Blurs n x) :
    (ofInt n).compare? x = some .eq := by
  rw [ofInt_compare?_eq (isNaN_of_isFinite h.finite), compare_eq_iff_eq.2 h.rounded]

theorem compare?_swap (x y : Binary64) : y.compare? x = (x.compare? y).map Ordering.swap := by
  unfold Binary64.compare?
  rw [Bool.or_comm]
  split
  · rfl
  · rw [Option.map_some, ← cmp_eq_compare, ← cmp_eq_compare, cmp_swap]

theorem exists_wordValue_eq {m : Nat} (hm : m ≤ 2 ^ 53) : ∃ word, wordValue word = m := by
  obtain rfl | hpos := Nat.eq_zero_or_pos m
  · exact ⟨0, by simp⟩
  obtain hlt | rfl := Nat.lt_or_eq_of_le hm
  · obtain ⟨k, hk⟩ := Nat.exists_eq_add_of_le
      (Nat.lt_succ_iff.1 ((Nat.log2_lt hpos.ne').2 hlt))
    obtain ⟨hlow, hhigh⟩ := log2_mul_bounds hpos.ne' hk
    have hexponent : ((1074 - k : Nat) : ℤ) - 1074 = -(k : ℤ) := by omega
    refine ⟨(1074 - k) * fractionLimit + m * 2 ^ k, ?_⟩
    rw [wordValue_add hhigh.le (.inl hlow), hexponent, zpow_neg, zpow_natCast, Nat.cast_mul,
      Nat.cast_pow, Nat.cast_ofNat, mul_inv_cancel_right₀ (pow_ne_zero k two_ne_zero)]
  · refine ⟨1075 * fractionLimit + fractionLimit, ?_⟩
    rw [wordValue_add (by simp [fractionLimit]) (.inl (Nat.le_refl _))]
    norm_num [fractionLimit]

/-- Only an integer that is no double is blurred with one. -/
theorem Blurs.keyValue_ne {n : ℤ} {x : Binary64} (h : Blurs n x) (k : ℤ) : keyValue k ≠ n := by
  intro hk
  obtain ⟨key, hround, hkey⟩ := exists_key n
  have hbounds := isFinite_iff.1 h.finite
  have hexact := hround.exact k hk
  have hsame : x.key = k := by
    rw [h.rounded] at hkey
    omega
  exact h.ne (by rw [← keyValue_key, hsame, hk])

theorem Blurs.lt_natAbs {n : ℤ} {x : Binary64} (h : Blurs n x) : 2 ^ 53 < n.natAbs := by
  by_contra hsmall
  obtain ⟨word, hvalue⟩ := exists_wordValue_eq (Nat.le_of_not_lt hsmall)
  obtain hsign | hsign := n.natAbs_eq
  · refine h.keyValue_ne word ?_
    rw [keyValue_natCast, hvalue, hsign]
    simp
  · refine h.keyValue_ne (-word) ?_
    rw [keyValue_neg, keyValue_natCast, hvalue, hsign]
    simp

theorem abs_value (x : Binary64) : |x.value| = x.significand * 2 ^ x.exponent := by
  have hnonneg : (0 : ℚ) ≤ x.significand * 2 ^ x.exponent :=
    mul_nonneg (Nat.cast_nonneg _) (zpow_nonneg zero_le_two _)
  rw [value]
  split
  · rw [neg_one_mul, abs_neg, abs_of_nonneg hnonneg]
  · rw [one_mul, abs_of_nonneg hnonneg]

theorem isIntegral_eq_true {x : Binary64} : x.isIntegral = true ↔
    x.isFinite = true ∧ (0 ≤ x.exponent ∨ 2 ^ (-x.exponent).toNat ∣ x.significand) := by
  rw [isIntegral, Bool.and_eq_true, Bool.or_eq_true, decide_eq_true_eq, beq_iff_eq, Nat.pow_eq,
    Nat.dvd_iff_mod_eq_zero]

theorem two_zpow_of_nonneg {e : ℤ} (h : 0 ≤ e) : (2 : ℚ) ^ e = (2 ^ e.toNat : Nat) := by
  rw [Nat.cast_pow, Nat.cast_ofNat, ← zpow_natCast, Int.toNat_of_nonneg h]

theorem two_zpow_of_nonpos {e : ℤ} (h : e ≤ 0) : (2 : ℚ) ^ e = ((2 ^ (-e).toNat : Nat) : ℚ)⁻¹ := by
  rw [Nat.cast_pow, Nat.cast_ofNat, ← zpow_natCast, Int.toNat_of_nonneg (by omega), zpow_neg, inv_inv]

theorem truncate_of_isIntegral {x : Binary64} (h : x.isIntegral = true) :
    (x.truncate : ℚ) = x.value := by
  have hsize : ((if 0 ≤ x.exponent then x.significand * 2 ^ x.exponent.toNat
      else x.significand / 2 ^ (-x.exponent).toNat : Nat) : ℚ) = x.significand * 2 ^ x.exponent := by
    split
    · rename_i hexponent
      rw [Nat.cast_mul, two_zpow_of_nonneg hexponent]
    · rename_i hexponent
      have hdvd := (isIntegral_eq_true.1 h).2.resolve_left hexponent
      rw [two_zpow_of_nonpos (by omega), ← div_eq_mul_inv,
        Nat.cast_div hdvd (Nat.cast_ne_zero.2 (Nat.two_pow_pos _).ne')]
  simp only [truncate, value, Nat.pow_eq]
  split
  · rw [Int.cast_neg, Int.cast_natCast, hsize, neg_one_mul]
  · rw [Int.cast_natCast, hsize, one_mul]

theorem isIntegral_iff {x : Binary64} (hx : x.isFinite = true) :
    x.isIntegral = true ↔ ∃ n : ℤ, x.value = n := by
  refine ⟨fun h => ⟨x.truncate, (truncate_of_isIntegral h).symm⟩, ?_⟩
  rintro ⟨n, hn⟩
  refine isIntegral_eq_true.2 ⟨hx, or_iff_not_imp_left.2 fun hexponent => ?_⟩
  have habs := x.abs_value
  rw [hn, two_zpow_of_nonpos (by omega),
    eq_mul_inv_iff_mul_eq₀ (Nat.cast_ne_zero.2 (Nat.two_pow_pos _).ne'), ← Int.cast_abs,
    ← Nat.cast_natAbs] at habs
  exact Dvd.intro_left n.natAbs (mod_cast habs)

end QueryDomain.Binary64
