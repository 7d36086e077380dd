import Pedigree.Number.Binary32

/-! Single precision numbers that are not below zero: sums of such numbers are no lower, and they
round to whole numbers that are not negative. -/
namespace Pedigree

namespace Binary32

theorem one_pos : 0 < one := Nat.two_pow_pos 149

theorem nearest_zero (bits den : Nat) : nearest bits 0 den = 0 := by
  simp [nearest, roundHalfEven]

theorem zero_lt_limit : 0 < limit := Nat.mul_pos (Nat.two_pow_pos 128) one_pos

theorem scalar_zero : (Scalar.zero : Binary32) = zero := by
  have h : nearest precision (Int.natAbs 0 * one) 1 = 0 := by
    rw [Int.natAbs_zero, Nat.zero_mul, nearest_zero]
  have hz : ofUnits (decide ((0 : Int) < 0)) (Int.natAbs 0 * one) 1 (by decide) = zero := by
    unfold ofUnits
    rw [dif_pos (by rw [h]; exact zero_lt_limit)]
    simp only [h]
    rfl
  exact hz

/-- No number below zero; a NaN counts among them. -/
def NotBelow (x : Binary32) : Prop := x.lt zero = false

instance (x : Binary32) : Decidable x.NotBelow := inferInstanceAs (Decidable (_ = false))

theorem signed_zero (s : Bool) : signed s .zero = 0 := by
  cases s <;> rfl

theorem notBelow_finite {s : Bool} {m : Magnitude} : NotBelow (finite s m) ↔ 0 ≤ signed s m := by
  have he : (finite s m).lt zero = decide (signed s m < signed false .zero) := rfl
  rw [NotBelow, he, signed_zero, decide_eq_false_iff_not, Int.not_lt]

theorem notBelow_infinite {s : Bool} : NotBelow (infinite s) ↔ s = false := Iff.rfl

theorem notBelow_nan : NotBelow nan := rfl

theorem notBelow_zero : NotBelow zero := notBelow_finite.2 (Int.le_of_eq (signed_zero false).symm)

theorem notBelow_scalar_zero : NotBelow (Scalar.zero : Binary32) := by
  rw [scalar_zero]
  exact notBelow_zero

theorem notBelow_ofUnits (num den : Nat) (hd : 0 < den) : NotBelow (ofUnits false num den hd) := by
  unfold ofUnits
  split
  · exact notBelow_finite.2 (Int.natCast_nonneg _)
  · exact notBelow_infinite.2 rfl

theorem notBelow_ofInt {n : Int} (hn : 0 ≤ n) : NotBelow (ofInt n) := by
  unfold ofInt
  rw [decide_eq_false (Int.not_lt.2 hn)]
  exact notBelow_ofUnits _ _ _

theorem NotBelow.add {x y : Binary32} (hx : NotBelow x) (hy : NotBelow y) : NotBelow (x + y) := by
  have he : x + y = Binary32.add x y := rfl
  rw [he]
  cases x with
  | nan => cases y <;> exact notBelow_nan
  | infinite s =>
    have hs := notBelow_infinite.1 hx
    cases y with
    | nan => exact notBelow_nan
    | infinite t =>
      have ht := notBelow_infinite.1 hy
      subst hs ht
      exact hx
    | finite t b => exact hx
  | finite s a =>
    cases y with
    | nan => exact notBelow_nan
    | infinite t => exact hy
    | finite t b =>
      have ha := notBelow_finite.1 hx
      have hb := notBelow_finite.1 hy
      unfold Binary32.add
      dsimp only
      split
      · exact notBelow_finite.2 (Int.le_of_eq (signed_zero _).symm)
      · rw [decide_eq_false (Int.not_lt.2 (Int.add_nonneg ha hb))]
        exact notBelow_ofUnits _ _ _

/-- A zero is not below zero, whatever its sign. -/
theorem notBelow_ofUnits_zero (s : Bool) {den : Nat} (hd : 0 < den) :
    NotBelow (ofUnits s 0 den hd) := by
  have h : nearest precision 0 den = 0 := nearest_zero _ _
  unfold ofUnits
  rw [dif_pos (by rw [h]; exact zero_lt_limit)]
  simp only [h]
  exact notBelow_finite.2 (Int.le_of_eq (signed_zero s).symm)

theorem units_eq_zero_or_of_notBelow {s : Bool} {m : Magnitude} (h : NotBelow (finite s m)) :
    m.units = 0 ∨ s = false := by
  have hs := notBelow_finite.1 h
  cases s with
  | false => exact .inr rfl
  | true =>
    unfold signed at hs
    simp only [↓reduceIte] at hs
    exact .inl (by omega)

theorem NotBelow.mul {x y : Binary32} (hx : NotBelow x) (hy : NotBelow y) : NotBelow (x * y) := by
  have he : x * y = Binary32.mul x y := rfl
  rw [he]
  cases x with
  | nan => cases y <;> exact notBelow_nan
  | infinite s =>
    have hs := notBelow_infinite.1 hx
    subst hs
    cases y with
    | nan => exact notBelow_nan
    | infinite t =>
      have ht := notBelow_infinite.1 hy
      subst ht
      exact notBelow_infinite.2 rfl
    | finite t b =>
      unfold Binary32.mul
      dsimp only
      split
      · exact notBelow_nan
      · next hb =>
        rw [(units_eq_zero_or_of_notBelow hy).resolve_left hb]
        exact notBelow_infinite.2 rfl
  | finite s a =>
    cases y with
    | nan => exact notBelow_nan
    | infinite t =>
      have ht := notBelow_infinite.1 hy
      subst ht
      unfold Binary32.mul
      dsimp only
      split
      · exact notBelow_nan
      · next ha =>
        rw [(units_eq_zero_or_of_notBelow hx).resolve_left ha]
        exact notBelow_infinite.2 rfl
    | finite t b =>
      unfold Binary32.mul
      dsimp only
      by_cases hab : a.units * b.units = 0
      · rw [hab]
        exact notBelow_ofUnits_zero _ _
      · obtain ⟨ha, hb⟩ := not_or.1 (mt Nat.mul_eq_zero.2 hab)
        rw [(units_eq_zero_or_of_notBelow hx).resolve_left ha,
          (units_eq_zero_or_of_notBelow hy).resolve_left hb]
        exact notBelow_ofUnits _ _ _

/-- A reading of counts that takes nothing to zero, takes what is not below zero to whole numbers
that are not negative. -/
theorem toWhole_nonneg {whole : Nat → Nat} (h : whole 0 = 0) {x : Binary32} (hx : NotBelow x) :
    0 ≤ toWhole whole x := by
  cases x with
  | nan => exact Int.le_refl 0
  | infinite s =>
    have hs := notBelow_infinite.1 hx
    subst hs
    exact Int.zero_le_ofNat 2147483647
  | finite s a =>
    have ha := notBelow_finite.1 hx
    unfold toWhole saturate
    cases s with
    | false =>
      dsimp only
      generalize whole a.units = u
      simp only [Bool.false_eq_true, ↓reduceIte]
      omega
    | true =>
      have hu : a.units = 0 := by
        unfold signed at ha
        simp only [↓reduceIte] at ha
        omega
      simp only [hu, h, ↓reduceIte]
      decide

theorem round_nonneg {x : Binary32} (hx : NotBelow x) : 0 ≤ Scalar.round x := by
  have hone := one_pos
  have he : Scalar.round x = toWhole (fun u => (2 * u + one) / (2 * one)) x := rfl
  have hzero : (2 * 0 + one) / (2 * one) = 0 := Nat.div_eq_of_lt (by omega)
  rw [he]
  exact @toWhole_nonneg (fun u => (2 * u + one) / (2 * one)) hzero x hx

theorem trunc_nonneg {x : Binary32} (hx : NotBelow x) : 0 ≤ Scalar.trunc x := by
  have he : Scalar.trunc x = toWhole (fun u => u / one) x := rfl
  rw [he]
  exact toWhole_nonneg (Nat.zero_div one) hx

def IsWhole (x : Binary32) (n : Int) : Prop := ∃ s m, x = finite s m ∧ signed s m = n * one

/-- A whole number that is not negative rounds to itself, within the 32-bit range. -/
theorem round_of_isWhole {x : Binary32} {n : Nat} (h : x.IsWhole n) :
    Scalar.round x = min (n : Int) 2147483647 := by
  obtain ⟨s, m, rfl, hm⟩ := h
  have he : Scalar.round (finite s m) =
    saturate (if s then -(((2 * m.units + one) / (2 * one) : Nat) : Int)
      else ((2 * m.units + one) / (2 * one) : Nat)) := rfl
  have hone := one_pos
  rw [he]
  have hu : m.units = n * one ∧ (s = true → n = 0) := by
    unfold signed at hm
    cases s with
    | false =>
      simp only [Bool.false_eq_true, ↓reduceIte] at hm
      exact ⟨by exact_mod_cast hm, fun h => absurd h (by simp)⟩
    | true =>
      simp only [↓reduceIte] at hm
      have hz : n * one = 0 := by
        have : (0 : Int) ≤ (n * one : Nat) := Int.natCast_nonneg _
        push_cast at this
        omega
      have hn : n = 0 := by
        obtain h | h := Nat.mul_eq_zero.1 hz
        · exact h
        · omega
      subst hn
      exact ⟨by omega, fun _ => rfl⟩
  have hq : (2 * m.units + one) / (2 * one) = n := by
    rw [hu.1]
    generalize one = u at hone
    rw [Nat.div_eq_iff (by omega)]
    constructor
    · rw [Nat.mul_left_comm]
      omega
    · rw [Nat.mul_left_comm]
      omega
  rw [hq]
  cases s with
  | false =>
    simp only [Bool.false_eq_true, ↓reduceIte, saturate]
    omega
  | true =>
    have hn := hu.2 rfl
    subst hn
    decide

/-- Counts of whole numbers are not rounded as long as they fit into 24 bits. -/
theorem nearest_whole {n : Nat} (h : n ≤ 16777216) :
    nearest precision (n * one) 1 = n * one := by
  have hone : one = 2 ^ 149 := rfl
  have hd : 2 ^ ((n * one).log2 + 1 - precision) ∣ n * one := by
    rw [hone]
    by_cases h0 : n = 0
    · subst h0
      rw [Nat.zero_mul]
      exact Nat.dvd_zero _
    by_cases he : n = 2 ^ 24
    · subst he
      rw [← Nat.pow_add, Nat.log2_two_pow]
      exact Nat.pow_dvd_pow 2 (by decide)
    · have hlt : n * 2 ^ 149 < 2 ^ (24 + 149) := by
        rw [Nat.pow_add]
        exact Nat.mul_lt_mul_of_pos_right (by omega) (Nat.two_pow_pos 149)
      have hne : n * 2 ^ 149 ≠ 0 := Nat.mul_ne_zero h0 (Nat.ne_of_gt (Nat.two_pow_pos 149))
      have hlog := (Nat.log2_lt hne).2 hlt
      have hp : precision = 24 := rfl
      exact Nat.dvd_trans (Nat.pow_dvd_pow 2 (by omega)) (Nat.dvd_mul_left _ _)
  unfold nearest
  simp only [Nat.div_one, Nat.one_mul, Nat.pow_eq]
  rw [roundHalfEven_of_dvd (Nat.two_pow_pos _) hd, Nat.div_mul_cancel hd]

theorem isWhole_ofUnits {n : Nat} (h : n ≤ 16777216) (hd : 0 < 1) :
    IsWhole (ofUnits false (n * one) 1 hd) n := by
  have hn := nearest_whole h
  have hlt : nearest precision (n * one) 1 < limit := by
    rw [hn]
    exact Nat.mul_lt_mul_of_pos_right (Nat.lt_of_le_of_lt h (by decide)) one_pos
  refine ⟨false, ⟨nearest precision (n * one) 1, nearest_nearest _ _ _ (by decide) hd, hlt⟩,
    dif_pos hlt, ?_⟩
  have he : signed false ⟨nearest precision (n * one) 1, nearest_nearest _ _ _ (by decide) hd,
    hlt⟩ = (nearest precision (n * one) 1 : Nat) := rfl
  rw [he, hn]
  exact Int.natCast_mul n one

theorem isWhole_ofInt {n : Nat} (h : n ≤ 16777216) : IsWhole (ofInt n) n := by
  unfold ofInt
  rw [decide_eq_false (Int.not_lt.2 (Int.natCast_nonneg n)), Int.natAbs_natCast]
  exact isWhole_ofUnits h _

/-- Whole numbers are added exactly as long as the sum fits into 24 bits. -/
theorem IsWhole.add {x y : Binary32} {n m : Nat} (hx : x.IsWhole n) (hy : y.IsWhole m)
    (h : n + m ≤ 16777216) : (x + y).IsWhole (n + m : Nat) := by
  obtain ⟨s, a, rfl, ha⟩ := hx
  obtain ⟨t, b, rfl, hb⟩ := hy
  have he : finite s a + finite t b = Binary32.add (finite s a) (finite t b) := rfl
  have hsum : signed s a + signed t b = ((n + m) * one : Nat) := by
    rw [ha, hb, Nat.add_mul, Int.natCast_add, Int.natCast_mul, Int.natCast_mul]
  rw [he]
  unfold Binary32.add
  dsimp only
  split
  · next hz =>
    rw [hsum] at hz
    obtain h0 | h0 := Nat.mul_eq_zero.1 (Int.ofNat_eq_zero.1 hz)
    · rw [h0]
      exact ⟨s && t, .zero, rfl, by rw [signed_zero, Int.natCast_zero, Int.zero_mul]⟩
    · exact absurd h0 (Nat.ne_of_gt one_pos)
  · rw [hsum, decide_eq_false (Int.not_lt.2 (Int.natCast_nonneg _)), Int.natAbs_natCast]
    exact isWhole_ofUnits h _

end Binary32

end Pedigree
