/-! Rounding a quotient to a given number of significant bits, ties to even. A rounded number is a
fixed point of rounding (`nearest_nearest`). -/
namespace Pedigree

/-- The whole number nearest to `num / den`; a tie goes to the even neighbour. -/
def roundHalfEven (num den : Nat) : Nat :=
  let q := num / den
  let twice := 2 * (num % den)
  if twice < den then q else if den < twice then q + 1 else q + q % 2

/-- The number with at most `bits` significant bits nearest to `num / den`. -/
def nearest (bits num den : Nat) : Nat :=
  let spacing := Nat.pow 2 ((num / den).log2 + 1 - bits)
  roundHalfEven num (den * spacing) * spacing

theorem two_pow_pos (n : Nat) : 0 < Nat.pow 2 n := Nat.two_pow_pos n

theorem roundHalfEven_of_dvd {num den : Nat} (hd : 0 < den) (h : den ∣ num) :
    roundHalfEven num den = num / den := by
  simp [roundHalfEven, Nat.mod_eq_zero_of_dvd h, hd]

theorem roundHalfEven_le {num den bound : Nat} (hd : 0 < den) (h : num ≤ bound * den) :
    roundHalfEven num den ≤ bound := by
  have hq : num / den ≤ bound := Nat.div_le_of_le_mul (by rw [Nat.mul_comm]; exact h)
  have hm := Nat.div_add_mod num den
  have hlt := Nat.mod_lt num hd
  unfold roundHalfEven
  by_cases he : num / den = bound
  · have : num % den = 0 := by
      rw [he] at hm
      have := Nat.mul_comm den bound
      omega
    simp [this, hd, he]
  · simp only
    split
    · exact hq
    · split <;> omega

theorem div_lt_two_pow (num den bits : Nat) (hd : 0 < den) :
    num < Nat.pow 2 bits * (den * Nat.pow 2 ((num / den).log2 + 1 - bits)) := by
  simp only [Nat.pow_eq]
  have hlt : num / den < 2 ^ ((num / den).log2 + 1) := by
    by_cases h0 : num / den = 0
    · rw [h0]; exact Nat.two_pow_pos _
    · exact (Nat.log2_lt h0).1 (Nat.lt_succ_self _)
  have hle : 2 ^ ((num / den).log2 + 1) ≤ 2 ^ (bits + ((num / den).log2 + 1 - bits)) :=
    Nat.pow_le_pow_right (by decide) (by omega)
  rw [Nat.pow_add 2 bits] at hle
  have := (Nat.div_lt_iff_lt_mul hd).1 (Nat.lt_of_lt_of_le hlt hle)
  calc num < _ := this
    _ = _ := by ac_rfl

theorem nearest_nearest (bits num den : Nat) (hb : 0 < bits) (hd : 0 < den) :
    nearest bits (nearest bits num den) 1 = nearest bits num den := by
  generalize hs : (num / den).log2 + 1 - bits = s
  have hr : roundHalfEven num (den * 2 ^ s) ≤ 2 ^ bits := by
    apply roundHalfEven_le (Nat.mul_pos hd (Nat.two_pow_pos s))
    have := div_lt_two_pow num den bits hd
    rw [hs] at this
    exact Nat.le_of_lt this
  have hn : nearest bits num den = roundHalfEven num (den * 2 ^ s) * 2 ^ s := by
    simp [nearest, hs]
  rw [hn]
  generalize roundHalfEven num (den * 2 ^ s) = r at hr
  have hdvd : 2 ^ ((r * 2 ^ s).log2 + 1 - bits) ∣ r * 2 ^ s := by
    by_cases hr0 : r = 0
    · simp [hr0]
    have hpos : r * 2 ^ s ≠ 0 := Nat.mul_ne_zero hr0 (Nat.ne_of_gt (Nat.two_pow_pos s))
    by_cases he : r = 2 ^ bits
    · subst he
      rw [← Nat.pow_add, Nat.log2_two_pow]
      exact Nat.pow_dvd_pow 2 (by omega)
    · have hlt : r * 2 ^ s < 2 ^ (bits + s) := by
        rw [Nat.pow_add]
        exact Nat.mul_lt_mul_of_pos_right (by omega) (Nat.two_pow_pos s)
      have := (Nat.log2_lt hpos).2 hlt
      exact Nat.dvd_trans (Nat.pow_dvd_pow 2 (by omega)) (Nat.dvd_mul_left _ _)
  unfold nearest
  simp only [Nat.div_one, Nat.one_mul, Nat.pow_eq]
  rw [roundHalfEven_of_dvd (Nat.two_pow_pos _) hdvd, Nat.div_mul_cancel hdvd]

end Pedigree
