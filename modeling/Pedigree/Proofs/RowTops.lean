import Mathlib
import Pedigree.Proofs.Enclosing

/-! The tops of rows in the default style. They are sums of single precision numbers and so get
rounded far down, but never to a step that is smaller than a person is high: once the sums are too
coarse for that, they stop growing. -/
namespace Pedigree

open Checked Drawing

theorem roundHalfEven_near (num : Nat) {den : Nat} (hd : 0 < den) :
    2 * num ≤ 2 * (roundHalfEven num den * den) + den ∧
      2 * (roundHalfEven num den * den) ≤ 2 * num + den := by
  have hm := Nat.div_add_mod num den
  have hlt := Nat.mod_lt num hd
  rw [Nat.mul_comm] at hm
  have hsucc : (num / den + 1) * den = num / den * den + den := Nat.succ_mul _ _
  unfold roundHalfEven
  dsimp only
  split
  · omega
  split
  · omega
  · obtain h | h : num / den % 2 = 0 ∨ num / den % 2 = 1 := by omega
    · rw [h, Nat.add_zero]
      omega
    · rw [h]
      omega

namespace Binary32

theorem nearest_near (n : Nat) : 2 * n ≤ 2 * nearest precision n 1 + 2 ^ (n.log2 + 1 - 24) ∧
    2 ^ (n.log2 + 1 - 24) ∣ nearest precision n 1 := by
  have he : nearest precision n 1 =
      roundHalfEven n (2 ^ (n.log2 + 1 - 24)) * 2 ^ (n.log2 + 1 - 24) := by
    unfold nearest precision
    simp only [Nat.div_one, Nat.one_mul, Nat.pow_eq]
  rw [he]
  exact ⟨(roundHalfEven_near n (Nat.two_pow_pos _)).1, Nat.dvd_mul_left _ _⟩

theorem dvd_of_rounded {a : Nat} (ha : nearest precision a 1 = a) {k : Nat}
    (hk : k ≤ a.log2 + 1 - 24) : 2 ^ k ∣ a := by
  have h := (nearest_near a).2
  rw [ha] at h
  exact Nat.dvd_trans (Nat.pow_dvd_pow 2 hk) h

/-- Adding 55 to a number changes nothing or makes it greater by 30 at least. -/
theorem nearest_add_row {a : Nat} (ha : nearest precision a 1 = a) :
    nearest precision (a + 55 * one) 1 = a ∨
      a + 30 * one ≤ nearest precision (a + 55 * one) 1 := by
  have hone := one_pos
  have hpow : one = 2 ^ 149 := rfl
  obtain ⟨hnear, hdvd⟩ := nearest_near (a + 55 * one)
  generalize hn : a + 55 * one = n at hnear hdvd ⊢
  generalize nearest precision n 1 = r at hnear hdvd ⊢
  have hn0 : n ≠ 0 := by omega
  -- Steps of at most `2 ^ 5` are fine enough to lose less than 25 of the 55.
  by_cases hs : n.log2 + 1 - 24 ≤ 154
  · have hstep : 2 ^ (n.log2 + 1 - 24) ≤ 32 * one := by
      have := Nat.pow_le_pow_right (by decide : 0 < 2) hs
      rw [hpow]
      exact this
    omega
  · -- The number is a multiple of half a step, so it is missed by half a step at least.
    obtain ⟨s, hs'⟩ : ∃ s, n.log2 + 1 - 24 = s + 1 := ⟨n.log2 + 1 - 24 - 1, by omega⟩
    have hhalf : 32 * one ≤ 2 ^ s := by
      have := Nat.pow_le_pow_right (by decide : 0 < 2) (by omega : 154 ≤ s)
      rw [hpow]
      exact this
    have hlow : 2 ^ n.log2 ≤ n := (Nat.le_log2 hn0).1 (Nat.le_refl _)
    have hlog : n.log2 = (n.log2 - 1) + 1 := by omega
    have hbig : 2 ^ 178 ≤ 2 ^ n.log2 := Nat.pow_le_pow_right (by decide) (by omega)
    have hbig' : 2 ^ 178 = 536870912 * one := Nat.pow_add 2 29 149
    have htwo : 2 ^ n.log2 = 2 * 2 ^ (n.log2 - 1) := by
      rw [hlog, Nat.pow_succ, Nat.add_sub_cancel, Nat.mul_comm]
    have ha0 : a ≠ 0 := by omega
    have halog : n.log2 - 1 ≤ a.log2 := (Nat.le_log2 ha0).2 (by omega)
    obtain ⟨q, hq⟩ := dvd_of_rounded ha (by omega : s ≤ a.log2 + 1 - 24)
    rw [hs', Nat.pow_succ] at hnear hdvd
    obtain ⟨p, hp⟩ := hdvd
    rw [Nat.mul_assoc] at hp
    generalize 2 ^ s = h at hhalf hq hnear hp
    subst hq hp
    have hqp : q ≤ 2 * p := by
      refine Nat.le_of_lt_succ (Nat.lt_of_mul_lt_mul_left (a := h) ?_)
      rw [Nat.mul_succ]
      omega
    obtain rfl | hlt := Nat.eq_or_lt_of_le hqp
    · exact Or.inl rfl
    · have hle := Nat.mul_le_mul_left h hlt
      rw [Nat.succ_eq_add_one, Nat.mul_succ] at hle
      exact Or.inr (by omega)

def Plain (x : Binary32) : Prop := (∃ m, x = finite false m) ∨ x = infinite false

/-- The second number is the first one, or it is greater by 30 at least, or infinite. -/
def Rises (x y : Binary32) : Prop :=
  y = x ∨ (∃ m n, x = finite false m ∧ y = finite false n ∧ m.units + 30 * one ≤ n.units) ∨
    y = infinite false

theorem plain_add_row {x h : Binary32} (hx : x.Plain) (hh : h.IsWhole 55) :
    (x + h).Plain ∧ x.Rises (x + h) := by
  obtain ⟨s, b, rfl, hb⟩ := hh
  obtain ⟨m, rfl⟩ | rfl := hx
  · have he : finite false m + finite s b = Binary32.add (finite false m) (finite s b) := rfl
    have hone := one_pos
    have hsum : signed false m + signed s b = (m.units + 55 * one : Nat) := by
      rw [hb, Int.natCast_add, Int.natCast_mul]
      rfl
    rw [he]
    unfold Binary32.add
    dsimp only
    rw [hsum, if_neg (by omega), decide_eq_false (by omega), Int.natAbs_natCast]
    unfold ofUnits
    split
    · refine ⟨Or.inl ⟨_, rfl⟩, ?_⟩
      obtain hr | hr := nearest_add_row m.rounded
      · refine Or.inl ?_
        congr 1
        cases m
        congr 1
      · exact Or.inr (Or.inl ⟨m, _, rfl, rfl, hr⟩)
    · exact ⟨Or.inr rfl, Or.inr (Or.inr rfl)⟩
  · exact ⟨Or.inr rfl, Or.inl rfl⟩

theorem Rises.trans {x y z : Binary32} (h : x.Rises y) (h' : y.Rises z)
    (hz : y = infinite false → z = infinite false) : x.Rises z := by
  obtain rfl | ⟨m, n, rfl, rfl, hle⟩ | rfl := h
  · exact h'
  · obtain rfl | ⟨m', n', he, rfl, hle'⟩ | rfl := h'
    · exact Or.inr (Or.inl ⟨m, n, rfl, rfl, hle⟩)
    · cases he
      exact Or.inr (Or.inl ⟨m, n', rfl, rfl, by omega⟩)
    · exact Or.inr (Or.inr rfl)
  · exact Or.inr (Or.inr (hz rfl))

theorem round_le (x : Binary32) : Scalar.round x ≤ 2147483647 := by
  have he : Scalar.round x = toWhole (fun u => (2 * u + one) / (2 * one)) x := rfl
  rw [he]
  unfold toWhole saturate
  cases x with
  | nan => decide
  | infinite s => cases s <;> decide
  | finite s a =>
    dsimp only
    omega

theorem round_of_rises {x y : Binary32} (h : x.Rises y) : Scalar.round y = Scalar.round x ∨
    Scalar.round x + 30 ≤ Scalar.round y ∨ Scalar.round y = 2147483647 := by
  obtain rfl | ⟨m, n, rfl, rfl, hle⟩ | rfl := h
  · exact Or.inl rfl
  · have hround (m : Magnitude) : Scalar.round (finite false m) =
        saturate ((2 * m.units + one) / (2 * one) : Nat) := rfl
    have hone := one_pos
    have hq : (2 * m.units + one) / (2 * one) + 30 ≤ (2 * n.units + one) / (2 * one) := by
      rw [← Nat.add_mul_div_right _ _ (by omega : 0 < 2 * one)]
      exact Nat.div_le_div_right (by omega)
    rw [hround, hround]
    generalize (2 * m.units + one) / (2 * one) = a at hq ⊢
    generalize (2 * n.units + one) / (2 * one) = c at hq ⊢
    unfold saturate
    omega
  · exact Or.inr (Or.inr rfl)

end Binary32

/-- The tops of the rows of a tree in the default style. -/
def rowTop : Nat → Binary32
  | 0 => Scalar.zero
  | d + 1 => rowTop d + (default : Style Binary32).nodeHeight

theorem isWhole_rowHeight : (default : Style Binary32).nodeHeight.IsWhole 55 := by
  have hh : (default : Style Binary32).personHeight.IsWhole (30 : Nat) :=
    @Binary32.isWhole_ofInt 30 (by decide)
  exact @Layout.isWhole_nodeHeight default 30 25 hh rfl (by decide)

theorem rowTop_plain (d : Nat) : (rowTop d).Plain := by
  induction d with
  | zero => exact Or.inl ⟨_, Binary32.scalar_zero⟩
  | succ d ih => exact (Binary32.plain_add_row ih isWhole_rowHeight).1

theorem infinite_add_row {h : Binary32} (hh : h.IsWhole 55) :
    Binary32.infinite false + h = Binary32.infinite false := by
  obtain ⟨s, b, rfl, -⟩ := hh
  rfl

/-- Tops further down are the same, or lower by the height of a person at least, or infinite. -/
theorem rowTop_rises (d k : Nat) : (rowTop d).Rises (rowTop (d + k)) := by
  induction k with
  | zero => exact Or.inl rfl
  | succ k ih =>
    refine ih.trans (Binary32.plain_add_row (rowTop_plain (d + k)) isWhole_rowHeight).2 ?_
    intro he
    have hs : rowTop (d + (k + 1)) = rowTop (d + k) + (default : Style Binary32).nodeHeight := rfl
    rw [hs, he]
    exact infinite_add_row isWhole_rowHeight

theorem round_rowTop_nonneg (d : Nat) : 0 ≤ Scalar.round (rowTop d) := by
  refine Binary32.round_nonneg ?_
  obtain ⟨m, he⟩ | he := rowTop_plain d
  · rw [he]
    exact Binary32.notBelow_finite.2 (Int.natCast_nonneg _)
  · rw [he]
    exact Binary32.notBelow_infinite.2 rfl

/-- Rows that start in different places within the 32-bit range leave room for a person. -/
theorem room_of_rowTop_lt {d e : Nat} (hlt : Scalar.round (rowTop d) < Scalar.round (rowTop e))
    (he : Scalar.round (rowTop e) < 2147483647) :
    Scalar.round (rowTop d) + 30 ≤ Scalar.round (rowTop e) := by
  obtain hde | hed := Nat.le_total d e
  · obtain ⟨k, rfl⟩ := Nat.exists_eq_add_of_le hde
    obtain h | h | h := Binary32.round_of_rises (rowTop_rises d k) <;> omega
  · obtain ⟨k, rfl⟩ := Nat.exists_eq_add_of_le hed
    have := Binary32.round_le (rowTop e)
    obtain h | h | h := Binary32.round_of_rises (rowTop_rises e k) <;> omega

theorem exists_rowTop_of_mem_nodes {ratio : Binary32} {b : Branch} {n : Tidy.Node Binary32 Nat}
    (hn : n ∈ Subtree.nodes (default : Style Binary32) ratio b) : ∃ d, n.y = rowTop d := by
  obtain ⟨d, -, hd⟩ := Subtree.top_of_mem_nodes (default : Style Binary32) ratio
    (P := fun d y => y = rowTop d) rfl (fun d y hy => by rw [hy]; rfl) hn
  exact ⟨d, hd⟩

end Pedigree
