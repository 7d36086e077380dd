import Pedigree.Proofs.Relayout

/-! The contour that arranging a tree gives is exact: it has an entry for each depth of the tree, which
is how far the nodes of this depth go to both sides of the root, wherever the tree is placed and whatever
it is a part of. -/
namespace Pedigree

namespace Tidy

variable {α : Type}

/-! ### Depths -/

section Depths

variable {S : Type} [Scalar S]

theorem length_shift (by_ : S) (c : Contour S) : (Contour.shift by_ c).length = c.length :=
  List.length_map _

theorem length_join (p q : Contour S) :
    (Contour.join p q).length = max p.length q.length := by
  induction p generalizing q with
  | nil => simp [Contour.join]
  | cons a p ih =>
    cases q with
    | nil => simp [Contour.join]
    | cons b q => rw [Contour.join, List.length_cons, ih, List.length_cons, List.length_cons,
        Nat.add_max_add_right]

mutual

theorem length_arrange : (n : Node S α) → (arrange n).2.length = n.levels
  | ⟨payload, width, height, x, y, offset, children⟩ => by
    rw [arrange, Node.levels]
    dsimp only
    rw [List.length_cons, List.length_map, length_arrangeAll, List.length_nil, Nat.zero_max]

theorem length_arrangeAll (others : Contour S) : (ns : List (Node S α)) →
    (arrangeAll others ns).2.length = max others.length (Node.levelsAll ns)
  | [] => by rw [arrangeAll, Node.levelsAll, Nat.max_zero]
  | n :: ns => by
    rw [arrangeAll, Node.levelsAll]
    dsimp only
    rw [length_arrangeAll _ ns, length_join, length_shift, length_arrange n, Nat.max_assoc]

end

end Depths

/-! ### Extremes -/

/-- A contour says of each depth of a placed tree how far its nodes go, seen from the root. -/
structure Node.Extremes (t : Node ℚ α) (p : Contour ℚ) : Prop where
  length : p.length = t.levels
  left : ∀ d e, p[d]? = some e → IsLeast (leftsAt [t] d) (t.x + e.1)
  right : ∀ d e, p[d]? = some e → IsGreatest (rightsAt [t] d) (t.x + e.2)

section Places

variable {x y q : ℚ} {d : Nat} {n : Node ℚ α}

theorem place_singleton (x y : ℚ) (n : Node ℚ α) :
    [place x y n] = placeAll (x - n.offset) y [n] := by
  rw [placeAll, placeAll, sub_add_cancel]

theorem mem_leftsAt_place :
    q ∈ leftsAt [place x y n] d ↔ ∃ s ∈ spots n, s.depth = d ∧ x + s.left = q := by
  rw [place_singleton, mem_leftsAt_placeAll, spotsAll_singleton]
  simp [Spot.shift, sub_add_add_cancel]

theorem mem_rightsAt_place :
    q ∈ rightsAt [place x y n] d ↔ ∃ s ∈ spots n, s.depth = d ∧ x + s.right = q := by
  rw [place_singleton, mem_rightsAt_placeAll, spotsAll_singleton]
  simp [Spot.shift, sub_add_add_cancel]

/-- A contour that goes around the spots of a tree and no further is exact, wherever the tree is. -/
theorem Hugs.isLeast {p : Contour ℚ} (h : Hugs p (spots n)) {e : ℚ × ℚ} (he : p[d]? = some e) :
    IsLeast (leftsAt [place x y n] d) (x + e.1) := by
  constructor
  · obtain ⟨s, hs, hd, hl⟩ := h.left d e he
    exact mem_leftsAt_place.mpr ⟨s, hs, hd, congrArg (x + ·) hl⟩
  · intro q hq
    obtain ⟨s, hs, rfl, rfl⟩ := mem_leftsAt_place.mp hq
    obtain ⟨e', he', hl, -⟩ := h.reaches s hs
    cases he.symm.trans he'
    exact add_le_add_right hl x

theorem Hugs.isGreatest {p : Contour ℚ} (h : Hugs p (spots n)) {e : ℚ × ℚ} (he : p[d]? = some e) :
    IsGreatest (rightsAt [place x y n] d) (x + e.2) := by
  constructor
  · obtain ⟨s, hs, hd, hr⟩ := h.right d e he
    exact mem_rightsAt_place.mpr ⟨s, hs, hd, congrArg (x + ·) hr⟩
  · intro q hq
    obtain ⟨s, hs, rfl, rfl⟩ := mem_rightsAt_place.mp hq
    obtain ⟨e', he', -, hr⟩ := h.reaches s hs
    cases he.symm.trans he'
    exact add_le_add_right hr x

theorem Hugs.extremes {p : Contour ℚ} (h : Hugs p (spots n)) (hl : p.length = n.levels) :
    (place x y n).Extremes p where
  length := hl.trans (levels_eq_of_ranks (ranks_place x y 0 n).symm)
  left _ _ he := (place_x x y n).symm ▸ h.isLeast he
  right _ _ he := (place_x x y n).symm ▸ h.isGreatest he

theorem extremes_place (x y o : ℚ) (n : Node ℚ α) :
    (place x y { (arrange n).1 with offset := o }).Extremes (arrange n).2 := by
  refine Hugs.extremes ?_ ?_
  · rw [spots_offset]
    exact hugs_arrange n
  · rw [length_arrange, levels_offset]
    exact levels_eq_of_ranks (ranks_arrange 0 n).symm

end Places

/-- The contour of a tree has one entry for each of its depths. In exact numbers it says of each depth
where the leftmost node starts and where the rightmost one ends, seen from the root, when the same nodes
are placed with the offsets that have been set. It stays so for every part of a tree that is laid out. -/
theorem arrange_extremes :
    (∀ (S : Type) [Scalar S] (n : Node S α), (arrange n).2.length = n.levels) ∧
    (∀ (n : Node ℚ α) (x y : ℚ), (place x y (arrange n).1).ranks 0 = n.ranks 0 ∧
      (place x y (arrange n).1).x = x ∧ (place x y (arrange n).1).Extremes (arrange n).2) ∧
    ∀ (n k : Node ℚ α) (path : List Nat), n.at? path = some k →
      ∃ m, n.layout.at? path = some m ∧ m.ranks 0 = k.ranks 0 ∧ m.Extremes (arrange k).2 := by
  refine ⟨fun S _ n => length_arrange n, fun n x y => ?_, fun n k path h => ?_⟩
  · have h := extremes_place x y (arrange n).1.offset n
    rw [with_offset_eq rfl] at h
    exact ⟨(ranks_place x y 0 _).trans (ranks_arrange 0 n), place_x x y _, h⟩
  · obtain ⟨x, y, o, hm⟩ := at?_layout h
    exact ⟨_, hm, by rw [ranks_place, ranks_offset, ranks_arrange], extremes_place x y o k⟩

/-- Two children: below the first one is the widest node of all, below the second one the tree goes on. -/
def lopsided : Node ℚ Nat :=
  let node (payload : Nat) (width : ℚ) := Node.make payload width 10
  node 0 10 [node 1 10 [node 3 50 []], node 2 15 [node 4 35 [], node 5 20 [node 6 7 []]]]

theorem arrange_extremes_lopsided :
    (arrange lopsided).2 =
      [(-5, 5), (-265 / 8, 285 / 8), (-425 / 8, 415 / 8), (307 / 8, 363 / 8)] ∧
    (arrange lopsided).2.length = 4 ∧
    IsLeast (leftsAt [place 3 0 (arrange lopsided).1] 2) (3 + -425 / 8) ∧
    IsGreatest (rightsAt [place 3 0 (arrange lopsided).1] 2) (3 + 415 / 8) ∧
    ∃ m, lopsided.layout.at? [1] = some m ∧ m.payload = 2 ∧
      IsLeast (leftsAt [m] 2) (m.x + 41 / 4) := by
  obtain ⟨hlevels, hplaced, hparts⟩ := @arrange_extremes Nat
  obtain ⟨-, hx, h⟩ := hplaced lopsided 3 0
  have hc : (arrange lopsided).2 =
      [(-5, 5), (-265 / 8, 285 / 8), (-425 / 8, 415 / 8), (307 / 8, 363 / 8)] := by decide +kernel
  have hk : ∃ k, lopsided.at? [1] = some k ∧ k.label.1 = 2 ∧
      (arrange k).2 = [(-15 / 2, 15 / 2), (-125 / 4, 95 / 4), (41 / 4, 69 / 4)] :=
    ⟨_, rfl, rfl, by decide +kernel⟩
  obtain ⟨k, hk, hp, hck⟩ := hk
  obtain ⟨m, hm, hr, hmk⟩ := hparts lopsided k [1] hk
  have hleast := h.left 2 _ (by rw [hc]; rfl)
  have hgreatest := h.right 2 _ (by rw [hc]; rfl)
  rw [hx] at hleast hgreatest
  refine ⟨hc, hlevels ℚ lopsided, hleast, hgreatest, m, hm, ?_, hmk.left 2 _ (by rw [hck]; rfl)⟩
  rw [ranks_eq, ranks_eq k, List.cons_eq_cons, Prod.mk.injEq] at hr
  exact (congrArg (·.1) hr.1.2).trans hp

end Tidy

end Pedigree
