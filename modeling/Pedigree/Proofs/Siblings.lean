import Pedigree.Proofs.Exact

/-! Nodes of a tree that is laid out in exact numbers stand clear of each other. The contour of a
subtree reaches around all of its nodes, so that subtrees that are moved until their contours clear
each other have no two nodes of one depth over each other. -/
namespace Pedigree

namespace Tidy

/-- How deep a node stands below some place, and how far it reaches to both sides of it. -/
structure Spot where
  depth : Nat
  left : ℚ
  right : ℚ

namespace Spot

def shift (by_ : ℚ) (s : Spot) : Spot := ⟨s.depth, s.left + by_, s.right + by_⟩

def below (s : Spot) : Spot := ⟨s.depth + 1, s.left, s.right⟩

/-- Of two spots of one depth the first ends where the second starts, or before. -/
def Before (a b : Spot) : Prop := a.depth = b.depth → a.right ≤ b.left

end Spot

mutual

/-- The nodes of a tree, seen from its root. -/
def spots : Node ℚ α → List Spot
  | ⟨_, width, _, _, _, _, children⟩ =>
    ⟨0, -(width / 2), width / 2⟩ :: (spotsAll children).map Spot.below

/-- The nodes of some trees, seen from where their offsets are measured. -/
def spotsAll : List (Node ℚ α) → List Spot
  | [] => []
  | n :: ns => (spots n).map (Spot.shift n.offset) ++ spotsAll ns

end

theorem spots_offset (n : Node ℚ α) (o : ℚ) : spots { n with offset := o } = spots n := by
  cases n
  rw [spots, spots]

theorem spotsAll_offset (ns : List (Node ℚ α)) (d : ℚ) :
    spotsAll (ns.map fun n => { n with offset := n.offset - d }) =
      (spotsAll ns).map (Spot.shift (-d)) := by
  induction ns with
  | nil => rfl
  | cons n ns ih =>
    rw [List.map_cons, spotsAll, spotsAll, ih, spots_offset, List.map_append, List.map_map]
    congr 2
    funext s
    simp only [Function.comp_apply, Spot.shift, Spot.mk.injEq, true_and]
    constructor <;> ring

/-- A contour goes around a spot. -/
def Reaches (p : Contour ℚ) (s : Spot) : Prop :=
  ∃ e, p[s.depth]? = some e ∧ e.1 ≤ s.left ∧ s.right ≤ e.2

/-- A spot stands right of a contour, at its depth. -/
def RightOf (p : Contour ℚ) (s : Spot) : Prop := ∀ e, p[s.depth]? = some e → e.2 ≤ s.left

section Contours

variable {p q : Contour ℚ} {s t : Spot} {i : Nat} {e : ℚ × ℚ}

/-- Joined contours are around both. -/
theorem exists_join (h : p[i]? = some e ∨ q[i]? = some e) :
    ∃ e', (Contour.join p q)[i]? = some e' ∧ e'.1 ≤ e.1 ∧ e.2 ≤ e'.2 := by
  induction p generalizing q i with
  | nil => exact ⟨e, by simpa [Contour.join] using h, le_rfl, le_rfl⟩
  | cons a p ih =>
    cases q with
    | nil => exact ⟨e, by simpa [Contour.join] using h, le_rfl, le_rfl⟩
    | cons b q =>
      cases i with
      | zero =>
        refine ⟨_, rfl, ?_⟩
        obtain h | h := h
        · cases h
          exact ⟨min_le_left _ _, le_max_left _ _⟩
        · cases h
          exact ⟨min_le_right _ _, le_max_right _ _⟩
      | succ i => exact ih h

theorem Reaches.join (h : Reaches p s ∨ Reaches q s) : Reaches (Contour.join p q) s := by
  obtain ⟨e, he, hl, hr⟩ | ⟨e, he, hl, hr⟩ := h
  · obtain ⟨e', he', hl', hr'⟩ := exists_join (q := q) (.inl he)
    exact ⟨e', he', hl'.trans hl, hr.trans hr'⟩
  · obtain ⟨e', he', hl', hr'⟩ := exists_join (p := p) (.inr he)
    exact ⟨e', he', hl'.trans hl, hr.trans hr'⟩

theorem RightOf.of_join (h : RightOf (Contour.join p q) s) : RightOf p s := fun _ he => by
  obtain ⟨e', he', -, hr⟩ := exists_join (q := q) (.inl he)
  exact hr.trans (h e' he')

theorem Reaches.shift (h : Reaches p s) (by_ : ℚ) :
    Reaches (Contour.shift by_ p) (s.shift by_) := by
  obtain ⟨e, he, hl, hr⟩ := h
  refine ⟨(e.1 + by_, e.2 + by_), by simp [Contour.shift, Spot.shift, he], ?_, ?_⟩
  · exact add_le_add_left hl by_
  · exact add_le_add_left hr by_

theorem before_of_reaches (hs : Reaches p s) (ht : RightOf p t) : s.Before t := by
  intro hd
  obtain ⟨e, he, -, hr⟩ := hs
  exact hr.trans (ht e (hd ▸ he))

/-- What is moved by the clearance stands right of the others. -/
theorem rightOf_clearance (others : Contour ℚ) (h : Reaches p s) :
    RightOf others (s.shift (clearance others p)) := by
  intro o ho
  obtain ⟨e, he, hl, -⟩ := h
  have hmem : o.2 - e.1 ∈ List.zipWith (fun o c => o.2 - c.1) others p := by
    apply List.mem_of_getElem? (i := s.depth)
    have ho' : others[s.depth]? = some o := ho
    simp [List.getElem?_zipWith, ho', he]
  have hne : others.isEmpty = false := by
    cases others with
    | nil => simp [Spot.shift] at ho
    | cons => rfl
  have hle := Exact.le_greatest hmem
  have hc : clearance others p =
      Scalar.greatest (List.zipWith (fun o c => o.2 - c.1) others p) := by
    simp [clearance, hne]
  rw [Spot.shift, hc]
  dsimp only
  linarith

end Contours

/-- What siblings are like that have been arranged to the right of others. -/
structure Settled (others merged : Contour ℚ) (ss : List Spot) : Prop where
  kept : ∀ s, Reaches others s → Reaches merged s
  reached : ∀ s ∈ ss, Reaches merged s
  clear : ∀ s ∈ ss, RightOf others s
  ordered : ss.Pairwise Spot.Before

theorem pairwise_shift {ss : List Spot} (h : ss.Pairwise Spot.Before) (by_ : ℚ) :
    (ss.map (Spot.shift by_)).Pairwise Spot.Before :=
  h.map _ fun _ _ h hd => add_le_add_left (h hd) by_

theorem pairwise_below {ss : List Spot} (h : ss.Pairwise Spot.Before) :
    (ss.map Spot.below).Pairwise Spot.Before :=
  h.map _ fun _ _ h hd => h (Nat.succ.inj hd)

mutual

theorem settled_arrange : (n : Node ℚ α) → (∀ s ∈ spots (arrange n).1, Reaches (arrange n).2 s) ∧
    (spots (arrange n).1).Pairwise Spot.Before
  | ⟨payload, width, height, x, y, offset, children⟩ => by
    have h := settled_arrangeAll [] children
    rw [arrange]
    generalize arrangeAll [] children = arranged at h
    obtain ⟨children, merged⟩ := arranged
    dsimp only at h ⊢
    rw [spots, spotsAll_offset]
    constructor
    · intro s hs
      obtain rfl | hs := List.mem_cons.mp hs
      · exact ⟨_, rfl, le_rfl, le_rfl⟩
      · obtain ⟨u, hu, rfl⟩ := List.mem_map.mp hs
        obtain ⟨t, ht, rfl⟩ := List.mem_map.mp hu
        obtain ⟨e, he, hl, hr⟩ := h.reached t ht
        refine ⟨(e.1 - middle children, e.2 - middle children), ?_, ?_, ?_⟩
        · simp [Spot.shift, Spot.below, he]
        · simpa [Spot.shift, Spot.below, ← sub_eq_add_neg] using hl
        · simpa [Spot.shift, Spot.below, ← sub_eq_add_neg] using hr
    · refine List.pairwise_cons.mpr ⟨fun s hs hd => ?_, pairwise_below (pairwise_shift h.ordered _)⟩
      obtain ⟨t, -, rfl⟩ := List.mem_map.mp hs
      cases hd

theorem settled_arrangeAll (others : Contour ℚ) : (ns : List (Node ℚ α)) →
    Settled others (arrangeAll others ns).2 (spotsAll (arrangeAll others ns).1)
  | [] => by
    rw [arrangeAll]
    exact ⟨fun _ h => h, by simp [spotsAll], by simp [spotsAll], by simp [spotsAll]⟩
  | n :: ns => by
    obtain ⟨hreach, hordered⟩ := settled_arrange n
    have h := settled_arrangeAll (Contour.join others
      (Contour.shift (clearance others (arrange n).2) (arrange n).2)) ns
    rw [arrangeAll]
    dsimp only
    rw [spotsAll, spots_offset]
    dsimp only
    have hfirst (s : Spot) (hs : s ∈ (spots (arrange n).1).map
        (Spot.shift (clearance others (arrange n).2))) :
        RightOf others s ∧ Reaches (Contour.shift (clearance others (arrange n).2)
          (arrange n).2) s := by
      obtain ⟨t, ht, rfl⟩ := List.mem_map.mp hs
      exact ⟨rightOf_clearance others (hreach t ht), (hreach t ht).shift _⟩
    refine ⟨fun s hs => h.kept s (.join (.inl hs)), ?_, ?_, ?_⟩
    · intro s hs
      obtain hs | hs := List.mem_append.mp hs
      · exact h.kept s (.join (.inr (hfirst s hs).2))
      · exact h.reached s hs
    · intro s hs
      obtain hs | hs := List.mem_append.mp hs
      · exact (hfirst s hs).1
      · exact (h.clear s hs).of_join
    · refine List.pairwise_append.mpr ⟨pairwise_shift hordered _, h.ordered, fun s hs t ht => ?_⟩
      exact before_of_reaches (.join (.inr (hfirst s hs).2)) (h.clear t ht)

end

/-! ### Places -/

/-- The left and the right end of a node and its top. -/
def Node.extent (n : Node ℚ α) : ℚ × ℚ × ℚ := (n.x - n.width / 2, n.x + n.width / 2, n.y)

/-- Where a spot is, seen from a point, if every level has the same height. -/
def Spot.place (height x y : ℚ) (s : Spot) : ℚ × ℚ × ℚ :=
  (x + s.left, x + s.right, y + s.depth * height)

mutual

theorem extents_place {h : ℚ} (x y : ℚ) : (n : Node ℚ α) → (∀ m ∈ n.walk, m.height = h) →
    (place x y n).walk.map Node.extent = (spots n).map (Spot.place h x y)
  | ⟨payload, width, height, x', y', offset, children⟩, hn => by
    have hh : height = h := hn _ (by rw [walk_eq]; exact List.mem_cons_self)
    have hc : ∀ m ∈ Node.walkAll children, m.height = h := fun m hm =>
      hn m (by rw [walk_eq]; exact List.mem_cons_of_mem _ hm)
    rw [place, walk_eq, spots, List.map_cons, List.map_cons, List.map_map]
    congr 1
    · simp [Node.extent, Spot.place, sub_eq_add_neg]
    · rw [extents_placeAll x (y + height) children hc, hh]
      apply List.map_congr_left
      intro s _
      simp only [Spot.place, Spot.below, Function.comp_apply, Prod.mk.injEq, true_and]
      push_cast
      ring

theorem extents_placeAll {h : ℚ} (x y : ℚ) : (ns : List (Node ℚ α)) →
    (∀ m ∈ Node.walkAll ns, m.height = h) →
      (Node.walkAll (placeAll x y ns)).map Node.extent = (spotsAll ns).map (Spot.place h x y)
  | [], _ => rfl
  | n :: ns, hn => by
    rw [Node.walkAll, List.forall_mem_append] at hn
    rw [placeAll, Node.walkAll, spotsAll, List.map_append, List.map_append, List.map_map,
      extents_place _ _ n hn.1, extents_placeAll x y ns hn.2]
    congr 1
    apply List.map_congr_left
    intro s _
    simp only [Spot.place, Spot.shift, Function.comp_apply, Prod.mk.injEq, and_true]
    constructor <;> ring

end

/-- Of two nodes the first ends where the second starts, or before, or one is a level deeper. -/
def Clear (height : ℚ) (n m : ℚ × ℚ × ℚ) : Prop :=
  n.2.1 ≤ m.1 ∨ n.2.2 + height ≤ m.2.2 ∨ m.2.2 + height ≤ n.2.2

theorem clear_of_before {h : ℚ} (hh : 0 ≤ h) {s t : Spot} (hst : s.Before t) (x y : ℚ) :
    Clear h (s.place h x y) (t.place h x y) := by
  have deeper {d e : Nat} (hde : d < e) : y + d * h + h ≤ y + e * h := by
    have : ((d + 1 : Nat) : ℚ) * h ≤ e * h := by
      apply mul_le_mul_of_nonneg_right _ hh
      exact_mod_cast hde
    push_cast at this
    linarith
  obtain hd | hd | hd := lt_trichotomy s.depth t.depth
  · exact .inr (.inl (deeper hd))
  · exact .inl (add_le_add_right (hst hd) x)
  · exact .inr (.inr (deeper hd))

/-- The nodes of a tree of levels of one height stand clear of each other, and none above the root. -/
theorem layout_clear {h : ℚ} (hh : 0 ≤ h) {n : Node ℚ α} (hn : ∀ m ∈ n.walk, m.height = h) :
    n.layout.walk.Pairwise (fun a b => Clear h a.extent b.extent) ∧ ∀ m ∈ n.layout.walk, 0 ≤ m.y := by
  have he : n.layout.walk.map Node.extent = (spots (arrange n).1).map (Spot.place h 0 0) := by
    rw [Node.layout, Exact.scalar_zero, extents_place 0 0 _ (height_of_mem_arrange hn)]
  constructor
  · rw [← List.pairwise_map (f := Node.extent) (R := Clear h), he, List.pairwise_map]
    exact (settled_arrange n).2.imp fun hst => clear_of_before hh hst 0 0
  · intro m hm
    have hmem := List.mem_map_of_mem (f := Node.extent) hm
    rw [he] at hmem
    obtain ⟨s, -, hs⟩ := List.mem_map.mp hmem
    have hy : m.y = 0 + s.depth * h := (congrArg (·.2.2) hs).symm
    rw [hy, zero_add]
    positivity

end Tidy

end Pedigree
