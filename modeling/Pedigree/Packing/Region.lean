import Pedigree.Geometry
import Pedigree.Drawing.Sorting

/-! Finite sets of grid cells, kept as rectangles of cells that may overlap. -/
namespace Pedigree

open Checked

/-- The cells from `left` to `right` and from `top` to `bottom`, without the ends. -/
structure CellRect where
  left : Int
  right : Int
  top : Int
  bottom : Int
  deriving DecidableEq, Repr, Inhabited

namespace CellRect

def contains (r : CellRect) (c : Pos) : Bool :=
  r.left ≤ c.x && c.x < r.right && r.top ≤ c.y && c.y < r.bottom

def isEmpty (r : CellRect) : Bool := r.right ≤ r.left || r.bottom ≤ r.top

def shift (r : CellRect) (o : Pos) : CellRect :=
  ⟨r.left + o.x, r.right + o.x, r.top + o.y, r.bottom + o.y⟩

def inter (r s : CellRect) : CellRect :=
  ⟨max r.left s.left, min r.right s.right, max r.top s.top, min r.bottom s.bottom⟩

/-- What is left of the first rectangle outside the second: above, below, left and right. -/
def diff (r s : CellRect) : List CellRect :=
  let i := r.inter s
  if i.isEmpty then [r]
  else [⟨r.left, r.right, r.top, i.top⟩, ⟨r.left, r.right, i.bottom, r.bottom⟩,
    ⟨r.left, i.left, i.top, i.bottom⟩, ⟨i.right, r.right, i.top, i.bottom⟩].filter (!·.isEmpty)

theorem contains_iff {r : CellRect} {c : Pos} :
    r.contains c ↔ r.left ≤ c.x ∧ c.x < r.right ∧ r.top ≤ c.y ∧ c.y < r.bottom := by
  simp [contains, and_assoc]

theorem isEmpty_eq_true {r : CellRect} :
    r.isEmpty = true ↔ r.right ≤ r.left ∨ r.bottom ≤ r.top := by
  simp [isEmpty]

theorem isEmpty_iff {r : CellRect} : r.isEmpty ↔ ∀ c, ¬r.contains c := by
  simp only [isEmpty, Bool.or_eq_true, decide_eq_true_eq, contains_iff]
  constructor
  · intro h c hc; omega
  · intro h
    by_cases h1 : r.right ≤ r.left
    · exact Or.inl h1
    · refine Or.inr ?_
      have := h ⟨r.left, r.top⟩
      simp only at this
      omega

theorem contains_inter {r s : CellRect} {c : Pos} :
    (r.inter s).contains c ↔ r.contains c ∧ s.contains c := by
  simp only [contains_iff, inter]; omega

@[simp] theorem contains_shift {r : CellRect} {o c : Pos} :
    (r.shift o).contains c = r.contains ⟨c.x - o.x, c.y - o.y⟩ := by
  rw [Bool.eq_iff_iff, contains_iff, contains_iff]; simp only [shift]; omega

theorem exists_diff_iff {r s : CellRect} {c : Pos} :
    (∃ t ∈ r.diff s, t.contains c) ↔ r.contains c ∧ ¬s.contains c := by
  by_cases he : (r.inter s).isEmpty
  · have := isEmpty_iff.1 he c
    rw [contains_inter] at this
    simp only [diff, he, if_true, List.mem_singleton, exists_eq_left]
    exact ⟨fun h => ⟨h, fun hs => this ⟨h, hs⟩⟩, fun h => h.1⟩
  · simp only [diff, he, Bool.false_eq_true, ↓reduceIte, List.mem_filter, List.mem_cons,
      List.not_mem_nil, or_false]
    rw [isEmpty_eq_true] at he
    simp only [inter] at he
    constructor
    · rintro ⟨t, ⟨(rfl | rfl | rfl | rfl), ht⟩, hc⟩ <;>
        simp only [contains_iff, inter] at hc ⊢ <;> omega
    · rintro ⟨hr, hs⟩
      simp only [contains_iff] at hr hs
      have key : ∀ t : CellRect, t.contains c → (!t.isEmpty) = true := fun t ht => by
        rw [Bool.not_eq_true', Bool.eq_false_iff]
        intro h; exact isEmpty_iff.1 h c ht
      by_cases h1 : c.y < max r.top s.top
      · refine ⟨_, ⟨Or.inl rfl, key _ ?_⟩, ?_⟩ <;> simp only [contains_iff, inter] <;> omega
      by_cases h2 : min r.bottom s.bottom ≤ c.y
      · refine ⟨_, ⟨Or.inr (Or.inl rfl), key _ ?_⟩, ?_⟩ <;> simp only [contains_iff, inter] <;> omega
      by_cases h3 : c.x < max r.left s.left
      · refine ⟨_, ⟨Or.inr (Or.inr (Or.inl rfl)), key _ ?_⟩, ?_⟩ <;>
          simp only [contains_iff, inter] <;> omega
      · refine ⟨_, ⟨Or.inr (Or.inr (Or.inr rfl)), key _ ?_⟩, ?_⟩ <;>
          simp only [contains_iff, inter] <;> omega

end CellRect

/-- A set of cells. -/
abbrev Region := List CellRect

namespace Region

def contains (r : Region) (c : Pos) : Bool := r.any (·.contains c)

/-- Every cell moved by an offset. -/
def shift (r : Region) (o : Pos) : Region := r.map (·.shift o)

/-- The cells of the first region that are not in the second. -/
def diff (r s : Region) : Region := s.foldl (fun r t => r.flatMap (·.diff t)) r

/-- Whether some cell is in both. -/
def meets (r s : Region) : Bool := r.any fun a => s.any fun b => !(a.inter b).isEmpty

theorem contains_iff {r : Region} {c : Pos} : r.contains c ↔ ∃ t ∈ r, t.contains c := by
  simp [contains]

@[simp] theorem contains_append {r s : Region} {c : Pos} :
    Region.contains (r ++ s) c = (r.contains c || s.contains c) := by
  simp [contains]

@[simp] theorem contains_shift {r : Region} {o c : Pos} :
    (r.shift o).contains c = r.contains ⟨c.x - o.x, c.y - o.y⟩ := by
  simp [contains, shift, Function.comp_def]

theorem contains_diff {r s : Region} {c : Pos} :
    (r.diff s).contains c ↔ r.contains c ∧ ¬s.contains c := by
  induction s generalizing r with
  | nil => simp [diff, contains]
  | cons t s ih =>
    have h : (Region.contains (r.flatMap (·.diff t)) c) ↔ r.contains c ∧ ¬t.contains c := by
      simp only [contains_iff, List.mem_flatMap]
      constructor
      · rintro ⟨u, ⟨a, ha, hu⟩, hc⟩
        have := CellRect.exists_diff_iff.1 ⟨u, hu, hc⟩
        exact ⟨⟨a, ha, this.1⟩, this.2⟩
      · rintro ⟨⟨a, ha, hac⟩, ht⟩
        obtain ⟨u, hu, hc⟩ := CellRect.exists_diff_iff.2 ⟨hac, ht⟩
        exact ⟨u, ⟨a, ha, hu⟩, hc⟩
    have := ih (r := r.flatMap (·.diff t))
    simp only [diff, List.foldl_cons] at this ⊢
    rw [this, h]
    simp only [contains, List.any_cons, Bool.or_eq_true, not_or]
    exact and_assoc

theorem meets_iff {r s : Region} : r.meets s ↔ ∃ c, r.contains c ∧ s.contains c := by
  simp only [meets, List.any_eq_true, contains_iff]
  constructor
  · rintro ⟨a, ha, b, hb, h⟩
    have hn : ¬∀ c, ¬(a.inter b).contains c := fun hc => by
      rw [← CellRect.isEmpty_iff] at hc; simp [hc] at h
    obtain ⟨c, hc⟩ := Classical.not_forall.1 hn
    have hc := CellRect.contains_inter.1 (Classical.not_not.1 hc)
    exact ⟨c, ⟨a, ha, hc.1⟩, ⟨b, hb, hc.2⟩⟩
  · rintro ⟨c, ⟨a, ha, hac⟩, ⟨b, hb, hbc⟩⟩
    refine ⟨a, ha, b, hb, ?_⟩
    rw [Bool.not_eq_true', Bool.eq_false_iff]
    intro h
    exact CellRect.isEmpty_iff.1 h c (CellRect.contains_inter.2 ⟨hac, hbc⟩)

/-- Neighbouring cells of a row, from the first to the last. -/
structure Run where
  y : Int
  first : Int
  last : Int
  deriving DecidableEq, Repr, Inhabited

/-- Joins an interval with those after it, which start further right, where they touch. -/
def joinFrom (a b : Int) : List (Int × Int) → List (Int × Int)
  | [] => [(a, b)]
  | (c, d) :: rest => if c ≤ b then joinFrom a (max b d) rest else (a, b) :: joinFrom c d rest

/-- The union of intervals without their ends, as intervals that do not touch. -/
def joinIntervals (xs : List (Int × Int)) : List (Int × Int) :=
  match Drawing.sortBy (·.1) xs with
  | [] => []
  | (a, b) :: rest => joinFrom a b rest

/-- The runs of one row. -/
def runsAt (r : Region) (y : Int) : List Run :=
  let row := r.filter fun t => t.top ≤ y && y < t.bottom && t.left < t.right
  (joinIntervals (row.map fun t => (t.left, t.right))).map fun (a, b) => ⟨y, a, b - 1⟩

/-- The rows with cells, in ascending order. -/
def rows (r : Region) : List Int :=
  (joinIntervals ((r.filter (!·.isEmpty)).map fun t => (t.top, t.bottom))).flatMap fun (a, b) =>
    (List.range (b - a).toNat).map fun i : Nat => a + i

/-- All cells, as runs from top to bottom and from left to right. -/
def runs (r : Region) : List Run := r.rows.flatMap r.runsAt

end Region

end Pedigree
