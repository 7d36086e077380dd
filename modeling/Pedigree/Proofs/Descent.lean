import Mathlib.Data.List.Chain
import Pedigree.Drawing.Edges

/-! One side of an outline along the edges, seen as a way down: along each row with the padding
kept, and from each row to the next one, lower by the padding where the edge turns inward. -/
namespace Pedigree

open Checked

namespace Drawing

namespace Side

def rank : Side → Int → Int
  | left, n => n
  | right, n => -n

variable (side : Side)

theorem isOuter_iff {a b : Int} : side.isOuter a b = true ↔ side.rank a < side.rank b := by
  cases side <;> simp only [isOuter, rank, decide_eq_true_eq]
  omega

theorem isOuter_self (a : Int) : side.isOuter a a = false := by
  cases side <;> simp [isOuter]

theorem rank_outward (x n : Int) : side.rank (x + (side.outward n).value) = side.rank x - n := by
  cases side
  · rfl
  · have he : (outward right n).value = n := rfl
    rw [he]
    simp only [rank]
    omega

end Side

def Row.bottom (r : Row) : Int := r.y + r.height

namespace Edges

variable (side : Side) (pad : Int)

/-- A point of a row, moved out by the padding. -/
def outside (r : Row) (y : Int) : Pos := ⟨r.x + (side.outward pad).value, y⟩

@[simp] theorem outside_y (r : Row) (y : Int) : (outside side pad r y).y = y := rfl

theorem rank_outside (r : Row) (y : Int) :
    side.rank (outside side pad r y).x = side.rank r.x - pad :=
  side.rank_outward r.x pad

/-- How far the step between two rows is lowered. -/
def drop (r q : Row) : Int := if side.isOuter r.x q.x then pad else 0

/-- The way down from the bottom of a row. -/
def descent (r : Row) : List Row → List Pos
  | [] => [outside side pad r (r.bottom + pad)]
  | q :: qs => outside side pad r (r.bottom + drop side pad r q) ::
      outside side pad q (q.y + drop side pad r q) :: descent q qs

def endsOf (r : Row) : List Pos := [⟨r.x, r.y⟩, ⟨r.x, r.bottom⟩]

theorem value_padInner (p c n : Pos) : (padInner side pad p c n).value =
    ⟨c.x + (side.outward pad).value, c.y + if (if p.x = c.x then side.isOuter c.x n.x
      else side.isOuter p.x c.x) then pad else 0⟩ := by
  unfold padInner
  dsimp only [value_bind]
  generalize (if p.x = c.x then side.isOuter c.x n.x else side.isOuter p.x c.x) = b
  cases b <;> simp

theorem value_padInner_bottom (r q : Row) : (padInner side pad ⟨r.x, r.y⟩ ⟨r.x, r.bottom⟩
    ⟨q.x, q.y⟩).value = outside side pad r (r.bottom + drop side pad r q) := by
  rw [value_padInner]
  simp only [↓reduceIte]
  rfl

theorem value_padInner_top (r q : Row) : (padInner side pad ⟨r.x, r.bottom⟩ ⟨q.x, q.y⟩
    ⟨q.x, q.bottom⟩).value = outside side pad q (q.y + drop side pad r q) := by
  rw [value_padInner]
  by_cases h : r.x = q.x
  · simp [h, drop, side.isOuter_self, outside]
  · simp [h, drop, outside]

theorem value_padAfter (r : Row) (qs : List Row) :
    (padAfter side pad ⟨r.x, r.y⟩ (⟨r.x, r.bottom⟩ :: (qs.map endsOf).flatten)).value =
      descent side pad r qs := by
  induction qs generalizing r with
  | nil => rfl
  | cons q qs ih =>
    have he : (((q :: qs).map endsOf).flatten) =
      ⟨q.x, q.y⟩ :: ⟨q.x, q.bottom⟩ :: (qs.map endsOf).flatten := rfl
    rw [he, descent, padAfter]
    simp only [value_bind, value_pure]
    rw [value_padInner_bottom, padAfter]
    simp only [value_bind, value_pure]
    rw [value_padInner_top, ih q]

/-- How far the first step is moved down: up, if it goes outward. -/
def firstDrop (r q : Row) : Int :=
  if side.isOuter q.x r.x then -pad else drop side pad r q

theorem value_padPoints (r q : Row) (qs : List Row) :
    (padPoints side pad (((r :: q :: qs).map endsOf).flatten)).value =
      outside side pad r (r.y - pad) ::
        outside side pad r (r.bottom + firstDrop side pad r q) ::
          outside side pad q (q.y + firstDrop side pad r q) :: descent side pad q qs := by
  have he : (((r :: q :: qs).map endsOf).flatten) =
    ⟨r.x, r.y⟩ :: ⟨r.x, r.bottom⟩ :: ((q :: qs).map endsOf).flatten := rfl
  rw [he, padPoints]
  dsimp only [value_bind]
  rw [value_padAfter, descent, liftStep]
  have hx : side.isOuter (outside side pad q (q.y + drop side pad r q)).x
      (outside side pad r (r.bottom + drop side pad r q)).x = side.isOuter q.x r.x := by
    rw [Bool.eq_iff_iff, Side.isOuter_iff, Side.isOuter_iff, rank_outside, rank_outside]
    omega
  rw [hx]
  by_cases h : side.isOuter q.x r.x
  · have hd : drop side pad r q = 0 := by
      have h' := (side.isOuter_iff).1 h
      rw [drop, if_neg]
      rw [Side.isOuter_iff]
      omega
    rw [if_pos h, firstDrop, if_pos h, hd]
    simp [outside, Int.sub_eq_add_neg]
  · rw [if_neg h, firstDrop, if_neg h]
    rfl

/-- The segment between two points meets heights strictly between a top and a bottom. -/
def Meets (top bottom : Int) (p q : Pos) : Prop :=
  top < bottom ∧ min p.y q.y < bottom ∧ top < max p.y q.y

/-- Where the segment between two points meets some heights, it lies no further in than an edge,
given by its rank. -/
def Clears (edge top bottom : Int) (p q : Pos) : Prop :=
  Meets top bottom p q → side.rank p.x ≤ edge ∧ side.rank q.x ≤ edge

/-- The second row starts below the first and leaves room for the padding. -/
def Follows (r q : Row) : Prop := r.bottom ≤ q.y ∧ pad ≤ q.height

variable {side pad} {edge top bottom : Int}

theorem Clears.of_above {p q : Pos} (hp : p.y ≤ top) (hq : q.y ≤ top) :
    Clears side edge top bottom p q := by
  rintro ⟨-, -, h⟩
  omega

theorem Clears.of_below {p q : Pos} (hp : bottom ≤ p.y) (hq : bottom ≤ q.y) :
    Clears side edge top bottom p q := by
  rintro ⟨-, h, -⟩
  omega

theorem Clears.of_rank {p q : Pos} (hp : side.rank p.x ≤ edge) (hq : side.rank q.x ≤ edge) :
    Clears side edge top bottom p q :=
  fun _ => ⟨hp, hq⟩

theorem drop_cases (side : Side) (pad : Int) (r q : Row) :
    (drop side pad r q = pad ∧ side.rank r.x < side.rank q.x) ∨
      (drop side pad r q = 0 ∧ side.rank q.x ≤ side.rank r.x) := by
  unfold drop
  split
  · next h => exact Or.inl ⟨rfl, (side.isOuter_iff).1 h⟩
  · next h =>
    rw [Side.isOuter_iff] at h
    exact Or.inr ⟨rfl, by omega⟩

theorem bottom_le_of_mem_descent (side : Side) (hpad : 0 ≤ pad) {r : Row} {qs : List Row}
    (h : (r :: qs).IsChain (Follows pad)) : ∀ p ∈ descent side pad r qs, r.bottom ≤ p.y := by
  induction qs generalizing r with
  | nil =>
    intro p hp
    obtain rfl := List.mem_singleton.1 hp
    rw [outside_y]
    omega
  | cons q qs ih =>
    obtain ⟨⟨hrq, hq⟩, h⟩ := List.isChain_cons_cons.1 h
    have hd := drop_cases side pad r q
    intro p hp
    rw [descent] at hp
    have hb : q.bottom = q.y + q.height := rfl
    obtain rfl | hp := List.mem_cons.1 hp
    · rw [outside_y]
      omega
    obtain rfl | hp := List.mem_cons.1 hp
    · rw [outside_y]
      omega
    · have := ih h p hp
      omega

theorem isChain_clears_of_below {ps : List Pos} (h : ∀ p ∈ ps, bottom ≤ p.y) :
    ps.IsChain (Clears side edge top bottom) := by
  induction ps with
  | nil => exact List.isChain_nil
  | cons p ps ih =>
    cases ps with
    | nil => exact List.isChain_singleton p
    | cons q qs =>
      refine List.isChain_cons_cons.2 ⟨.of_below (h p (by simp)) (h q (by simp)), ih ?_⟩
      intro a ha
      exact h a (List.mem_cons_of_mem _ ha)

/-- Two points outside an edge and the rest of a way down, all of it below. -/
theorem isChain_clears_descent {p : Pos} {r : Row} {qs : List Row}
    (hp : side.rank p.x ≤ edge) (hr : side.rank r.x - pad ≤ edge)
    (h : ∀ a ∈ descent side pad r qs, bottom ≤ a.y) :
    (p :: descent side pad r qs).IsChain (Clears side edge top bottom) := by
  cases qs with
  | nil =>
    refine List.isChain_cons_cons.2 ⟨.of_rank hp ?_, List.isChain_singleton _⟩
    rw [rank_outside]
    exact hr
  | cons q qs =>
    refine List.isChain_cons_cons.2 ⟨.of_rank hp ?_, isChain_clears_of_below h⟩
    rw [rank_outside]
    exact hr

theorem bottom_le_of_mem {r s : Row} {qs : List Row} (hpad : 0 ≤ pad)
    (h : (r :: qs).IsChain (Follows pad)) (hs : s ∈ qs) : r.bottom ≤ s.y := by
  induction qs generalizing r with
  | nil => cases hs
  | cons q qs ih =>
    obtain ⟨⟨hrq, hq⟩, h⟩ := List.isChain_cons_cons.1 h
    obtain rfl | hs := List.mem_cons.1 hs
    · exact hrq
    · have := ih h hs
      have hb : q.bottom = q.y + q.height := rfl
      omega

theorem descent_clears_first (hpad : 0 ≤ pad) {r : Row} {qs : List Row} (y : Int)
    (h : (r :: qs).IsChain (Follows pad)) (hbottom : bottom ≤ r.bottom)
    (hrank : side.rank r.x - pad ≤ edge) :
    (outside side pad r y :: descent side pad r qs).IsChain (Clears side edge top bottom) := by
  have hbelow := bottom_le_of_mem_descent side hpad h
  refine isChain_clears_descent ?_ hrank fun p hp => Int.le_trans hbottom (hbelow p hp)
  rw [rank_outside]
  exact hrank

/-- The way down clears whatever stands in one of its rows. It may enter the first of them at any
height above the bottom. -/
theorem descent_clears (hpad : 0 ≤ pad) {r s : Row} {qs : List Row} {y : Int}
    (h : (r :: qs).IsChain (Follows pad)) (hy : y ≤ r.bottom) (hs : s ∈ r :: qs)
    (htop : s.y ≤ top) (hbottom : bottom ≤ s.bottom) (hrank : side.rank s.x - pad ≤ edge) :
    (outside side pad r y :: descent side pad r qs).IsChain (Clears side edge top bottom) := by
  induction qs generalizing r y with
  | nil =>
    obtain rfl := List.mem_singleton.1 hs
    exact descent_clears_first hpad y h hbottom hrank
  | cons q qs ih =>
    obtain ⟨⟨hrq, hq⟩, hqs⟩ := List.isChain_cons_cons.1 h
    have hd := drop_cases side pad r q
    have hb : q.bottom = q.y + q.height := rfl
    obtain rfl | hs := List.mem_cons.1 hs
    · exact descent_clears_first hpad y h hbottom hrank
    · rw [descent]
      refine List.isChain_cons_cons.2 ⟨?_, List.isChain_cons_cons.2 ⟨?_, ih hqs (by omega) hs⟩⟩
      all_goals
        obtain rfl | hs := List.mem_cons.1 hs
        · -- A lowered step reaches into the next row only where it lies further out.
          obtain ⟨hd, hlt⟩ | ⟨hd, -⟩ := hd
          · refine .of_rank ?_ ?_ <;> rw [rank_outside] <;> omega
          · refine .of_above ?_ ?_ <;> rw [outside_y] <;> omega
        · have := bottom_le_of_mem hpad hqs hs
          refine .of_above ?_ ?_ <;> rw [outside_y] <;> omega

theorem descent_ends (side : Side) (hpad : 0 ≤ pad) {r : Row} {qs : List Row}
    (h : (r :: qs).IsChain (Follows pad)) : ∃ s ∈ r :: qs, (∀ q ∈ r :: qs, q.bottom ≤ s.bottom) ∧
      (∀ p ∈ descent side pad r qs, p.y ≤ s.bottom + pad) ∧
      ∃ p ∈ descent side pad r qs, p.y = s.bottom + pad := by
  induction qs generalizing r with
  | nil =>
    refine ⟨r, List.mem_cons_self, fun q hq => ?_, fun p hp => ?_, _, List.mem_cons_self, rfl⟩
    · obtain rfl := List.mem_singleton.1 hq
      exact Int.le_refl _
    · obtain rfl := List.mem_singleton.1 hp
      exact Int.le_refl _
  | cons q qs ih =>
    obtain ⟨⟨hrq, hq⟩, hqs⟩ := List.isChain_cons_cons.1 h
    have hd := drop_cases side pad r q
    have hb : q.bottom = q.y + q.height := rfl
    obtain ⟨s, hs, hlow, hle, p, hp, he⟩ := ih hqs
    have hqle := hlow q List.mem_cons_self
    refine ⟨s, List.mem_cons_of_mem _ hs, fun q' hq' => ?_, fun p' hp' => ?_, p,
      List.mem_cons_of_mem _ (List.mem_cons_of_mem _ hp), he⟩
    · obtain rfl | hq' := List.mem_cons.1 hq'
      · omega
      · exact hlow q' hq'
    · rw [descent] at hp'
      obtain rfl | hp' := List.mem_cons.1 hp'
      · rw [outside_y]
        omega
      obtain rfl | hp' := List.mem_cons.1 hp'
      · rw [outside_y]
        omega
      · exact hle p' hp'

/-- One side of an outline: the first step moves up where it goes outward. -/
def path (side : Side) (pad : Int) (r q : Row) (qs : List Row) : List Pos :=
  outside side pad r (r.y - pad) :: outside side pad r (r.bottom + firstDrop side pad r q) ::
    outside side pad q (q.y + firstDrop side pad r q) :: descent side pad q qs

theorem firstDrop_cases (side : Side) (pad : Int) (r q : Row) :
    (firstDrop side pad r q = -pad ∧ side.rank q.x < side.rank r.x) ∨
      firstDrop side pad r q = drop side pad r q := by
  unfold firstDrop
  split
  · next h => exact Or.inl ⟨rfl, (side.isOuter_iff).1 h⟩
  · exact Or.inr rfl

/-- One side of an outline clears whatever stands in one of its rows. -/
theorem path_clears (hpad : 0 ≤ pad) {r q s : Row} {qs : List Row} (hr : 0 ≤ r.height)
    (h : (r :: q :: qs).IsChain (Follows pad)) (hs : s ∈ r :: q :: qs)
    (htop : s.y ≤ top) (hbottom : bottom ≤ s.bottom) (hrank : side.rank s.x - pad ≤ edge) :
    (path side pad r q qs).IsChain (Clears side edge top bottom) := by
  have hrb : r.bottom = r.y + r.height := rfl
  obtain ⟨hf, hlt⟩ | hf := firstDrop_cases side pad r q
  · obtain ⟨⟨hrq, hq⟩, hqs⟩ := List.isChain_cons_cons.1 h
    have hb : q.bottom = q.y + q.height := rfl
    unfold path
    rw [hf]
    obtain rfl | hs := List.mem_cons.1 hs
    · have hbelow := bottom_le_of_mem_descent side hpad hqs
      have hfar : ∀ p ∈ descent side pad q qs, bottom ≤ p.y := fun p hp => by
        have := hbelow p hp
        omega
      refine List.isChain_cons_cons.2 ⟨.of_rank ?_ ?_, List.isChain_cons_cons.2
        ⟨.of_rank ?_ ?_, isChain_clears_descent ?_ (by omega) hfar⟩⟩
      all_goals
        rw [rank_outside]
        omega
    · have hqs' : q.y ≤ s.y := by
        obtain rfl | hs := List.mem_cons.1 hs
        · exact Int.le_refl _
        · have := bottom_le_of_mem hpad hqs hs
          omega
      refine List.isChain_cons_cons.2 ⟨.of_above ?_ ?_, List.isChain_cons_cons.2
        ⟨.of_above ?_ ?_, descent_clears hpad hqs (by omega) hs htop hbottom hrank⟩⟩
      all_goals
        rw [outside_y]
        omega
  · have hp : path side pad r q qs =
      outside side pad r (r.y - pad) :: descent side pad r (q :: qs) := by
      rw [path, hf, descent]
    rw [hp]
    exact descent_clears hpad h (by omega) hs htop hbottom hrank

theorem path_extent (side : Side) (hpad : 0 ≤ pad) {r q : Row} {qs : List Row} (hr : 0 ≤ r.height)
    (h : (r :: q :: qs).IsChain (Follows pad)) :
    (∀ p ∈ path side pad r q qs, r.y - pad ≤ p.y) ∧ ∃ s ∈ q :: qs,
      (∀ t ∈ q :: qs, t.bottom ≤ s.bottom) ∧
      (∀ p ∈ path side pad r q qs, p.y ≤ s.bottom + pad) ∧
      ∃ p ∈ path side pad r q qs, p.y = s.bottom + pad := by
  obtain ⟨⟨hrq, hq⟩, hqs⟩ := List.isChain_cons_cons.1 h
  have hrb : r.bottom = r.y + r.height := rfl
  have hqb : q.bottom = q.y + q.height := rfl
  have hbelow := bottom_le_of_mem_descent side hpad hqs
  obtain ⟨s, hs, hlow, hle, p, hp, he⟩ := descent_ends side hpad hqs
  have hqle := hlow q List.mem_cons_self
  have hd := drop_cases side pad r q
  have hf := firstDrop_cases side pad r q
  have hmem (a : Pos) (ha : a ∈ path side pad r q qs) :
      a.y = r.y - pad ∨ a.y = r.bottom + firstDrop side pad r q ∨
        a.y = q.y + firstDrop side pad r q ∨ a ∈ descent side pad q qs := by
    unfold path at ha
    simp only [List.mem_cons] at ha
    obtain rfl | rfl | rfl | ha := ha
    · exact Or.inl rfl
    · exact Or.inr (Or.inl rfl)
    · exact Or.inr (Or.inr (Or.inl rfl))
    · exact Or.inr (Or.inr (Or.inr ha))
  refine ⟨fun a ha => ?_, s, hs, hlow, fun a ha => ?_, p, ?_, he⟩
  · obtain ha | ha | ha | ha := hmem a ha
    · omega
    · omega
    · omega
    · have := hbelow a ha
      omega
  · obtain ha | ha | ha | ha := hmem a ha
    · omega
    · omega
    · omega
    · exact hle a ha
  · simp only [path, List.mem_cons]
    exact Or.inr (Or.inr (Or.inr hp))

end Edges

end Drawing

end Pedigree
