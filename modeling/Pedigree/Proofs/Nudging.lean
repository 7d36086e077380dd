import Pedigree.Proofs.Margins
import Pedigree.Proofs.Snapping

/-! How far aligning moves the rows of an outline. Each of the two passes moves a row out by less than
the threshold, to where a neighbour stands in that pass. Together they move it by less than twice the
threshold, still to where some row stood before both. -/
namespace Pedigree

open Checked

namespace Drawing

namespace Edges

/-- The same row, in its place or further out by less than a limit. -/
structure Nudged (side : Side) (limit : Int) (row row' : Row) : Prop where
  y : row'.y = row.y
  height : row'.height = row.height
  not_inward : side.isOuter row.x row'.x = false
  near : (row'.x - row.x).natAbs < limit

def edges (rows : List Row) : List Int := rows.map (·.x)

section Passes

variable {side : Side}

theorem nudged_iff {limit : Int} {row row' : Row} : Nudged side limit row row' ↔
    (row'.y = row.y ∧ row'.height = row.height) ∧ side.rank row'.x ≤ side.rank row.x ∧
      side.rank row.x < side.rank row'.x + limit := by
  have hx : side.isOuter row.x row'.x = false ∧ ((row'.x - row.x).natAbs : Int) < limit ↔
      side.rank row'.x ≤ side.rank row.x ∧ side.rank row.x < side.rank row'.x + limit := by
    rw [← Bool.not_eq_true, Side.isOuter_iff]
    cases side <;> simp only [Side.rank] <;> omega
  rw [← hx]
  exact ⟨fun h => ⟨⟨h.y, h.height⟩, h.not_inward, h.near⟩, fun h => ⟨h.1.1, h.1.2, h.2.1, h.2.2⟩⟩

theorem Nudged.refl (row : Row) : Nudged side snapThreshold row row :=
  nudged_iff.mpr ⟨⟨rfl, rfl⟩, Int.le_refl _, Int.lt_add_of_pos_right _ (by decide)⟩

theorem Nudged.trans {m n : Int} {r q s : Row} (h : Nudged side m r q) (h' : Nudged side n q s) :
    Nudged side (m + n) r s := by
  obtain ⟨⟨hy, hh⟩, hout, hnear⟩ := nudged_iff.mp h
  obtain ⟨⟨hy', hh'⟩, hout', hnear'⟩ := nudged_iff.mp h'
  exact nudged_iff.mpr ⟨⟨hy'.trans hy, hh'.trans hh⟩, Int.le_trans hout' hout, by omega⟩

theorem nudged_follow (side : Side) (r row : Row) :
    Nudged side snapThreshold row (follow side r row) := by
  by_cases h : JustInside side r row
  · rw [follow_of_justInside h]
    exact nudged_iff.mpr ⟨⟨rfl, rfl⟩, Int.le_of_lt h.1, h.2⟩
  · rw [follow_of_not h]
    exact .refl row

/-- The pass downwards starts with a row that has already been moved. -/
theorem nudged_downward {row above : Row} (h : Nudged side snapThreshold row above)
    (rows : List Row) :
    List.Forall₂ (Nudged side snapThreshold) (row :: rows) (downward side above rows) := by
  induction rows generalizing row above with
  | nil => exact .cons h .nil
  | cons next rows ih => exact .cons h (ih (nudged_follow side above next))

theorem nudged_settled (side : Side) (rows : List Row) :
    List.Forall₂ (Nudged side snapThreshold) rows (settled side rows) := by
  cases rows with
  | nil => exact .nil
  | cons row rows => exact nudged_downward (.refl row) rows

theorem nudged_upward (side : Side) (rows : List Row) :
    List.Forall₂ (Nudged side snapThreshold) rows (upward side rows) := by
  fun_induction upward side rows with
  | case1 row below rows ih => exact .cons (nudged_follow side below row) ih
  | case2 rows => exact List.forall₂_same.mpr fun row _ => .refl row

/-! ### Where rows move to -/

theorem x_follow (side : Side) (r row : Row) :
    (follow side r row).x = r.x ∨ (follow side r row).x = row.x := by
  by_cases h : JustInside side r row
  · rw [follow_of_justInside h]
    exact .inl rfl
  · rw [follow_of_not h]
    exact .inr rfl

theorem x_follow_mem {r row : Row} {xs : List Int} (hr : r.x ∈ xs) (hrow : row.x ∈ xs) :
    (follow side r row).x ∈ xs := by
  obtain h | h := x_follow side r row
  · exact h ▸ hr
  · exact h ▸ hrow

theorem edges_downward_subset (above : Row) (rows : List Row) :
    edges (downward side above rows) ⊆ edges (above :: rows) := by
  induction rows generalizing above with
  | nil => exact List.Subset.refl _
  | cons row rows ih =>
    have hfirst : above.x ∈ edges (above :: row :: rows) := List.mem_cons_self
    have hsecond : row.x ∈ edges (above :: row :: rows) :=
      List.mem_cons_of_mem _ List.mem_cons_self
    refine List.cons_subset.mpr ⟨hfirst, List.Subset.trans (ih _) ?_⟩
    exact List.cons_subset.mpr ⟨x_follow_mem hfirst hsecond, fun x hx =>
      List.mem_cons_of_mem _ (List.mem_cons_of_mem _ hx)⟩

theorem edges_upward_subset (rows : List Row) : edges (upward side rows) ⊆ edges rows := by
  fun_induction upward side rows with
  | case1 row below rows ih =>
    have hfirst : row.x ∈ edges (row :: below :: rows) := List.mem_cons_self
    have hsecond : below.x ∈ edges (row :: below :: rows) :=
      List.mem_cons_of_mem _ List.mem_cons_self
    exact List.cons_subset.mpr ⟨x_follow_mem hsecond hfirst, fun x hx =>
      List.mem_cons_of_mem _ (ih hx)⟩
  | case2 rows => exact List.Subset.refl _

theorem edges_settled_subset (side : Side) (rows : List Row) :
    edges (settled side rows) ⊆ edges rows := by
  cases rows with
  | nil => exact List.Subset.refl _
  | cons row rows => exact edges_downward_subset row rows

end Passes

theorem faults_snap (side : Side) {rows : List Row} {lo hi : Int} (hspan : hi - lo ≤ 2147483647)
    (h : ∀ r ∈ rows, lo ≤ r.x ∧ r.x ≤ hi) : (snap side rows).faults = [] := by
  cases rows with
  | nil => rfl
  | cons row rows => exact (snapFrom_between hspan h).1

/-- Aligning keeps the rows as they are but for their edges. None of these moves inward or as far as
twice the threshold, and each is where some edge was. Rows move only if there is a small step between
two neighbours, and no number leaves its range as long as the edges are not too far apart. -/
theorem snap_nudges (side : Side) (rows : List Row) :
    List.Forall₂ (Nudged side (2 * snapThreshold)) rows (snap side rows).value ∧
      (∀ x ∈ edges (snap side rows).value, x ∈ edges rows) ∧
      ((snap side rows).value = rows ↔ rows.IsChain Aligned) ∧
      ∀ lo hi, hi - lo ≤ 2147483647 → (∀ r ∈ rows, lo ≤ r.x ∧ r.x ≤ hi) →
        (snap side rows).run = .ok (snap side rows).value := by
  refine ⟨?_, ?_, value_snap_eq_iff rows, fun lo hi hspan h =>
    run_eq_ok_value (faults_snap side hspan h)⟩
  · have htwice (r q s : Row) (h : Nudged side snapThreshold r q)
        (h' : Nudged side snapThreshold q s) : Nudged side (2 * snapThreshold) r s := h.trans h'
    rw [value_snap]
    exact forall₂_trans htwice (nudged_settled side rows) (nudged_upward side _)
  · rw [value_snap]
    exact List.Subset.trans (edges_upward_subset _) (edges_settled_subset side rows)

/-- The second row moves by nine twice, out to the first one and then to the third one. -/
theorem snap_nudges_twice :
    (snap .left [⟨20, 0, 51⟩, ⟨29, 51, 30⟩, ⟨11, 106, 30⟩]).run =
      .ok [⟨20, 0, 51⟩, ⟨11, 51, 30⟩, ⟨11, 106, 30⟩] ∧
    Nudged .left (2 * snapThreshold) ⟨29, 51, 30⟩ ⟨11, 51, 30⟩ ∧
    ¬ Nudged .left 18 ⟨29, 51, 30⟩ ⟨11, 51, 30⟩ := by
  obtain ⟨h, -, -, hrun⟩ := snap_nudges .left [⟨20, 0, 51⟩, ⟨29, 51, 30⟩, ⟨11, 106, 30⟩]
  have hvalue : (snap .left [⟨20, 0, 51⟩, ⟨29, 51, 30⟩, ⟨11, 106, 30⟩]).value =
      [⟨20, 0, 51⟩, ⟨11, 51, 30⟩, ⟨11, 106, 30⟩] := by decide
  rw [hvalue] at h hrun
  obtain ⟨-, h⟩ := List.forall₂_cons.mp h
  refine ⟨hrun 11 29 (by decide) (by decide), (List.forall₂_cons.mp h).1, fun hn => ?_⟩
  exact absurd hn.near (by decide)

end Edges

end Drawing

end Pedigree
