import Pedigree.Proofs.Rows

/-! Aligning the rows of an outline, seen as two passes: downwards, every row follows the row
above it out, and upwards, every row follows the row below it out. The second pass moves a row
after the row above it has been settled, which is where a small step can stay behind. -/
namespace Pedigree

open Checked

namespace Drawing

namespace Edges

variable {side : Side}

/-- Neighbouring rows with equal edges, or with a step between them that is kept. -/
def Aligned (r q : Row) : Prop := r.x = q.x ∨ snapThreshold ≤ (r.x - q.x).natAbs

instance (r q : Row) : Decidable (Aligned r q) :=
  inferInstanceAs (Decidable (r.x = q.x ∨ snapThreshold ≤ (r.x - q.x).natAbs))

/-- A row's edge lies further in than another one, by less than the threshold. -/
def JustInside (side : Side) (r row : Row) : Prop :=
  side.rank r.x < side.rank row.x ∧ side.rank row.x < side.rank r.x + snapThreshold

instance (side : Side) (r row : Row) : Decidable (JustInside side r row) :=
  inferInstanceAs (Decidable (_ ∧ _))

/-- A row moves out to the edge of a neighbour if it lies just inside it. -/
def follow (side : Side) (r row : Row) : Row :=
  if JustInside side r row then { row with x := r.x } else row

/-- Every row follows the row above it, which has followed its own one. -/
def downward (side : Side) (above : Row) : List Row → List Row
  | [] => [above]
  | row :: rows => above :: downward side (follow side above row) rows

/-- Every row follows the row below it, where that one stood before. -/
def upward (side : Side) : List Row → List Row
  | row :: below :: rows => follow side below row :: upward side (below :: rows)
  | rows => rows

/-- The rows after the pass downwards. -/
def settled (side : Side) : List Row → List Row
  | [] => []
  | row :: rows => downward side row rows

theorem aligned_iff (side : Side) (r q : Row) :
    Aligned r q ↔ ¬ JustInside side r q ∧ ¬ JustInside side q r := by
  unfold Aligned JustInside snapThreshold
  cases side <;> simp only [Side.rank] <;> omega

theorem follow_of_justInside {r row : Row} (h : JustInside side r row) :
    follow side r row = { row with x := r.x } :=
  if_pos h

theorem follow_of_not {r row : Row} (h : ¬ JustInside side r row) : follow side r row = row :=
  if_neg h

theorem not_justInside_follow (r row : Row) : ¬ JustInside side r (follow side r row) := by
  by_cases h : JustInside side r row
  · rw [follow_of_justInside h]
    intro hself
    exact Int.lt_irrefl _ hself.1
  · rw [follow_of_not h]
    exact h

theorem downward_eq_cons (side : Side) (above : Row) (rows : List Row) :
    ∃ rest, downward side above rows = above :: rest := by
  cases rows with
  | nil => exact ⟨[], rfl⟩
  | cons row rows => exact ⟨_, rfl⟩

theorem upward_cons_downward (r above : Row) (rows : List Row) :
    upward side (r :: downward side above rows) =
      follow side above r :: upward side (downward side above rows) := by
  obtain ⟨rest, hrest⟩ := downward_eq_cons side above rows
  rw [hrest, upward]

theorem JustInside.asymm {r row : Row} (h : JustInside side r row) : ¬ JustInside side row r := by
  intro h'
  have := h.1
  have := h'.1
  omega

theorem follow_follow (above row : Row) :
    follow side (follow side above row) above = follow side row above := by
  by_cases h : JustInside side above row
  · rw [follow_of_justInside h, follow_of_not h.asymm, follow_of_not]
    intro hself
    exact Int.lt_irrefl _ hself.1
  · rw [follow_of_not h]

theorem kept_iff_aligned (above row : Row) :
    (decide (above.x - row.x = 0) ||
      decide (snapThreshold ≤ ((above.x - row.x).natAbs : Int))) = true ↔ Aligned above row := by
  rw [Bool.or_eq_true, decide_eq_true_eq, decide_eq_true_eq, Int.sub_eq_zero]
  rfl

/-- Aligning two neighbours: the one that lies just inside the other moves out to it. -/
theorem value_snapFrom_cons (above row : Row) (rows : List Row) :
    (snapFrom side above (row :: rows)).value =
      follow side row above :: (snapFrom side (follow side above row) rows).value := by
  have hiff := aligned_iff side above row
  rw [snapFrom]
  simp only [value_bind]
  split
  · next h =>
    obtain ⟨hin, hout⟩ := hiff.1 ((kept_iff_aligned above row).1 h)
    rw [follow_of_not hin, follow_of_not hout]
    rfl
  · next h =>
    have hal := mt (kept_iff_aligned above row).2 h
    split
    · next ho =>
      rw [Side.isOuter_iff] at ho
      have hout : ¬ JustInside side row above := fun hj => by
        have := hj.1
        omega
      have hin : JustInside side above row := by
        by_contra hin
        exact hal (hiff.2 ⟨hin, hout⟩)
      rw [follow_of_justInside hin, follow_of_not hout]
      rfl
    · next ho =>
      rw [Side.isOuter_iff] at ho
      have hin : ¬ JustInside side above row := fun hj => ho hj.1
      have hout : JustInside side row above := by
        by_contra hout
        exact hal (hiff.2 ⟨hin, hout⟩)
      rw [follow_of_not hin, follow_of_justInside hout]
      rfl

theorem value_snapFrom (above : Row) (rows : List Row) :
    (snapFrom side above rows).value = upward side (downward side above rows) := by
  induction rows generalizing above with
  | nil => rfl
  | cons row rows ih =>
    rw [value_snapFrom_cons, ih, downward, upward_cons_downward, follow_follow]

theorem value_snap (side : Side) (rows : List Row) :
    (snap side rows).value = upward side (settled side rows) := by
  cases rows with
  | nil => rfl
  | cons row rows => exact value_snapFrom row rows

/-- After the pass downwards no row lies just inside the row above it. -/
theorem isChain_settled (side : Side) (rows : List Row) :
    (settled side rows).IsChain fun r q => ¬ JustInside side r q := by
  cases rows with
  | nil => exact List.isChain_nil
  | cons above rows =>
    change (downward side above rows).IsChain _
    induction rows generalizing above with
    | nil => exact List.isChain_singleton above
    | cons row rows ih =>
      have htail := ih (follow side above row)
      obtain ⟨rest, hrest⟩ := downward_eq_cons side (follow side above row) rows
      rw [downward]
      rw [hrest] at htail ⊢
      exact List.isChain_cons_cons.2 ⟨not_justInside_follow above row, htail⟩

theorem getElem?_upward (rows : List Row) (i : Nat) :
    (upward side rows)[i]? = rows[i]?.map fun row =>
      (rows[i + 1]?.map fun below => follow side below row).getD row := by
  induction rows generalizing i with
  | nil => rfl
  | cons row rows ih =>
    cases rows with
    | nil => cases i <;> rfl
    | cons below rows =>
      cases i with
      | zero => rfl
      | succ i => exact ih i

/-- Of three rows, the middle one follows the last one out and leaves the first one behind, which
is too close to what it moves to or stood beside it. -/
def PulledAway (side : Side) (a b c : Row) : Prop :=
  JustInside side c b ∧ side.rank c.x - snapThreshold < side.rank a.x ∧
    side.rank a.x < side.rank b.x + snapThreshold

instance (side : Side) (a b c : Row) : Decidable (PulledAway side a b c) :=
  inferInstanceAs (Decidable (_ ∧ _ ∧ _))

/-- A step below a row that is neither absent nor large enough to be kept. -/
def SmallStep (rows : List Row) (i : Nat) : Prop :=
  ∃ r q, rows[i]? = some r ∧ rows[i + 1]? = some q ∧ ¬ Aligned r q

theorem aligned_iff_rank (side : Side) (r q : Row) : Aligned r q ↔ side.rank r.x = side.rank q.x ∨
    side.rank r.x + snapThreshold ≤ side.rank q.x ∨
      side.rank q.x + snapThreshold ≤ side.rank r.x := by
  unfold Aligned snapThreshold
  cases side <;> simp only [Side.rank] <;> omega

theorem rank_follow (side : Side) (r row : Row) :
    (JustInside side r row ∧ side.rank (follow side r row).x = side.rank r.x) ∨
      (¬ JustInside side r row ∧ side.rank (follow side r row).x = side.rank row.x) := by
  by_cases h : JustInside side r row
  · rw [follow_of_justInside h]
    exact Or.inl ⟨h, rfl⟩
  · rw [follow_of_not h]
    exact Or.inr ⟨h, rfl⟩

/-- A row that does not lie just inside the one above it is level with it or keeps its step, once
the row above has followed it. -/
theorem aligned_follow {a b : Row} (hab : ¬ JustInside side a b) :
    Aligned (follow side b a) b := by
  rw [aligned_iff_rank side]
  have ha := rank_follow side b a
  unfold JustInside at hab ha
  omega

/-- When the row below moves as well, the step stays small exactly if that row is pulled away. -/
theorem not_aligned_follow_iff {a b c : Row} (hab : ¬ JustInside side a b) :
    ¬ Aligned (follow side b a) (follow side c b) ↔ PulledAway side a b c := by
  rw [aligned_iff_rank side]
  have ha := rank_follow side b a
  have hb := rank_follow side c b
  have hten : snapThreshold = 10 := rfl
  unfold PulledAway
  unfold JustInside at hab ha hb ⊢
  omega

theorem not_justInside_of_settled {rows : List Row} {i : Nat} {a b : Row}
    (ha : (settled side rows)[i]? = some a) (hb : (settled side rows)[i + 1]? = some b) :
    ¬ JustInside side a b := by
  obtain ⟨_, rfl⟩ := List.getElem?_eq_some_iff.1 ha
  obtain ⟨hi, rfl⟩ := List.getElem?_eq_some_iff.1 hb
  exact List.isChain_iff_getElem.1 (isChain_settled side rows) i hi

theorem value_snapFrom_eq_iff (above : Row) (rows : List Row) :
    (snapFrom side above rows).value = above :: rows ↔ (above :: rows).IsChain Aligned := by
  induction rows generalizing above with
  | nil =>
    exact iff_of_true rfl (List.isChain_singleton above)
  | cons row rows ih =>
    rw [value_snapFrom_cons, List.cons.injEq, List.isChain_cons_cons,
      aligned_iff side]
    constructor
    · rintro ⟨hfirst, hrest⟩
      have hout : ¬ JustInside side row above := by
        rw [← hfirst]
        exact not_justInside_follow row above
      have hin : ¬ JustInside side above row := by
        intro hin
        -- Had the row moved out, nothing would move it back in.
        obtain ⟨_, _, hw, -, he⟩ :=
          List.forall₂_cons_left_iff.1 (@snapFrom_widens side (follow side above row) rows)
        rw [hrest] at he
        obtain ⟨rfl, rfl⟩ := List.cons.inj he
        have hback := hw.rank
        rw [follow_of_justInside hin] at hback
        exact Int.not_lt.2 hback hin.1
      rw [follow_of_not hin] at hrest
      exact ⟨⟨hin, hout⟩, (ih row).1 hrest⟩
    · rintro ⟨⟨hin, hout⟩, hrest⟩
      rw [follow_of_not hin, follow_of_not hout]
      exact ⟨rfl, (ih row).2 hrest⟩

theorem value_snap_eq_iff (rows : List Row) :
    (snap side rows).value = rows ↔ rows.IsChain Aligned := by
  cases rows with
  | nil => exact iff_of_true rfl List.isChain_nil
  | cons row rows => exact value_snapFrom_eq_iff row rows

theorem isChain_aligned_iff (rows : List Row) :
    rows.IsChain Aligned ↔ ∀ i, ¬ SmallStep rows i := by
  rw [List.isChain_iff_getElem]
  constructor
  · rintro h i ⟨r, q, hr, hq, hsmall⟩
    obtain ⟨_, rfl⟩ := List.getElem?_eq_some_iff.1 hr
    obtain ⟨hi, rfl⟩ := List.getElem?_eq_some_iff.1 hq
    exact hsmall (h i hi)
  · intro h i hi
    by_contra hsmall
    exact h i ⟨_, _, List.getElem?_eq_getElem (by omega), List.getElem?_eq_getElem hi, hsmall⟩

theorem smallStep_snap_iff (side : Side) (rows : List Row) (i : Nat) :
    SmallStep (snap side rows).value i ↔ ∃ a b c, (settled side rows)[i]? = some a ∧
      (settled side rows)[i + 1]? = some b ∧ (settled side rows)[i + 2]? = some c ∧
        PulledAway side a b c := by
  rw [value_snap]
  unfold SmallStep
  simp only [getElem?_upward]
  constructor
  · rintro ⟨r, q, hr, hq, hsmall⟩
    obtain ⟨a, ha, rfl⟩ := Option.map_eq_some_iff.1 hr
    obtain ⟨b, hb, rfl⟩ := Option.map_eq_some_iff.1 hq
    have hab := not_justInside_of_settled ha hb
    rw [hb] at hsmall
    cases hc : (settled side rows)[i + 1 + 1]? with
    | none =>
      rw [hc] at hsmall
      exact absurd (aligned_follow hab) hsmall
    | some c =>
      rw [hc] at hsmall
      exact ⟨a, b, c, ha, hb, rfl, (not_aligned_follow_iff hab).1 hsmall⟩
  · rintro ⟨a, b, c, ha, hb, hc, hpulled⟩
    have hab := not_justInside_of_settled ha hb
    refine ⟨follow side b a, follow side c b, ?_, ?_, (not_aligned_follow_iff hab).2 hpulled⟩
    · rw [ha, hb]
      rfl
    · rw [hb, hc]
      rfl

/-- Aligning leaves a step smaller than the threshold exactly where the pass downwards is followed
by a row that is pulled away from the one above it, and aligning once more changes nothing exactly
if there is no such step. -/
theorem snap_leaves_small_steps (side : Side) (rows : List Row) :
    (∀ i, SmallStep (snap side rows).value i ↔ ∃ a b c, (settled side rows)[i]? = some a ∧
      (settled side rows)[i + 1]? = some b ∧ (settled side rows)[i + 2]? = some c ∧
        PulledAway side a b c) ∧
      ((snap side (snap side rows).value).value = (snap side rows).value ↔
        ∀ i, ¬ SmallStep (snap side rows).value i) :=
  ⟨smallStep_snap_iff side rows, (value_snap_eq_iff _).trans (isChain_aligned_iff _)⟩

/-- The second row moves out to the third one after the first one has been left where it is. -/
theorem snap_not_settled : (snap .left [⟨20, 0, 51⟩, ⟨25, 51, 30⟩, ⟨15, 106, 30⟩]).value =
      [⟨20, 0, 51⟩, ⟨15, 51, 30⟩, ⟨15, 106, 30⟩] ∧
    SmallStep (snap .left [⟨20, 0, 51⟩, ⟨25, 51, 30⟩, ⟨15, 106, 30⟩]).value 0 ∧
    (snap .left (snap .left [⟨20, 0, 51⟩, ⟨25, 51, 30⟩, ⟨15, 106, 30⟩]).value).value ≠
      (snap .left [⟨20, 0, 51⟩, ⟨25, 51, 30⟩, ⟨15, 106, 30⟩]).value := by
  have hvalue : (snap .left [⟨20, 0, 51⟩, ⟨25, 51, 30⟩, ⟨15, 106, 30⟩]).value =
    [⟨20, 0, 51⟩, ⟨15, 51, 30⟩, ⟨15, 106, 30⟩] := by decide
  rw [hvalue]
  exact ⟨rfl, ⟨⟨20, 0, 51⟩, ⟨15, 51, 30⟩, rfl, rfl, by decide⟩, by decide⟩

end Edges

end Drawing

end Pedigree
