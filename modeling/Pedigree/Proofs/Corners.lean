import Pedigree.Proofs.Hanging
import Pedigree.Proofs.NormalForm

/-! The corners that the border of levels in normal form passes: where every bar overlaps one of the
level above, each corner of each bar, once. -/
namespace Pedigree

open Checked

namespace Drawing

/-- Two bars share places of a positive length. -/
def Bar.Overlaps (b c : Bar) : Prop := max b.x c.x < min b.stop c.stop

instance (b c : Bar) : Decidable (b.Overlaps c) := inferInstanceAs (Decidable (_ < _))

theorem Bar.Overlaps.hangs {b c : Bar} (h : b.Overlaps c) : b.Hangs c := by
  unfold Bar.Overlaps at h
  unfold Bar.Hangs
  omega

namespace Level

/-- Every bar below overlaps a bar above. -/
def Supports (l m : Level) : Prop := ∀ c ∈ m.bars, ∃ b ∈ l.bars, b.Overlaps c

instance (l m : Level) : Decidable (l.Supports m) :=
  inferInstanceAs (Decidable (∀ c ∈ m.bars, ∃ b ∈ l.bars, b.Overlaps c))

theorem Supports.hangs {l m : Level} (h : l.Supports m) : l.Hangs m := by
  intro c hc
  obtain ⟨b, hb, hbc⟩ := h c hc
  exact ⟨b, hb, hbc.hangs⟩

theorem Supports.bars_eq_nil {l m : Level} (h : l.Supports m) (hl : l.bars = []) :
    m.bars = [] := by
  refine List.eq_nil_iff_forall_not_mem.2 fun c hc => ?_
  obtain ⟨b, hb, -⟩ := h c hc
  rw [hl] at hb
  cases hb

theorem bars_eq_nil_of_supports {l : Level} {rest : List Level}
    (h : (l :: rest).IsChain Supports) (hl : l.bars = []) : ∀ m ∈ l :: rest, m.bars = [] := by
  induction rest generalizing l with
  | nil => exact List.forall_mem_singleton.2 hl
  | cons m rest ih =>
    obtain ⟨hlm, hrest⟩ := List.isChain_cons_cons.1 h
    exact List.forall_mem_cons.2 ⟨hl, ih hrest (hlm.bars_eq_nil hl)⟩

/-- Bars of a positive width with gaps between neighbours have gaps between any two. -/
theorem Spaced.of_gaps {gap : Int} (hg : 0 ≤ gap) {bars : List Bar}
    (hw : ∀ b ∈ bars, b.x < b.stop) (h : bars.IsChain fun b c => gap ≤ c.x - b.stop) :
    Spaced gap bars := by
  refine ⟨hw, ?_⟩
  induction bars with
  | nil => exact List.Pairwise.nil
  | cons b bars ih =>
    obtain ⟨-, hbars⟩ := List.forall_mem_cons.1 hw
    have hrest := ih hbars h.of_cons
    refine List.pairwise_cons.2 ⟨fun d hd => ?_, hrest⟩
    cases bars with
    | nil => cases hd
    | cons c bars =>
      have hbc := (List.isChain_cons_cons.1 h).1
      obtain rfl | hd := List.mem_cons.1 hd
      · omega
      · have hcd := (List.pairwise_cons.1 hrest).1 d hd
        have hcw := hbars c List.mem_cons_self
        omega

theorem Normal.spaced {gap : Int} {levels : List Level} (hg : 0 ≤ gap) (h : Normal gap levels)
    (hw : ∀ l ∈ levels, ∀ b ∈ l.bars, 0 < b.width) : ∀ l ∈ levels, Spaced gap l.bars := by
  intro l hl
  refine .of_gaps hg (fun b hb => ?_) (h.gaps l hl)
  exact Int.lt_add_of_pos_right b.x (hw l hl b hb)

end Level

namespace Border

/-- The four corners of every bar. -/
def corners (levels : List Level) : List Vertex :=
  (bandsFrom 0 levels).flatMap fun B => B.bars.flatMap fun b =>
    [.topLeft, .topRight, .bottomLeft, .bottomRight].map (B.corner · b)

/-- The upper left corner of the first bar of the first level. -/
def firstCorner (levels : List Level) : Option Vertex :=
  (bandsFrom 0 levels).head?.bind fun B => B.bars.head?.map (B.corner .topLeft)

/-- The vertices that the walk of a border passes: it starts at the first vertex of the first line
and takes as many steps as there are vertices. -/
def passed (lines : List (List Vertex)) : List Vertex :=
  match lines.head?.bind (·.head?) with
  | none => []
  | some start => walk lines lines.flatten.length start

theorem value_trace_eq_passed (levels : List Level) :
    (trace levels).value =
      ((passed (linesFrom [] 0 levels).value).map (·.pos)).eraseReps := by
  unfold trace passed
  rw [value_bind]
  cases (linesFrom [] 0 levels).value.head?.bind (·.head?) <;> rfl

theorem perm_corners (levels : List Level) :
    ((bandsFrom 0 levels).flatMap fun B => B.tops ++ B.bottoms).Perm (corners levels) := by
  refine List.Perm.flatMap_left _ fun B _ => ?_
  exact List.flatMap_append_perm B.bars _ _

theorem value_linesFrom_zero (levels : List Level) :
    (linesFrom [] 0 levels).value = linesOf .outside (bandsFrom 0 levels) :=
  value_linesFrom .outside 0 levels

/-- Every corner stands on one of the lines. -/
theorem perm_flatten_lines (levels : List Level) :
    (linesFrom [] 0 levels).value.flatten.Perm (corners levels) := by
  rw [value_linesFrom_zero]
  exact (perm_flatten_linesOf .outside (bandsFrom 0 levels)).trans (perm_corners levels)

theorem nodup_corners (levels : List Level) : (corners levels).Nodup := by
  have hd := distinct_linesOf (nodup_numbers 0 levels)
  rw [← value_linesFrom_zero] at hd
  exact (perm_flatten_lines levels).nodup_iff.1 (List.Nodup.of_map _ hd)

theorem passed_of_flatten_eq_nil {lines : List (List Vertex)} (h : lines.flatten = []) :
    passed lines = [] := by
  cases lines with
  | nil => rfl
  | cons line lines =>
    rw [List.flatten_cons, List.append_eq_nil_iff] at h
    rw [passed, List.head?_cons, h.1]
    rfl

theorem corners_eq_nil {levels : List Level} (h : ∀ l ∈ levels, l.bars = []) :
    corners levels = [] := by
  refine List.flatMap_eq_nil_iff.2 fun B hB => ?_
  obtain ⟨l, hl, i, rfl⟩ := Level.mem_bandsFrom hB
  unfold Level.band
  rw [h l hl]
  rfl

theorem passed_of_supports {gap : Int} (hg : 1 ≤ gap) {l : Level} {rest : List Level}
    (h : Level.Normal gap (l :: rest)) (hw : ∀ m ∈ l :: rest, ∀ b ∈ m.bars, 0 < b.width)
    (hs : (l :: rest).IsChain Level.Supports) (hne : l.bars ≠ []) :
    (passed (linesFrom [] 0 (l :: rest)).value).Perm (corners (l :: rest)) ∧
      (passed (linesFrom [] 0 (l :: rest)).value).head? = firstCorner (l :: rest) := by
  have hspaced := h.spaced (by omega) hw
  have hchain := Level.isChain_fits_linked hg hspaced h.clear
    (hs.imp fun _ _ hlm => Level.Supports.hangs hlm)
  have hnumbers := nodup_numbers 0 (l :: rest)
  have hspread : Spread (l.band 0).bars := (hspaced l List.mem_cons_self).spread hg 0
  have hperm := perm_corners (l :: rest)
  obtain ⟨b, bs, hb⟩ := List.exists_cons_of_ne_nil hne
  have hbars : (l.band 0).bars = (b, 0) :: bs.zipIdx 1 := by
    unfold Level.band
    rw [hb]
    rfl
  have hfirst : firstCorner (l :: rest) = some ((l.band 0).corner .topLeft (b, 0)) := by
    unfold firstCorner
    rw [Level.bandsFrom_cons, List.head?_cons, Option.bind_some, hbars]
    rfl
  rw [value_linesFrom_zero, hfirst]
  rw [Level.bandsFrom_cons] at hchain hnumbers hperm ⊢
  rw [passed, head?_linesOf hnumbers hspread hbars]
  dsimp only
  rw [walk_eq_contours hnumbers hspread hchain hbars]
  refine ⟨(perm_contours _ _ hchain).trans hperm, ?_⟩
  rw [hbars, head?_contours]

/-- The walk of a border around levels in normal form starts at the upper left corner of the first
bar and passes each of the four corners of every bar once, where every bar overlaps a bar of the
level above; its places, without immediate repetitions, are the border. -/
theorem border_passes_corners_once {gap : Int} (hg : 1 ≤ gap) {levels : List Level}
    (h : Level.Normal gap levels) (hw : ∀ l ∈ levels, ∀ b ∈ l.bars, 0 < b.width)
    (hs : levels.IsChain Level.Supports) :
    (passed (linesFrom [] 0 levels).value).head? = firstCorner levels ∧
      (passed (linesFrom [] 0 levels).value).Perm (corners levels) ∧ (corners levels).Nodup ∧
      (trace levels).value =
        ((passed (linesFrom [] 0 levels).value).map (·.pos)).eraseReps := by
  suffices hp : (passed (linesFrom [] 0 levels).value).Perm (corners levels) ∧
      (passed (linesFrom [] 0 levels).value).head? = firstCorner levels from
    ⟨hp.2, hp.1, nodup_corners levels, value_trace_eq_passed levels⟩
  have hnone (hnil : ∀ l ∈ levels, l.bars = []) :
      (passed (linesFrom [] 0 levels).value).Perm (corners levels) ∧
        (passed (linesFrom [] 0 levels).value).head? = (none : Option Vertex) := by
    have hcorners := corners_eq_nil hnil
    have hflatten := (hcorners ▸ perm_flatten_lines levels).eq_nil
    rw [passed_of_flatten_eq_nil hflatten, hcorners]
    exact ⟨List.Perm.nil, rfl⟩
  cases levels with
  | nil => exact hnone fun l hl => absurd hl List.not_mem_nil
  | cons l rest =>
    by_cases hl : l.bars = []
    · have hfirst : firstCorner (l :: rest) = none := by
        unfold firstCorner
        rw [Level.bandsFrom_cons, List.head?_cons, Option.bind_some, Level.band, hl]
        rfl
      rw [hfirst]
      exact hnone (Level.bars_eq_nil_of_supports hs hl)
    · exact passed_of_supports hg h hw hs hl

/-- Four bars on three levels; those of the middle one stick out on both sides. -/
def stack : List Level :=
  [⟨0, 10, [⟨10, 50⟩]⟩, ⟨10, 10, [⟨0, 30⟩, ⟨40, 30⟩]⟩, ⟨20, 10, [⟨10, 20⟩]⟩]

theorem normal_stack : Level.Normal 10 stack :=
  ⟨by decide, by decide, by
    unfold Level.Clear
    decide⟩

theorem border_passes_corners_once_stack :
    (passed (linesFrom [] 0 stack).value).Perm (corners stack) ∧ (corners stack).length = 16 ∧
      (trace stack).value = [⟨10, 0⟩, ⟨10, 10⟩, ⟨0, 10⟩, ⟨0, 20⟩, ⟨10, 20⟩, ⟨10, 30⟩, ⟨30, 30⟩,
        ⟨30, 20⟩, ⟨30, 10⟩, ⟨40, 10⟩, ⟨40, 20⟩, ⟨70, 20⟩, ⟨70, 10⟩, ⟨60, 10⟩, ⟨60, 0⟩] := by
  obtain ⟨-, hperm, -, htrace⟩ :=
    @border_passes_corners_once 10 (by decide) stack normal_stack (by decide) (by decide)
  refine ⟨hperm, rfl, ?_⟩
  rw [htrace]
  decide

end Border

end Drawing

end Pedigree
