import Pedigree.Proofs.Merging

/-! The normal form of levels: bars apart, and no bar below in the way of a gap. Merging brings
levels into it and leaves levels in it alone; it never uncovers a place or changes how far a level
reaches. -/
namespace Pedigree

open Checked

namespace Drawing

namespace Level

/-- Levels whose bars are in order and apart by a least gap, with no bar of a level reaching into a
gap of the level above. -/
structure Normal (gap : Int) (levels : List Level) : Prop where
  sorted : ∀ l ∈ levels, l.bars.Pairwise (·.x ≤ ·.x)
  gaps : ∀ l ∈ levels, l.bars.IsChain fun b c => gap ≤ c.x - b.stop
  clear : levels.IsChain fun l m => Clear l.bars m.bars

theorem Gapped.gaps {gap : Int} {bars : List Bar} (h : Gapped gap bars) :
    bars.IsChain fun b c => gap ≤ c.x - b.stop :=
  h.apart.isChain.imp fun b c hbc => by omega

variable {gap : Int} {levels : List Level}

theorem merge_normal (hg : 1 ≤ gap) (hw : ∀ l ∈ levels, ∀ b ∈ l.bars, b.x ≤ b.stop) :
    Normal gap (merge gap levels).value := by
  have hgapped : ∀ m ∈ (merge gap levels).value, Gapped gap m.bars := fun m hm => by
    have hf := @merge_tightened gap levels (by omega) hw
    obtain ⟨l, -, hlm⟩ := exists_mem_of_forall₂ hf.flip hm
    exact hlm.gapped
  exact ⟨fun m hm => (hgapped m hm).ascending (by omega), fun m hm => (hgapped m hm).gaps,
    merge_clear hg hw⟩

/-! ### Levels in normal form -/

theorem closeFrom_of_gaps {last : Bar} {bars : List Bar}
    (h : (last :: bars).IsChain fun b c => gap ≤ c.x - b.stop) :
    (closeFrom gap last bars).value = last :: bars := by
  induction bars generalizing last with
  | nil => rfl
  | cons bar bars ih =>
    obtain ⟨hgap, hbars⟩ := List.isChain_cons_cons.1 h
    rw [value_closeFrom_cons, if_neg (Int.not_lt.2 hgap), ih hbars]

theorem close_of_gaps {l : Level} (hs : l.bars.Pairwise (·.x ≤ ·.x))
    (hg : l.bars.IsChain fun b c => gap ≤ c.x - b.stop) : (close gap l).value = l := by
  unfold close
  rw [sortBy_of_pairwise hs]
  cases he : l.bars with
  | nil => rfl
  | cons bar bars =>
    rw [he] at hg
    rw [value_bind, value_pure, closeFrom_of_gaps hg, ← he]

theorem openGap_of_clear {start stop : Int} {below : List Bar}
    (h : ∀ d ∈ below, d.stop ≤ start ∨ stop ≤ d.x) :
    (openGap start stop below).value = (start, stop) := by
  induction below with
  | nil => rfl
  | cons bar bars ih =>
    obtain ⟨hbar, hbars⟩ := List.forall_mem_cons.1 h
    rw [value_openGap_cons]
    split
    · rfl
    · next hlt => rw [if_pos (hbar.resolve_right hlt), ih hbars]

theorem settleFrom_of_clear {below : List Bar} {last : Bar} {bars : List Bar}
    (hg : (last :: bars).IsChain fun b c => gap ≤ c.x - b.stop) (hc : Clear (last :: bars) below) :
    (settleFrom gap below last bars).value = last :: bars := by
  induction bars generalizing last with
  | nil => rfl
  | cons bar bars ih =>
    obtain ⟨hgap, hbars⟩ := List.isChain_cons_cons.1 hg
    obtain ⟨hfree, hclear⟩ := List.isChain_cons_cons.1 hc
    rw [value_settleFrom_cons, openGap_of_clear hfree, if_neg (Int.not_lt.2 hgap), Bar.upTo_self,
      Bar.fromX_self, ih hbars hclear]

theorem settle_of_clear {below : List Bar} {l : Level}
    (hg : l.bars.IsChain fun b c => gap ≤ c.x - b.stop) (hc : Clear l.bars below) :
    (settle gap below l).value = l := by
  unfold settle
  cases he : l.bars with
  | nil => rfl
  | cons bar bars =>
    rw [he] at hg hc
    rw [value_bind, value_pure, settleFrom_of_clear hg hc, ← he]

theorem settleAll_of_clear (hg : ∀ l ∈ levels, l.bars.IsChain fun b c => gap ≤ c.x - b.stop)
    (hc : levels.IsChain fun l m => Clear l.bars m.bars) :
    (settleAll gap levels).value = levels := by
  induction levels with
  | nil => rfl
  | cons l rest ih =>
    obtain ⟨hl, hrest⟩ := List.forall_mem_cons.1 hg
    rw [value_settleAll_cons, ih hrest hc.of_cons]
    cases rest with
    | nil => rfl
    | cons below rest =>
      dsimp only
      rw [settle_of_clear hl (List.isChain_cons_cons.1 hc).1]

theorem Normal.merge_eq (h : Normal gap levels) : (merge gap levels).value = levels := by
  have hclose : levels.map (fun l => (close gap l).value) = levels :=
    (List.map_congr_left fun l hl => close_of_gaps (h.sorted l hl) (h.gaps l hl)).trans
      (List.map_id levels)
  rw [value_merge, hclose, settleAll_of_clear h.gaps h.clear]

/-- Merging brings levels into normal form, leaves them where they are, and does nothing to levels
in normal form; so merging again changes nothing. -/
theorem merge_normalizes (hg : 1 ≤ gap) :
    (∀ levels : List Level, (∀ l ∈ levels, ∀ b ∈ l.bars, 0 ≤ b.width) →
      Normal gap (merge gap levels).value ∧
      (merge gap levels).value.map (fun l => (l.y, l.height)) =
        levels.map (fun l => (l.y, l.height)) ∧
      (merge gap (merge gap levels).value).value = (merge gap levels).value) ∧
    ∀ levels : List Level, Normal gap levels → (merge gap levels).value = levels := by
  refine ⟨fun levels hw => ?_, fun levels h => h.merge_eq⟩
  have hw' : ∀ l ∈ levels, ∀ b ∈ l.bars, b.x ≤ b.stop :=
    fun l hl b hb => Int.le_add_of_nonneg_right (hw l hl b hb)
  have hn := merge_normal hg hw'
  refine ⟨hn, ?_, hn.merge_eq⟩
  have hf := @merge_tightened gap levels (by omega) hw'
  rw [← List.forall₂_eq_eq_eq, List.forall₂_map_left_iff, List.forall₂_map_right_iff]
  exact hf.flip.imp fun m l h => (Prod.ext h.y h.height : (m.y, m.height) = (l.y, l.height))

/-- Three levels, the middle one with a bar of no width inside another. -/
def staggered : List Level :=
  [⟨0, 10, [⟨30, 30⟩, ⟨10, 10⟩]⟩, ⟨10, 10, [⟨0, 20⟩, ⟨55, 0⟩, ⟨40, 30⟩]⟩, ⟨20, 10, [⟨10, 20⟩]⟩]

/-- The lowest bar narrows the gap above it, and what then stands there closes the topmost gap. -/
theorem merge_normalizes_staggered :
    (merge 10 staggered).value = [⟨0, 10, [⟨10, 50⟩]⟩, ⟨10, 10, [⟨0, 30⟩, ⟨40, 30⟩]⟩,
        ⟨20, 10, [⟨10, 20⟩]⟩] ∧
      Normal 10 (merge 10 staggered).value ∧
      (merge 10 (merge 10 staggered).value).value = (merge 10 staggered).value := by
  obtain ⟨hn, -, htwice⟩ := (@merge_normalizes 10 (by decide)).1 staggered (by decide)
  exact ⟨by decide, hn, htwice⟩

/-! ### What merging keeps -/

/-- A level covers at least what another one covers, and reaches as far. -/
structure Keeps (l m : Level) : Prop where
  around : ∀ b ∈ l.bars, ∃ c ∈ m.bars, b.Within c
  -- A bar covers its places from the left edge up to the right one.
  covered : ∀ x, (∃ b ∈ l.bars, b.x ≤ x ∧ x < b.stop) → ∃ c ∈ m.bars, c.x ≤ x ∧ x < c.stop
  left : (m.bars.map (·.x)).min? = (l.bars.map (·.x)).min?
  right : (m.bars.map (·.stop)).max? = (l.bars.map (·.stop)).max?

theorem Tightened.keeps {l m : Level} (h : Tightened gap l m) : Keeps l m := by
  refine ⟨h.covers.covers, fun x hx => ?_, min?_congr ?_ ?_, max?_congr ?_ ?_⟩
  · obtain ⟨b, hb, hle, hlt⟩ := hx
    obtain ⟨c, hc, hbc⟩ := h.covers.covers b hb
    exact ⟨c, hc, Int.le_trans hbc.1 hle, Int.lt_of_lt_of_le hlt hbc.2⟩
  · rw [List.forall_mem_map]
    intro c hc
    obtain ⟨b, hb, hbc⟩ := h.starts c hc
    exact ⟨b.x, List.mem_map_of_mem hb, hbc⟩
  · rw [List.forall_mem_map]
    intro b hb
    obtain ⟨c, hc, hbc⟩ := h.covers.covers b hb
    exact ⟨c.x, List.mem_map_of_mem hc, hbc.1⟩
  · rw [List.forall_mem_map]
    intro c hc
    obtain ⟨b, hb, hcb⟩ := h.ends c hc
    exact ⟨b.stop, List.mem_map_of_mem hb, hcb⟩
  · rw [List.forall_mem_map]
    intro b hb
    obtain ⟨c, hc, hbc⟩ := h.covers.covers b hb
    exact ⟨c.stop, List.mem_map_of_mem hc, hbc.2⟩

/-- Merging never uncovers a place, and every level reaches as far as before. A bar is only made
with a width that is not negative. -/
theorem merge_keeps (hg : 0 ≤ gap) (hw : ∀ l ∈ levels, ∀ b ∈ l.bars, 0 ≤ b.width) :
    List.Forall₂ Keeps levels (merge gap levels).value :=
  (merge_tightened hg fun l hl b hb => Int.le_add_of_nonneg_right (hw l hl b hb)).imp
    fun _ _ h => h.keeps

theorem merge_keeps_staggered :
    List.Forall₂ Keeps staggered (merge 0 staggered).value ∧
      (merge 0 staggered).value = [⟨0, 10, [⟨10, 20⟩, ⟨30, 30⟩]⟩,
        ⟨10, 10, [⟨0, 30⟩, ⟨40, 30⟩]⟩, ⟨20, 10, [⟨10, 20⟩]⟩] :=
  ⟨merge_keeps (by decide) (by decide), by decide⟩

end Level

end Drawing

end Pedigree
