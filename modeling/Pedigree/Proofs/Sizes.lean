import Pedigree.Proofs.Enclosing
import Pedigree.Proofs.Floors
import Pedigree.Proofs.Overlaps

/-! Sizes. A box is only made with sizes that are not negative, and a grid has a step: whatever goes
wrong while a document is drawn is a number that left its range. -/
namespace Pedigree

open Drawing

namespace Checked

/-- Only certain faults were met. -/
def Only (P : Fault → Prop) (x : Checked α) : Prop := ∀ f ∈ x.faults, P f

/-- No size was negative and nothing was divided by zero. -/
abbrev Sized (x : Checked α) : Prop := Only (· = .overflow) x

variable {P : Fault → Prop}

@[simp] theorem only_pure (a : α) : Only P (pure a) := fun _ h => by cases h

@[simp] theorem only_bind {x : Checked α} {f : α → Checked β} :
    Only P (x >>= f) ↔ Only P x ∧ Only P (f x.value) := by
  simp only [Only, faults_bind, List.mem_append, or_imp, forall_and]

@[simp] theorem only_map {f : α → β} {x : Checked α} : Only P (f <$> x) ↔ Only P x := by
  simp only [Only, faults_map]

@[simp] theorem only_mapM {f : α → Checked β} {xs : List α} :
    Only P (xs.mapM f) ↔ ∀ x ∈ xs, Only P (f x) := by
  induction xs with
  | nil => simp
  | cons x xs ih => simp [List.mapM_cons, ih]

theorem only_foldlM {f : β → α → Checked β} (h : ∀ b x, Only P (f b x)) (xs : List α) (b : β) :
    Only P (xs.foldlM f b) := by
  induction xs generalizing b with
  | nil => exact only_pure b
  | cons x xs ih => exact only_bind.2 ⟨h b x, ih _⟩

@[simp] theorem only_ite {c : Prop} {_ : Decidable c} {x y : Checked α} :
    Only P (if c then x else y) ↔ (c → Only P x) ∧ (¬c → Only P y) := by
  split <;> simp_all

@[simp] theorem sized_narrow (n : Int) : (narrow n).Sized := by
  unfold narrow Sized Only
  split <;> simp

@[simp] theorem sized_add (a b : Int) : (add a b).Sized := sized_narrow _
@[simp] theorem sized_sub (a b : Int) : (sub a b).Sized := sized_narrow _
@[simp] theorem sized_mul (a b : Int) : (mul a b).Sized := sized_narrow _
@[simp] theorem sized_neg (a : Int) : (neg a).Sized := sized_narrow _
@[simp] theorem sized_abs (a : Int) : (abs a).Sized := sized_narrow _

@[simp] theorem sized_size {n : Int} : (size n).Sized ↔ 0 ≤ n := by
  unfold size Sized Only
  split <;> simp_all

theorem sized_ediv {a b : Int} (hb : b ≠ 0) : (ediv a b).Sized := by
  unfold ediv
  rw [if_neg hb]
  exact sized_narrow _

@[simp] theorem sized_sum (xs : List Int) : (sum xs).Sized := only_foldlM sized_add xs 0

end Checked

open Checked

@[simp] theorem Pos.sized_translate (p : Pos) (dx dy : Int) : (p.translate dx dy).Sized := by
  simp [translate]

@[simp] theorem Pos.sized_plus (p q : Pos) : (p.plus q).Sized := p.sized_translate _ _

@[simp] theorem Pos.sized_minus (p q : Pos) : (p.minus q).Sized := by simp [minus]

@[simp] theorem Pos.sized_absSum (p : Pos) : p.absSum.Sized := by simp [absSum]

@[simp] theorem Pos.sized_scale (p : Pos) (k : Int) : (p.scale k).Sized := by simp [scale]

theorem Pos.sized_cell (p : Pos) {step : Int} (hs : 0 < step) : (p.cell step).Sized := by
  simp [cell, sized_ediv (Int.ne_of_gt hs)]

@[simp] theorem Rect.sized_right (r : Rect) : r.right.Sized := sized_add _ _

@[simp] theorem Rect.sized_bottom (r : Rect) : r.bottom.Sized := sized_add _ _

@[simp] theorem Rect.sized_corner (r : Rect) (c : Corner) : (r.corner c).Sized := by
  cases c <;> simp [corner]

@[simp] theorem Rect.sized_translate (r : Rect) (dx dy : Int) : (r.translate dx dy).Sized := by
  simp [translate]

@[simp] theorem Rect.sized_make {x y w h : Int} : (make x y w h).Sized ↔ 0 ≤ w ∧ 0 ≤ h := by
  simp [make]

@[simp] theorem Rect.sized_withWidth {r : Rect} {w : Int} : (r.withWidth w).Sized ↔ 0 ≤ w := by
  simp [withWidth]

@[simp] theorem Rect.sized_withHeight {r : Rect} {h : Int} :
    (r.withHeight h).Sized ↔ 0 ≤ h := by
  simp [withHeight]

@[simp] theorem Rect.sized_extendUp (r : Rect) (n : Int) : (r.extendUp n).Sized := by
  simp [extendUp]

/-- No size is negative. -/
structure Rect.Upright (r : Rect) : Prop where
  width : 0 ≤ r.width
  height : 0 ≤ r.height

/-! ### Outlines along the edges -/

namespace Drawing

namespace Edges

variable (side : Side)

@[simp] theorem sized_edge (r : Rect) : (side.edge r).Sized := by
  cases side <;> simp [Side.edge]

@[simp] theorem sized_outward (n : Int) : (side.outward n).Sized := by
  cases side <;> simp [Side.outward]

theorem sized_rows (arrows : Int) (title : Rect) (boxes : List Rect) :
    (rows side arrows title boxes).Sized := by
  simp [rows, rowOf]

theorem sized_snapFrom (above : Row) (rows : List Row) : (snapFrom side above rows).Sized := by
  induction rows generalizing above with
  | nil => exact only_pure _
  | cons row rows ih =>
    simp [snapFrom, ih]

theorem sized_snap (rows : List Row) : (snap side rows).Sized := by
  cases rows with
  | nil => exact only_pure _
  | cons row rows => exact sized_snapFrom side row rows

theorem sized_padInner (pad : Int) (previous current next : Pos) :
    (padInner side pad previous current next).Sized := by
  simp [padInner]

theorem sized_padAfter (pad : Int) (previous : Pos) (points : List Pos) :
    (padAfter side pad previous points).Sized := by
  fun_induction padAfter side pad previous points with
  | case1 => exact only_pure _
  | case2 => simp
  | case3 previous current next rest ih => simp [sized_padInner, ih]

theorem sized_liftStep (pad : Int) (points : List Pos) : (liftStep side pad points).Sized := by
  unfold liftStep
  split
  · split <;> simp
  · exact only_pure _

theorem sized_padPoints (pad : Int) (points : List Pos) : (padPoints side pad points).Sized := by
  unfold padPoints
  split
  · simp [sized_padAfter, sized_liftStep]
  · exact only_pure _

theorem sized_outline (padding arrows : Int) (b : Block) : (outline padding arrows b).Sized := by
  have htrace (side : Side) (boxes : List Rect) :
      (trace side padding arrows b.title.rect boxes).Sized := by
    simp [trace, sized_rows, sized_snap, grow, growUp, ends, sized_padPoints]
  simp [outline, htrace]

end Edges

/-! ### Bars -/

@[simp] theorem Bar.sized_right (b : Bar) : b.right.Sized := sized_add _ _

@[simp] theorem Bar.sized_reach {b : Bar} {right : Int} :
    (b.reach right).Sized ↔ b.x ≤ right := by
  simp [Bar.reach]

@[simp] theorem Bar.sized_startAt {b : Bar} {x : Int} : (b.startAt x).Sized ↔ x ≤ b.stop := by
  simp [Bar.startAt, Bar.stop]

namespace Level

variable {P : Fault → Prop}

theorem only_closeFrom_cons {gap : Int} {last bar : Bar} {bars : List Bar} :
    Only P (closeFrom gap last (bar :: bars)) ↔
      Only P last.right ∧ Only P (sub bar.x last.stop) ∧
        if bar.x - last.stop < gap then
          Only P bar.right ∧ Only P (last.reach (max last.stop bar.stop)) ∧
            Only P (closeFrom gap (last.upTo (max last.stop bar.stop)) bars)
        else Only P (closeFrom gap bar bars) := by
  rw [closeFrom, only_bind, only_bind]
  refine and_congr_right fun hl => and_congr_right fun _ => ?_
  change Only P (if bar.x - last.stop < gap then _ else _) ↔ _
  split
  · rw [only_bind, only_bind, only_bind]
    exact and_iff_right hl
  · rw [only_bind, and_iff_left (only_pure _)]

theorem only_openGap {below : List Bar} (h : ∀ b ∈ below, Only P b.right) (start stop : Int) :
    Only P (openGap start stop below) := by
  induction below generalizing start stop with
  | nil => exact only_pure _
  | cons bar bars ih =>
    obtain ⟨hb, hbars⟩ := List.forall_mem_cons.1 h
    refine only_bind.2 ⟨hb, ?_⟩
    generalize bar.right.value = right
    simp [ih hbars]

theorem only_settleFrom_cons {gap : Int} {below : List Bar} {last bar : Bar} {bars : List Bar}
    {start stop : Int} (hstart : (openGap last.stop bar.x below).value.1 = start)
    (hstop : (openGap last.stop bar.x below).value.2 = stop) :
    Only P (settleFrom gap below last (bar :: bars)) ↔
      Only P last.right ∧ Only P (openGap last.stop bar.x below) ∧ Only P (sub stop start) ∧
        if stop - start < gap then
          Only P bar.right ∧ Only P (last.reach bar.stop) ∧
            Only P (settleFrom gap below (last.upTo bar.stop) bars)
        else (start ≠ last.stop → Only P (last.reach start)) ∧
          (stop ≠ bar.x → Only P (bar.startAt stop)) ∧
            Only P (settleFrom gap below (bar.fromX stop) bars) := by
  subst hstart hstop
  have hr : last.right.value = last.stop := rfl
  rw [settleFrom, only_bind, only_bind, hr]
  refine and_congr_right fun _ => and_congr_right fun _ => ?_
  generalize (openGap last.stop bar.x below).value = g
  refine only_bind.trans (and_congr_right fun _ => ?_)
  change Only P (if g.2 - g.1 < gap then _ else _) ↔ _
  split
  · rw [only_bind, only_bind]
    rfl
  · by_cases hs : g.1 = last.stop <;> by_cases ht : g.2 = bar.x <;>
      simp only [hs, ht, if_true, if_false, only_bind, only_pure, value_pure, ne_eq, not_true,
        not_false_eq_true, false_imp_iff, true_imp_iff, true_and, and_true, Bar.fromX_self] <;>
      exact Iff.rfl

theorem sized_closeFrom {gap : Int} {last : Bar} {bars : List Bar}
    (hw : ∀ b ∈ last :: bars, b.x ≤ b.stop) (hs : (last :: bars).Pairwise (·.x ≤ ·.x)) :
    (closeFrom gap last bars).Sized := by
  induction bars generalizing last with
  | nil => exact only_pure _
  | cons bar bars ih =>
    obtain ⟨hlast, hbars⟩ := List.pairwise_cons.1 hs
    obtain ⟨hlw, hwb⟩ := List.forall_mem_cons.1 hw
    obtain ⟨hbw, hrest⟩ := List.forall_mem_cons.1 hwb
    refine only_closeFrom_cons.2 ⟨last.sized_right, sized_sub _ _, ?_⟩
    split
    · -- The bars join. The new one starts where the last one did.
      refine ⟨bar.sized_right, Bar.sized_reach.2 (by omega),
        ih (List.forall_mem_cons.2 ⟨?_, hrest⟩) (List.pairwise_cons.2
          ⟨(List.forall_mem_cons.1 hlast).2, (List.pairwise_cons.1 hbars).2⟩)⟩
      rw [Bar.upTo_x, Bar.upTo_stop]
      omega
    · exact ih hwb hbars

theorem sized_settleFrom {gap : Int} (hg : 0 ≤ gap) {below : List Bar} (hb : Gapped gap below)
    {last : Bar} {bars : List Bar} (h : Gapped gap (last :: bars)) :
    (settleFrom gap below last bars).Sized := by
  induction bars generalizing last with
  | nil => exact only_pure _
  | cons bar bars ih =>
    obtain ⟨hlast, hapart⟩ := List.pairwise_cons.1 h.apart
    obtain ⟨hlw, hupright⟩ := List.forall_mem_cons.1 h.upright
    have hbars : Gapped gap (bar :: bars) := ⟨hupright, hapart⟩
    have hbw := hupright bar List.mem_cons_self
    have hgap := hlast bar List.mem_cons_self
    obtain ⟨h₁, h₂, -⟩ := @openGap_left last.stop bar.x below (by omega) (hb.ascending hg)
      hb.upright
    have hopen := only_openGap (P := (· = .overflow)) (fun b (_ : b ∈ below) => b.sized_right)
      last.stop bar.x
    rw [Sized, only_settleFrom_cons rfl rfl]
    generalize (openGap last.stop bar.x below).value = g at h₁ h₂ ⊢
    refine ⟨last.sized_right, hopen, sized_sub _ _, ?_⟩
    split
    · refine ⟨bar.sized_right, Bar.sized_reach.2 (by omega), ih (hbars.replace _ ?_ ?_)⟩
      · rw [Bar.upTo_x, Bar.upTo_stop]
        omega
      · exact Bar.upTo_stop _ _
    · refine ⟨fun _ => Bar.sized_reach.2 (by omega), fun _ => Bar.sized_startAt.2 (by omega),
        ih (hbars.replace _ ?_ (Bar.fromX_stop _ _))⟩
      rw [Bar.fromX_x, Bar.fromX_stop]
      omega

theorem sized_close {gap : Int} {l : Level} (hw : ∀ b ∈ l.bars, b.x ≤ b.stop) :
    (close gap l).Sized := by
  have hs := pairwise_sortBy (fun b : Bar => b.x) l.bars
  have hw' : ∀ b ∈ sortBy (fun b : Bar => b.x) l.bars, b.x ≤ b.stop :=
    fun b hb => hw b (mem_sortBy.1 hb)
  unfold close
  split
  · exact only_pure _
  · next bar bars he =>
    rw [he] at hs hw'
    exact only_bind.2 ⟨sized_closeFrom hw' hs, only_pure _⟩

theorem sized_settle {gap : Int} (hg : 0 ≤ gap) {below : List Bar} (hb : Gapped gap below)
    {l : Level} (h : Gapped gap l.bars) : (settle gap below l).Sized := by
  unfold settle
  split
  · exact only_pure _
  · next bar bars he =>
    rw [he] at h
    exact only_bind.2 ⟨sized_settleFrom hg hb h, only_pure _⟩

theorem sized_settleAll {gap : Int} (hg : 0 ≤ gap) {levels : List Level}
    (h : ∀ l ∈ levels, Gapped gap l.bars) : (settleAll gap levels).Sized := by
  induction levels with
  | nil => exact only_pure _
  | cons l rest ih =>
    obtain ⟨hl, hrest⟩ := List.forall_mem_cons.1 h
    have hm := (settleAll_tightened hg hrest).1
    rw [settleAll, Sized, only_bind]
    refine ⟨ih hrest, ?_⟩
    generalize (settleAll gap rest).value = settled at hm ⊢
    cases settled with
    | nil => exact only_pure _
    | cons below rest =>
      obtain ⟨_, _, hb, -, -⟩ := List.forall₂_cons_right_iff.1 hm
      exact only_bind.2 ⟨sized_settle hg hb.gapped hl, only_pure _⟩

theorem sized_merge {gap : Int} (hg : 0 ≤ gap) {levels : List Level}
    (hw : ∀ l ∈ levels, ∀ b ∈ l.bars, b.x ≤ b.stop) : (merge gap levels).Sized := by
  refine only_bind.2 ⟨only_mapM.2 fun l hl => sized_close (hw l hl), ?_⟩
  rw [value_mapM]
  exact sized_settleAll hg (gapped_close hg hw)

theorem bars_touch (levels : List Level) :
    (touch levels).value.map (·.bars) = levels.map (·.bars) := by
  fun_induction touch levels with
  | case1 => rfl
  | case2 => rfl
  | case3 l next rest ih => exact congrArg (l.bars :: ·) ih

end Level

namespace Levels

theorem bars_stretched (padding : Int) (levels : List Level) :
    (stretched padding levels).map (·.bars) = levels.map (·.bars) := by
  cases levels with
  | nil => rfl
  | cons first rest =>
    have hlast (ls : List Level) : (ls.dropLast ++ ls.getLast?.toList.map fun l =>
        (⟨l.y, l.height + padding, l.bars⟩ : Level)).map (·.bars) = ls.map (·.bars) := by
      obtain rfl | ⟨ls, l, rfl⟩ := ls.eq_nil_or_concat'
      · rfl
      · simp
    exact hlast _

/-- The bars of a block are its boxes, padded. -/
theorem exists_box_of_mem_ofBlock {padding arrows : Int} {b : Block} {l : Level}
    (hl : l ∈ (ofBlock padding arrows b).value) {c : Bar} (hc : c ∈ l.bars) :
    ∃ r ∈ b.boxes, c = ⟨r.x - padding, r.width + padding * 2⟩ := by
  have hbars := List.mem_map_of_mem (f := Level.bars) hl
  rw [value_ofBlock, bars_stretched, Level.value_ofBoxes, Level.bars_touch, List.map_map] at hbars
  obtain ⟨row, hrow, he⟩ := List.mem_map.1 hbars
  rw [← he] at hc
  obtain ⟨r, hr, rfl⟩ := List.mem_map.1 hc
  obtain ⟨q, hq, rfl⟩ := List.mem_map.1 ((mem_group hrow).1 hr).1
  obtain rfl | hq := List.mem_cons.1 hq
  · exact ⟨b.title.rect, List.mem_cons_self, rfl⟩
  · exact ⟨q, List.mem_cons_of_mem _ hq, rfl⟩

end Levels

namespace Border

theorem sized_levelSides (l : Level) (first : Nat) : (levelSides l first).Sized := by
  simp [levelSides, sides]

theorem sized_linesFrom (above : List Vertex) (first : Nat) (levels : List Level) :
    (linesFrom above first levels).Sized := by
  induction levels generalizing above first with
  | nil => exact only_pure _
  | cons l rest ih => simp [linesFrom, sized_levelSides, ih]

theorem sized_trace (levels : List Level) : (trace levels).Sized := by
  refine only_bind.2 ⟨sized_linesFrom _ _ _, ?_⟩
  split
  · exact only_pure _
  · exact only_pure _

end Border

def Block.Upright (b : Block) : Prop := ∀ r ∈ b.boxes, r.Upright

theorem Block.Upright.of_outline {b : Block} (h : b.Upright) (o : List Pos) :
    ({ b with outline := o } : Block).Upright := h

theorem Block.Upright.moveTo {b : Block} (h : b.Upright) (p : Pos) : (b.moveTo p).Upright := h

namespace Levels

variable {padding arrows gap : Int} {b : Block}

theorem sized_touch (levels : List Level) : (Level.touch levels).Sized := by
  fun_induction Level.touch levels with
  | case1 => exact only_pure _
  | case2 => exact only_pure _
  | case3 l next rest ih => simp [ih]

theorem sized_ofBlock (hp : 0 ≤ padding) (ha : 0 ≤ arrows) (hb : b.Upright) :
    (ofBlock padding arrows b).Sized := by
  obtain ⟨htitle, hpersons⟩ := List.forall_mem_cons.1 hb
  have hh := htitle.height
  have hw : ∀ r ∈ (tall arrows b.title.rect) :: b.persons.map (·.rect), 0 ≤ r.width :=
    List.forall_mem_cons.2 ⟨htitle.width, fun r hr => (hpersons r hr).width⟩
  refine only_bind.2 ⟨sized_add _ _, only_bind.2 ⟨Rect.sized_withHeight.2 ?_,
    only_bind.2 ⟨only_mapM.2 fun r hr => ?_, only_bind.2 ⟨sized_touch _, ?_⟩⟩⟩⟩
  · rw [value_add]
    omega
  · have := hw r hr
    simp
    omega
  · split
    · exact only_pure _
    · simp [Level.growUp, Level.growDown]

theorem sized_outline (hp : 0 ≤ padding) (ha : 0 ≤ arrows) (hg : 0 ≤ gap) (hb : b.Upright) :
    (outline padding arrows gap b).Sized := by
  refine only_bind.2 ⟨sized_ofBlock hp ha hb, only_bind.2 ⟨?_, Border.sized_trace _⟩⟩
  refine Level.sized_merge hg fun l hl c hc => ?_
  obtain ⟨r, hr, rfl⟩ := exists_box_of_mem_ofBlock hl hc
  have := (hb r hr).width
  unfold Bar.stop
  dsimp only
  omega

end Levels

end Drawing

/-! ### Blocks -/

namespace Figure

variable {S : Type} {style : Style S}

theorem generation_upright {arrows y : Int} {boxes : List Rect} (hne : boxes ≠ [])
    (ha : 0 ≤ arrows) (hy : ∀ r ∈ boxes, r.y = y) (hb : ∀ r ∈ boxes, r.Upright) :
    (generation arrows y boxes).Sized ∧ (generation arrows y boxes).value.Upright := by
  have hwidth : (boxes.map (·.x)).min?.getD 0 ≤ (boxes.map fun r => r.x + r.width).max?.getD 0 :=
    getD_min?_le_getD_max? fun r hr => Int.le_add_of_nonneg_right (hb r hr).width
  have hheight : y ≤ (boxes.map fun r => r.y + r.height).max?.getD 0 := by
    obtain ⟨r, hr⟩ := List.exists_mem_of_ne_nil _ hne
    calc y = r.y := (hy r hr).symm
      _ ≤ r.y + r.height := Int.le_add_of_nonneg_right (hb r hr).height
      _ ≤ _ := le_getD_max? (List.mem_map_of_mem (f := fun r => r.y + r.height) hr)
  refine ⟨?_, ⟨?_, ?_⟩⟩
  · simp [generation]
    omega
  · simp [generation]
    omega
  · simp [generation]
    omega

theorem bands_upright {arrows : Int} {b : Block} (ha : 0 ≤ arrows) (hb : b.Upright) :
    (bands arrows b).Sized ∧ ∀ band ∈ (bands arrows b).value, band.Upright := by
  obtain ⟨htitle, hpersons⟩ := List.forall_mem_cons.1 hb
  have hth := htitle.height
  have hrow (g : Int × List Rect) (hg : g ∈ groupsBy (·.y) (b.persons.map (·.rect))) :
      (generation arrows g.1 g.2).Sized ∧ (generation arrows g.1 g.2).value.Upright :=
    generation_upright (group_ne_nil hg) ha (fun r hr => ((mem_group hg).1 hr).2)
      fun r hr => hpersons r ((mem_group hg).1 hr).1
  constructor
  · refine only_bind.2 ⟨sized_add _ _, only_bind.2 ⟨Rect.sized_withHeight.2 ?_,
      only_bind.2 ⟨only_mapM.2 fun g hg => (hrow g hg).1, only_pure _⟩⟩⟩
    rw [value_add]
    omega
  · unfold bands
    simp only [value_bind, value_mapM, value_pure, Rect.value_withHeight, value_add]
    refine List.forall_mem_cons.2 ⟨⟨htitle.width, ?_⟩, fun band h => ?_⟩
    · dsimp only
      omega
    · obtain ⟨g, hg, rfl⟩ := List.mem_map.1 h
      exact (hrow g hg).2

theorem sized_firstCell {step : Int} (hs : 0 < step) (place : Int) :
    (firstCell step place).Sized := by
  simp [firstCell, sized_ediv (Int.ne_of_gt hs)]

theorem sized_cells {b : Block} (hs : 0 < style.gridStep) (hp : 0 ≤ style.padding)
    (ha : 0 ≤ style.arrows) (hb : b.Upright) : (cells style b).Sized := by
  obtain ⟨hf, hbands⟩ := bands_upright ha hb
  refine only_bind.2 ⟨hf, only_bind.2 ⟨only_mapM.2 fun band h => ?_, only_bind.2
    ⟨only_mapM.2 fun box _ => ?_, only_pure _⟩⟩⟩
  · obtain ⟨hw, hh⟩ := hbands band h
    simp [pad]
    omega
  · simp [cellsOf, sized_firstCell hs]

end Figure

namespace Drawing

mutual

theorem Person.sized_translate (dx dy : Int) : (p : Person) → (p.translate dx dy).Sized
  | ⟨rect, name, partner, member, children⟩ => by
    simp [Person.translate, Person.sized_translateAll dx dy children]

theorem Person.sized_translateAll (dx dy : Int) : (ps : List Person) →
    (Person.translateAll dx dy ps).Sized
  | [] => only_pure _
  | p :: ps => by
    simp [Person.translateAll, Person.sized_translate dx dy p,
      Person.sized_translateAll dx dy ps]

end

namespace Block

theorem sized_placeRoots (top gap x : Int) (rs : List Root) : (placeRoots top gap x rs).Sized := by
  induction rs generalizing x with
  | nil => exact only_pure _
  | cons r rs ih => simp [placeRoots, Root.place, Person.sized_translate, ih]

theorem sized_stackFrom (y : Int) (bs : List Block) : (stackFrom y bs).Sized := by
  induction bs generalizing y with
  | nil => exact only_pure _
  | cons b bs ih => simp [stackFrom, ih]

theorem sized_span (padding gap titleWidth : Int) (roots : List Root) :
    (span padding gap titleWidth roots).Sized := by
  unfold span
  split <;> simp

theorem width_span_nonneg {padding gap titleWidth : Int} {roots : List Root} (hp : 0 ≤ padding)
    (hg : 0 ≤ gap) (ht : 0 ≤ titleWidth) (hw : ∀ r ∈ roots, 0 ≤ r.rect.width) :
    0 ≤ (span padding gap titleWidth roots).value.2 := by
  unfold span
  split
  · next first last hf hl =>
    have hgaps : 0 ≤ ((roots.length : Int) - 1) * gap := by
      refine Int.mul_nonneg ?_ hg
      have := List.length_pos_of_mem (List.mem_of_head? hf)
      omega
    have hsum : 0 ≤ (roots.map (·.rect.width)).foldl (· + ·) 0 := by
      rw [← List.sum_eq_foldl]
      exact List.sum_nonneg (List.forall_mem_map.2 hw)
    simp only [value_bind, value_add, value_mul, value_sum, value_pure]
    omega
  · simp
    omega

end Block

end Drawing

namespace Style

/-- Sizes that no drawing can turn negative. It does not take more: however names are sized, a box
of a person is never narrower than nothing. -/
structure Upright (s : Style Binary32) : Prop where
  titleSize : s.titleSize.NotBelow
  padding : 0 ≤ s.padding
  gap : 0 ≤ s.gap
  personHeight : s.personHeight.NotBelow
  arrows : 0 ≤ s.arrows
  gridStep : 0 < s.gridStep

end Style

theorem Style.Upright.titleHeight {style : Style Binary32} (h : style.Upright) :
    0 ≤ style.titleHeight := by
  rw [Style.titleHeight]
  exact Binary32.trunc_nonneg h.titleSize

theorem Style.Upright.titleWidth {style : Style Binary32} (h : style.Upright) {ratio : Binary32}
    (hr : ratio.NotBelow) (chars : Nat) : 0 ≤ style.titleWidth ratio chars := by
  have hchars : (Scalar.ofInt (chars : Int) : Binary32).NotBelow :=
    Binary32.notBelow_ofInt (Int.natCast_nonneg chars)
  have hwidth := (hchars.mul h.titleSize).mul hr
  rw [Style.titleWidth]
  exact Binary32.trunc_nonneg hwidth

namespace Subtree

section

variable {S : Type} [Scalar S]

mutual

theorem sized_draw (boxes : List (Nat × Rect)) (left : Int) (partner : Bool) : (b : Branch) →
    (draw boxes left partner b).Sized
  | .node index label member bonds => by simp [draw, sized_drawBonds boxes left bonds]

theorem sized_drawBonds (boxes : List (Nat × Rect)) (left : Int) : (bonds : List Bond) →
    (drawBonds boxes left bonds).Sized
  | [] => only_pure _
  | ⟨partners, children⟩ :: bonds => by
    simp [drawBonds, sized_drawAll boxes left true partners,
      sized_drawAll boxes left false children, sized_drawBonds boxes left bonds]

theorem sized_drawAll (boxes : List (Nat × Rect)) (left : Int) (partner : Bool) :
    (bs : List Branch) → (drawAll boxes left partner bs).Sized
  | [] => only_pure _
  | b :: bs => by
    simp [drawAll, sized_draw boxes left partner b, sized_drawAll boxes left partner bs]

end

end

variable {style : Style Binary32} {ratio : Binary32}

theorem boxes_upright (h : style.Upright) {b : Branch} {p : Nat × Rect}
    (hp : p ∈ boxes style ratio b) : p.2.Upright := by
  obtain ⟨n, -, rfl⟩ := List.mem_map.1 hp
  exact ⟨Int.le_max_right _ _, Binary32.round_nonneg h.personHeight⟩

theorem layout_upright (h : style.Upright) (b : Branch) : (layout style ratio b).Sized ∧
    0 ≤ (layout style ratio b).value.rect.width ∧
      ∀ p ∈ (layout style ratio b).value.person.walk, p.rect.Upright := by
  have hwidth : 0 ≤ (layout style ratio b).value.rect.width := by
    rw [width_layout]
    refine Int.sub_nonneg.2 (getD_min?_le_getD_max? fun p hp => ?_)
    exact Int.le_add_of_nonneg_right (boxes_upright h hp).width
  refine ⟨?_, hwidth, fun p hp => ?_⟩
  · have hbox (n : Tidy.Node Binary32 Nat) : (boxOf style n).Sized :=
      Rect.sized_make.2 ⟨Int.le_max_right _ _, Binary32.round_nonneg h.personHeight⟩
    have hheight := (rect_layout style ratio b).2.2
    have hdraw := sized_draw (boxes style ratio b) (leftEdge style ratio b) false b
    rw [width_layout] at hwidth
    refine only_bind.2 ⟨only_mapM.2 fun n _ => only_bind.2 ⟨hbox n, only_pure _⟩, ?_⟩
    refine only_bind.2 ⟨only_mapM.2 fun p _ => Rect.sized_right _, ?_⟩
    refine only_bind.2 ⟨only_mapM.2 fun p _ => Rect.sized_bottom _, ?_⟩
    simp only [value_bind, value_mapM, value_pure] at hdraw hwidth ⊢
    refine only_bind.2 ⟨hdraw, only_bind.2 ⟨sized_sub _ _, only_bind.2 ⟨?_, only_pure _⟩⟩⟩
    exact Rect.sized_make.2 ⟨hwidth, Block.nonneg_foldl_max _⟩
  · obtain ⟨n, -, he⟩ := exists_node_of_mem_walk style ratio hp
    rw [he]
    exact ⟨Int.le_max_right _ _, Binary32.round_nonneg h.personHeight⟩

end Subtree

namespace Drawing.Block

variable {style : Style Binary32} {ratio : Binary32}

theorem compose_upright (h : style.Upright) (hr : ratio.NotBelow) (label : String)
    {roots : List Root} (hw : ∀ r ∈ roots, 0 ≤ r.rect.width)
    (hp : ∀ r ∈ roots, ∀ p ∈ r.person.walk, p.rect.Upright) :
    (compose style ratio label roots).Sized ∧ (compose style ratio label roots).value.Upright := by
  have hpad := h.padding
  have harrows := h.arrows
  have hth := h.titleHeight
  have htw := h.titleWidth hr label.length
  constructor
  · have hplaced : ∀ r ∈ (placeRoots style.rootsTop.value style.gap style.padding roots).value,
        0 ≤ r.rect.width := by
      have hwidths := widths_placeRoots style.rootsTop.value style.gap style.padding roots
      rw [← List.forall_mem_map (P := fun w => 0 ≤ w), hwidths]
      exact List.forall_mem_map.2 hw
    have hspan := width_span_nonneg hpad h.gap htw hplaced
    have hheight := nonneg_foldl_max ((placeRoots style.rootsTop.value style.gap style.padding
      roots).value.map (·.rect.height))
    refine only_bind.2 ⟨?_, only_bind.2 ⟨sized_placeRoots _ _ _ _, only_bind.2
      ⟨sized_span _ _ _ _, only_bind.2 ⟨Rect.sized_make.2 ⟨htw, hth⟩, only_bind.2
        ⟨sized_add _ _, only_bind.2 ⟨sized_add _ _, only_bind.2 ⟨?_, only_pure _⟩⟩⟩⟩⟩⟩⟩
    · simp [Style.rootsTop]
    · refine Rect.sized_make.2 ⟨hspan, ?_⟩
      rw [value_add, value_add, value_rootsTop]
      rw [value_rootsTop] at hheight
      omega
  · obtain ⟨titleX, width, hc⟩ := compose_spec style ratio label roots
    refine List.forall_mem_cons.2 ⟨?_, List.forall_mem_map.2 fun p hmem => ?_⟩
    · rw [hc]
      exact ⟨htw, hth⟩
    · obtain ⟨r, hr, q, hq, dx, he⟩ := exists_of_mem_persons hmem
      obtain ⟨hwidth, hheight⟩ := hp r hr q hq
      rw [he]
      exact ⟨hwidth, hheight⟩

end Drawing.Block

namespace Layout

theorem value_composed {S : Type} [Scalar S] (style : Style S) (ratio : S) (k : Kinship) :
    (composed style ratio k).value =
      (Block.compose style ratio k.label (roots style ratio k).value).value := rfl

variable {settings : Settings Binary32} {style : Style Binary32} {ratio : Binary32}

theorem composed_upright (h : style.Upright) (hr : ratio.NotBelow) (k : Kinship) :
    (composed style ratio k).Sized ∧ (composed style ratio k).value.Upright := by
  have hroots : ∀ r ∈ (roots style ratio k).value,
      0 ≤ r.rect.width ∧ ∀ p ∈ r.person.walk, p.rect.Upright := by
    intro r hr
    rw [roots, value_mapM] at hr
    obtain ⟨t, -, rfl⟩ := List.mem_map.1 hr
    exact (Subtree.layout_upright h t).2
  obtain ⟨hf, hv⟩ := Block.compose_upright h hr k.label (fun r hr => (hroots r hr).1)
    fun r hr => (hroots r hr).2
  constructor
  · rw [composed, Sized, only_bind]
    constructor
    · rw [roots, only_mapM]
      exact fun t _ => (Subtree.layout_upright h t).1
    · exact hf
  · rw [value_composed]
    exact hv

theorem sized_outline (h : style.Upright) (kind : OutlineKind) {b : Block} (hb : b.Upright) :
    (outline style kind b).Sized := by
  unfold outline
  split
  · exact only_pure _
  · cases kind with
    | edges => exact Edges.sized_outline _ _ _
    | levels => exact Levels.sized_outline h.padding h.arrows h.gap hb

theorem block_upright (h : settings.style.Upright) (hr : ratio.NotBelow) (k : Kinship) :
    (block settings ratio k).Sized ∧ (block settings ratio k).value.Upright := by
  obtain ⟨hf, hv⟩ := composed_upright h hr k
  obtain ⟨o, ho⟩ := block_spec settings ratio k
  constructor
  · rw [value_composed] at hv
    rw [composed, Sized, only_bind] at hf
    rw [block, Sized, only_bind]
    refine ⟨hf.1, only_bind.2 ⟨hf.2, only_bind.2 ⟨?_, only_pure _⟩⟩⟩
    exact sized_outline h settings.outline hv
  · rw [ho]
    exact hv.of_outline o

theorem stacked_upright (h : settings.style.Upright) (hr : ratio.NotBelow) (document : Snapshot) :
    (stacked settings ratio document).Sized ∧
      ∀ b ∈ (stacked settings ratio document).value, b.Upright := by
  refine ⟨only_bind.2 ⟨only_mapM.2 fun k _ => (block_upright h hr k).1,
    Block.sized_stackFrom _ _⟩, fun b hb => ?_⟩
  rw [stacked, value_bind, value_mapM] at hb
  obtain ⟨b', hb', y, rfl⟩ := Block.exists_of_mem_stackFrom hb
  obtain ⟨k, -, rfl⟩ := List.mem_map.1 hb'
  exact (block_upright h hr k).2.moveTo _

end Layout

namespace Checked

theorem Sized.eq_overflow {x : Checked α} (h : x.Sized) {f : Fault} (hf : x.run = .error f) :
    f = .overflow := by
  unfold run at hf
  split at hf
  · cases hf
  · next g _ he =>
    cases hf
    exact h f (he ▸ List.mem_cons_self)

theorem Sized.eq_overflow_of_bind {x : Checked α} (h : x.Sized) {k : α → Except Fault β} {f : Fault}
    (hk : k x.value = .error f → f = .overflow) (hf : (x.run >>= k) = .error f) :
    f = .overflow := by
  cases of_bind_eq_error hf with
  | inl hx => exact h.eq_overflow hx
  | inr hx =>
    obtain ⟨a, ha, hka⟩ := hx
    rw [← value_of_run ha] at hka
    exact hk hka

end Checked

namespace Packing

theorem sized_distance {step : Int} (hs : 0 < step) (s : State) (l : Link) :
    (distance step s l).Sized := by
  simp [distance, Figure.anchorCell, Pos.sized_cell _ hs]

theorem sized_shiftCells (r : Region) (offset : Pos) : (shiftCells r offset).Sized := by
  simp [shiftCells]

/-- Only an overflow keeps a link from being followed. -/
theorem follow_eq_error {step : Int} (hs : 0 < step) {s : State} {l : Link} {f : Fault}
    (h : follow step s l = .error f) : f = .overflow := by
  refine (sized_distance hs s l).eq_overflow_of_bind (fun h => ?_) h
  refine (sized_shiftCells _ _).eq_overflow_of_bind (fun h => ?_) h
  refine (Pos.sized_scale _ _).eq_overflow_of_bind (fun h => ?_) h
  exact (Pos.sized_plus _ _).eq_overflow_of_bind (fun h => by cases h) h

theorem followAll_eq_error {step : Int} (hs : 0 < step) {s : State} {ls : List Link} {f : Fault}
    (h : followAll step s ls = .error f) : f = .overflow := by
  induction ls generalizing s with
  | nil => cases h
  | cons l ls ih =>
    cases of_bind_eq_error h with
    | inl hl => exact follow_eq_error hs hl
    | inr h =>
      obtain ⟨r, -, h⟩ := h
      cases of_bind_eq_error h with
      | inl hls => exact ih hls
      | inr h =>
        obtain ⟨q, -, h⟩ := h
        cases h

theorem pack_eq_error {style : Style Binary32} (h : style.Upright) {blocks : List Block}
    (hb : ∀ b ∈ blocks, b.Upright) {f : Fault} (hf : pack style blocks = .error f) :
    f = .overflow := by
  have hcells : (blocks.mapM (Figure.cells style)).Sized :=
    only_mapM.2 fun b hm => Figure.sized_cells h.gridStep h.padding h.arrows (hb b hm)
  unfold pack at hf
  split at hf
  · cases hf
  · cases of_bind_eq_error hf with
    | inl hstart => exact hcells.eq_overflow_of_bind (fun h => by cases h) hstart
    | inr hf =>
      obtain ⟨s, -, hf⟩ := hf
      cases of_bind_eq_error hf with
      | inl hall => exact followAll_eq_error h.gridStep hall
      | inr hf =>
        obtain ⟨r, -, hf⟩ := hf
        cases hf

end Packing

namespace Layout

variable {settings : Settings Binary32} {ratio : Binary32}

theorem notBelow_of_isPositive (h : ratio.isPositive) : ratio.NotBelow := by
  cases ratio with
  | nan => cases h
  | infinite s => cases h
  | finite s a =>
    simp only [Binary32.isPositive, Bool.and_eq_true, Bool.not_eq_true'] at h
    obtain ⟨rfl, -⟩ := h
    exact Binary32.notBelow_finite.2 (Int.natCast_nonneg _)

theorem drawn_eq_error (h : settings.style.Upright) (hr : ratio.NotBelow) {document : Snapshot}
    {f : Fault} (hf : drawn settings ratio document = .error f) : f = .overflow := by
  obtain ⟨hsized, hblocks⟩ := stacked_upright h hr document
  refine hsized.eq_overflow_of_bind (fun hf => ?_) hf
  split at hf
  · cases of_bind_eq_error hf with
    | inl hpack => exact Packing.pack_eq_error h hblocks hpack
    | inr hf =>
      obtain ⟨r, -, hf⟩ := hf
      cases hf
  · cases hf

/-- Where no size of a style is negative and the grid has a step, a drawing never makes a box of a
negative size, neither on the way to its blocks nor for the cells that they take, and never divides
by zero. Only an overflow keeps it from being drawn. -/
theorem sizes_nonneg (h : settings.style.Upright) (hr : ratio.isPositive) (document : Snapshot) :
    (stacked settings ratio document).Sized ∧
      (∀ b ∈ (stacked settings ratio document).value, b.Upright) ∧
      ((stacked settings ratio document).value.mapM (Figure.cells settings.style)).Sized ∧
      (∀ s l f, Packing.follow settings.style.gridStep s l = .error f → f = .overflow) ∧
      ∀ r, align settings ratio document = .error r → r = .fault .overflow := by
  have hratio := notBelow_of_isPositive hr
  obtain ⟨hsized, hblocks⟩ := stacked_upright h hratio document
  refine ⟨hsized, hblocks, only_mapM.2 fun b hb => ?_, fun s l f hf => ?_, fun r hf => ?_⟩
  · exact Figure.sized_cells h.gridStep h.padding h.arrows (hblocks b hb)
  · exact Packing.follow_eq_error h.gridStep hf
  · unfold align at hf
    rw [hr, Bool.not_true, if_neg Bool.false_ne_true, if_neg (Int.not_le.2 h.gridStep)] at hf
    cases hd : drawn settings ratio document with
    | ok blocks =>
      rw [hd] at hf
      cases hf
    | error f =>
      rw [hd] at hf
      cases hf
      rw [drawn_eq_error h hratio hd]

/-- Names without room around them: all gaps are empty. -/
def flat : Settings Binary32 :=
  { (default : Settings Binary32) with
    outline := .levels
    style := { (default : Style Binary32) with padding := 0, gap := 0, arrows := 0 } }

theorem sizes_nonneg_flat : flat.style.Upright ∧ flat.fontRatio.isPositive ∧
    (stacked flat flat.fontRatio daughterBelow).value.map
        (fun b => b.boxes.map fun r => (r.width, r.height)) =
      [[(80, 16), (88, 30), (100, 30)], [(80, 16), (88, 30), (100, 30)]] ∧
    (stacked flat flat.fontRatio daughterBelow).Sized ∧
    (∀ b ∈ (stacked flat flat.fontRatio daughterBelow).value, b.Upright) ∧
    ((stacked flat flat.fontRatio daughterBelow).value.mapM (Figure.cells flat.style)).Sized ∧
    ∀ r, align flat flat.fontRatio daughterBelow = .error r → r = .fault .overflow := by
  have hstyle : flat.style.Upright :=
    ⟨by decide +kernel, by decide, by decide, by decide +kernel, by decide, by decide⟩
  have hratio : flat.fontRatio.isPositive := by decide +kernel
  obtain ⟨hsized, hblocks, hcells, -, halign⟩ := sizes_nonneg hstyle hratio daughterBelow
  exact ⟨hstyle, hratio, by decide +kernel, hsized, hblocks, hcells, halign⟩

end Layout

end Pedigree
