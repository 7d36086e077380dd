import Pedigree.Proofs.Hanging
import Pedigree.Proofs.Rows

/-! The levels of a block. Boxes in rows take one level for each row, and the levels reach down to
each other; the title has the first level for itself. -/
namespace Pedigree

open Checked

namespace Drawing

namespace Level

/-- Boxes of one top have one height, and rows do not reach into each other. -/
structure InRows (boxes : List Rect) : Prop where
  high : ∀ r ∈ boxes, 0 ≤ r.height
  even : ∀ r ∈ boxes, ∀ q ∈ boxes, r.y = q.y → r.height = q.height
  apart : ∀ r ∈ boxes, ∀ q ∈ boxes, r.y < q.y → r.y + r.height ≤ q.y

def barOf (r : Rect) : Bar := ⟨r.x, r.width⟩

/-- A box stands in a level: its rows are rows of the level, which has a bar for it. -/
structure Holds (l : Level) (r : Rect) : Prop where
  top : l.y ≤ r.y
  bottom : r.y + r.height ≤ l.y + l.height
  bar : barOf r ∈ l.bars

/-- Levels in one piece that hold boxes, with a box for each of their bars. -/
structure Floors (boxes : List Rect) (levels : List Level) : Prop where
  touch : levels.IsChain fun l m => l.y + l.height = m.y
  high : ∀ l ∈ levels, 0 ≤ l.height
  holds : ∀ r ∈ boxes, ∃ l ∈ levels, Holds l r
  full : ∀ l ∈ levels, l.bars ≠ []
  origin : ∀ l ∈ levels, ∀ b ∈ l.bars, ∃ r ∈ boxes, barOf r = b ∧ Holds l r

/-- The level of a row of boxes, as high as its first box. -/
def ofRow (row : Int × List Rect) : Level :=
  ⟨row.1, (row.2.head?.map (·.height)).getD 0, row.2.map barOf⟩

theorem value_ofBoxes (boxes : List Rect) :
    (ofBoxes boxes).value = (touch ((groupsBy (·.y) boxes).map ofRow)).value := rfl

/-- A level with the same bars that starts in the same place and is at least as high. -/
structure Deepens (l m : Level) : Prop where
  y : m.y = l.y
  bars : m.bars = l.bars
  height : l.height ≤ m.height

theorem Deepens.refl (l : Level) : Deepens l l := ⟨rfl, rfl, Int.le_refl _⟩

theorem Deepens.holds {l m : Level} (h : Deepens l m) {r : Rect} (hr : Holds l r) :
    Holds m r := by
  have hy := h.y
  have hh := h.height
  have ht := hr.top
  have hb := hr.bottom
  exact ⟨by omega, by omega, h.bars ▸ hr.bar⟩

theorem value_touch_cons (l m : Level) (rest : List Level) :
    (touch (l :: m :: rest)).value =
      { l with height := m.y - l.y } :: (touch (m :: rest)).value := rfl

theorem head?_touch (l : Level) (rest : List Level) :
    (touch (l :: rest)).value.head?.map (·.y) = some l.y := by
  cases rest <;> rfl

/-- Levels that are made to touch only get deeper. -/
theorem touch_spec {levels : List Level}
    (h : levels.Pairwise fun l m => l.y + l.height ≤ m.y) :
    List.Forall₂ Deepens levels (touch levels).value ∧
      (touch levels).value.IsChain fun l m => l.y + l.height = m.y := by
  induction levels with
  | nil => exact ⟨.nil, List.isChain_nil⟩
  | cons l rest ih =>
    obtain ⟨hl, hrest⟩ := List.pairwise_cons.1 h
    obtain ⟨hd, hc⟩ := ih hrest
    cases rest with
    | nil => exact ⟨.cons (.refl l) .nil, List.isChain_singleton l⟩
    | cons m rest =>
      have hlm := hl m List.mem_cons_self
      rw [value_touch_cons]
      obtain ⟨m', rest', hm, -, he⟩ := List.forall₂_cons_left_iff.1 hd
      refine ⟨.cons ⟨rfl, rfl, ?_⟩ hd, ?_⟩
      · dsimp only
        omega
      · rw [he] at hc ⊢
        refine List.isChain_cons_cons.2 ⟨?_, hc⟩
        rw [hm.y]
        dsimp only
        omega

theorem holds_ofRow {boxes : List Rect} (h : InRows boxes) {row : Int × List Rect}
    (hrow : row ∈ groupsBy (·.y) boxes) {r : Rect} (hr : r ∈ row.2) :
    Holds (ofRow row) r ∧ (ofRow row).y = r.y ∧ (ofRow row).height = r.height := by
  obtain ⟨hm, hy⟩ := (mem_group hrow).1 hr
  have hheight : (ofRow row).height = r.height := by
    cases he : row.2 with
    | nil =>
      rw [he] at hr
      cases hr
    | cons q qs =>
      obtain ⟨hq, hqy⟩ := (mem_group hrow).1 (he ▸ List.mem_cons_self : q ∈ row.2)
      unfold ofRow
      rw [he]
      exact h.even q hq r hm (hqy.trans hy.symm)
  have hylevel : (ofRow row).y = r.y := hy.symm
  refine ⟨⟨Int.le_of_eq hylevel, ?_, List.mem_map_of_mem hr⟩, hylevel, hheight⟩
  exact Int.le_of_eq (by rw [hylevel, hheight])

theorem le_ofRow {boxes : List Rect} (h : InRows boxes) {y : Int} (hbelow : ∀ r ∈ boxes, y ≤ r.y)
    {row : Int × List Rect} (hrow : row ∈ groupsBy (·.y) boxes) : y ≤ (ofRow row).y := by
  obtain ⟨r, hr⟩ := List.exists_mem_of_ne_nil _ (group_ne_nil hrow)
  rw [(holds_ofRow h hrow hr).2.1]
  exact hbelow r ((mem_group hrow).1 hr).1

theorem floors_ofBoxes {boxes : List Rect} (h : InRows boxes) :
    Floors boxes (ofBoxes boxes).value := by
  have hrow (row : Int × List Rect) (hrow : row ∈ groupsBy (·.y) boxes) : ∃ r ∈ boxes,
      (ofRow row).y = r.y ∧ (ofRow row).height = r.height := by
    obtain ⟨r, hr⟩ := List.exists_mem_of_ne_nil _ (group_ne_nil hrow)
    obtain ⟨-, hy, hh⟩ := holds_ofRow h hrow hr
    exact ⟨r, ((mem_group hrow).1 hr).1, hy, hh⟩
  -- Rows that do not reach into each other are all that making them touch needs.
  have hapart : ((groupsBy (·.y) boxes).map ofRow).Pairwise fun l m =>
      l.y + l.height ≤ m.y := by
    refine List.pairwise_map.2 ((pairwise_groupsBy _ _).imp_of_mem fun {a b} ha hb hlt => ?_)
    obtain ⟨r, hr, hry, hrh⟩ := hrow a ha
    obtain ⟨q, hq, hqy, -⟩ := hrow b hb
    have hlt' : (ofRow a).y < (ofRow b).y := hlt
    rw [hry, hrh, hqy]
    exact h.apart r hr q hq (by omega)
  obtain ⟨hd, hc⟩ := touch_spec hapart
  rw [← value_ofBoxes] at hd hc
  have horigin (m : Level) (hm : m ∈ (ofBoxes boxes).value) :
      ∃ row ∈ groupsBy (·.y) boxes, Deepens (ofRow row) m := by
    obtain ⟨l, hl, hlm⟩ := exists_mem_of_forall₂ hd.flip hm
    obtain ⟨row, hrow, rfl⟩ := List.mem_map.1 hl
    exact ⟨row, hrow, hlm⟩
  refine ⟨hc, fun m hm => ?_, fun r hr => ?_, fun m hm => ?_, fun m hm b hb => ?_⟩
  · obtain ⟨row, hg, hdeep⟩ := horigin m hm
    obtain ⟨r, hr, -, hrh⟩ := hrow row hg
    have := h.high r hr
    have := hdeep.height
    omega
  · obtain ⟨row, hg, -, hmem⟩ := exists_group Rect.y hr
    obtain ⟨m, hm, hdeep⟩ := exists_mem_of_forall₂ hd (List.mem_map_of_mem hg)
    exact ⟨m, hm, hdeep.holds (holds_ofRow h hg hmem).1⟩
  · obtain ⟨row, hg, hdeep⟩ := horigin m hm
    rw [hdeep.bars]
    exact fun he => group_ne_nil hg (List.map_eq_nil_iff.1 he)
  · obtain ⟨row, hg, hdeep⟩ := horigin m hm
    rw [hdeep.bars] at hb
    obtain ⟨r, hr, rfl⟩ := List.mem_map.1 hb
    exact ⟨r, ((mem_group hg).1 hr).1, rfl, hdeep.holds (holds_ofRow h hg hr).1⟩

theorem Floors.growLast {boxes : List Rect} {levels : List Level} {l : Level} {amount : Int}
    (ha : 0 ≤ amount) (h : Floors boxes (levels ++ [l])) :
    Floors boxes (levels ++ [⟨l.y, l.height + amount, l.bars⟩]) := by
  have hdeep : Deepens l ⟨l.y, l.height + amount, l.bars⟩ :=
    ⟨rfl, rfl, Int.le_add_of_nonneg_right ha⟩
  have hl : l ∈ levels ++ [l] := List.mem_append_right _ List.mem_cons_self
  have hlevels {m : Level} (hm : m ∈ levels) : m ∈ levels ++ [l] := List.mem_append_left _ hm
  refine ⟨?_, fun m hm => ?_, fun r hr => ?_, fun m hm => ?_, fun m hm => ?_⟩
  · obtain ⟨hlevels, -, hlast⟩ := List.isChain_append.1 h.touch
    refine List.isChain_append.2 ⟨hlevels, List.isChain_singleton _, fun m hm q hq => ?_⟩
    cases hq
    exact hlast m hm l rfl
  · obtain hm | hm := List.mem_append.1 hm
    · exact h.high m (hlevels hm)
    · obtain rfl := List.mem_singleton.1 hm
      exact Int.add_nonneg (h.high l hl) ha
  · obtain ⟨m, hm, hmr⟩ := h.holds r hr
    obtain hm | hm := List.mem_append.1 hm
    · exact ⟨m, List.mem_append_left _ hm, hmr⟩
    · obtain rfl := List.mem_singleton.1 hm
      exact ⟨_, List.mem_append_right _ List.mem_cons_self, hdeep.holds hmr⟩
  · obtain hm | hm := List.mem_append.1 hm
    · exact h.full m (hlevels hm)
    · obtain rfl := List.mem_singleton.1 hm
      exact h.full l hl
  · obtain hm | hm := List.mem_append.1 hm
    · exact h.origin m (hlevels hm)
    · obtain rfl := List.mem_singleton.1 hm
      intro b hb
      obtain ⟨r, hr, he, hlr⟩ := h.origin l hl b hb
      exact ⟨r, hr, he, hdeep.holds hlr⟩

/-- One more box may stand in a level of its own, down to the first level. -/
theorem Floors.cons {boxes : List Rect} {l : Level} {levels : List Level} {r : Rect}
    (h : Floors boxes levels) (hl : 0 ≤ l.height)
    (htouch : ∀ m ∈ levels.head?, l.y + l.height = m.y) (hbars : l.bars = [barOf r])
    (hr : Holds l r) : Floors (r :: boxes) (l :: levels) := by
  refine ⟨List.isChain_cons.2 ⟨htouch, h.touch⟩, fun m hm => ?_, fun q hq => ?_, fun m hm => ?_,
    fun m hm b hb => ?_⟩
  · obtain rfl | hm := List.mem_cons.1 hm
    · exact hl
    · exact h.high m hm
  · obtain rfl | hq := List.mem_cons.1 hq
    · exact ⟨l, List.mem_cons_self, hr⟩
    · obtain ⟨m, hm, hmq⟩ := h.holds q hq
      exact ⟨m, List.mem_cons_of_mem _ hm, hmq⟩
  · obtain rfl | hm := List.mem_cons.1 hm
    · rw [hbars]
      exact List.cons_ne_nil _ _
    · exact h.full m hm
  · obtain rfl | hm := List.mem_cons.1 hm
    · rw [hbars] at hb
      exact ⟨r, List.mem_cons_self, (List.mem_singleton.1 hb).symm, hr⟩
    · obtain ⟨q, hq, he, hmq⟩ := h.origin m hm b hb
      exact ⟨q, List.mem_cons_of_mem _ hq, he, hmq⟩

theorem Floors.wide {boxes : List Rect} {levels : List Level} (h : Floors boxes levels)
    (hw : ∀ r ∈ boxes, 0 < r.width) : ∀ l ∈ levels, ∀ b ∈ l.bars, b.x < b.stop := by
  intro l hl b hb
  obtain ⟨r, hr, rfl, -⟩ := h.origin l hl b hb
  have := hw r hr
  unfold barOf Bar.stop
  dsimp only
  omega

/-- Merging leaves levels piled up, with all boxes inside their bars. -/
theorem Floors.piled {gap : Int} (hg : 1 ≤ gap) {boxes : List Rect} {levels : List Level}
    (h : Floors boxes levels) (hw : ∀ r ∈ boxes, 0 < r.width) :
    Piled gap (merge gap levels).value := by
  obtain ⟨hm, hclear⟩ := merge_merged hg (h.wide hw)
  have horigin (m : Level) (hm' : m ∈ (merge gap levels).value) :
      ∃ l ∈ levels, Merged gap l m := exists_mem_of_forall₂ hm.flip hm'
  refine ⟨fun m hm' => ?_, hclear, fun m hm' => ?_, ?_, fun m hm' => ?_⟩
  · obtain ⟨l, -, hlm⟩ := horigin m hm'
    exact hlm.spaced
  · obtain ⟨l, hl, hlm⟩ := horigin m hm'
    rw [hlm.height]
    exact h.high l hl
  · refine isChain_of_forall₂ (fun l m hlm p q hpq htouch => ?_) hm h.touch
    rw [hlm.y, hlm.height, hpq.y]
    exact htouch
  · obtain ⟨l, hl, hlm⟩ := horigin m hm'
    obtain ⟨b, hb⟩ := List.exists_mem_of_ne_nil _ (h.full l hl)
    obtain ⟨c, hc, -⟩ := hlm.covers.covers b hb
    exact List.ne_nil_of_mem hc

end Level

namespace Levels

def padded (padding : Int) (r : Rect) : Rect :=
  ⟨r.x - padding, r.y, r.width + padding * 2, r.height⟩

def tall (arrows : Int) (title : Rect) : Rect := { title with height := title.height + arrows }

/-- The first level reaches further up, the last one further down. -/
def stretched (padding : Int) : List Level → List Level
  | [] => []
  | first :: rest =>
    let levels := ⟨first.y - padding, first.height + padding, first.bars⟩ :: rest
    levels.dropLast ++ levels.getLast?.toList.map fun l => ⟨l.y, l.height + padding, l.bars⟩

theorem value_ofBlock (padding arrows : Int) (b : Block) : (ofBlock padding arrows b).value =
    stretched padding (Level.ofBoxes
      ((tall arrows b.title.rect :: b.persons.map (·.rect)).map (padded padding))).value := by
  have hpad : (fun r : Rect => ((r.translate (neg padding).value 0).value.withWidth
      (add r.width (mul padding 2).value).value).value) = padded padding := by
    funext r
    simp only [Rect.value_translate, Rect.value_withWidth, value_neg, value_add, value_mul, padded,
      Int.add_zero, Int.sub_eq_add_neg]
  unfold ofBlock
  simp only [value_bind, value_mapM]
  rw [hpad]
  change (match (Level.ofBoxes ((tall arrows b.title.rect :: b.persons.map (·.rect)).map
    (padded padding))).value with | [] => _ | first :: rest => _ : Checked (List Level)).value = _
  cases (Level.ofBoxes ((tall arrows b.title.rect :: b.persons.map (·.rect)).map
    (padded padding))).value with
  | nil => rfl
  | cons first rest =>
    simp only [value_bind, value_mapM, value_pure]
    rfl

theorem stretched_concat (padding : Int) (first last : Level) (mid : List Level) :
    stretched padding (first :: (mid ++ [last])) =
      ⟨first.y - padding, first.height + padding, first.bars⟩ ::
        (mid ++ [⟨last.y, last.height + padding, last.bars⟩]) := by
  unfold stretched
  dsimp only
  rw [← List.cons_append, List.dropLast_concat, List.getLast?_concat]
  rfl

/-- Stretching keeps boxes in their levels below a level that one more box has for itself. -/
theorem floors_stretched {padding : Int} (hp : 0 ≤ padding) {t : Rect} {boxes : List Rect}
    {levels : List Level} {y : Int} (ht : 0 ≤ t.height) (hle : t.y + t.height ≤ y)
    (h : Level.Floors boxes levels) (hhead : levels.head?.map (·.y) = some y) : ∃ l rest,
      stretched padding (⟨t.y, y - t.y, [Level.barOf t]⟩ :: levels) = l :: rest ∧
      l.bars = [Level.barOf t] ∧ Level.Floors (t :: boxes) (l :: rest) := by
  obtain rfl | ⟨mid, last, rfl⟩ := List.eq_nil_or_concat' levels
  · cases hhead
  · rw [stretched_concat]
    refine ⟨_, _, rfl, rfl, (h.growLast hp).cons ?_ ?_ rfl ⟨?_, ?_, List.mem_cons_self⟩⟩
    · dsimp only
      omega
    · intro m hm
      have hmy : some m.y = some y := by
        rw [← hhead]
        cases mid with
        | nil =>
          cases hm
          rfl
        | cons k mid =>
          cases hm
          rfl
      have := Option.some.inj hmy
      dsimp only
      omega
    · dsimp only
      omega
    · dsimp only
      omega

/-- A box above all others has the first level to itself, the others have levels below. -/
theorem stretched_floors {padding : Int} (hp : 0 ≤ padding) {t : Rect} {boxes : List Rect}
    (ht : 0 < t.height) (hrows : Level.InRows boxes) (hne : boxes ≠ [])
    (hbelow : ∀ r ∈ boxes, t.y + t.height ≤ r.y) : ∃ l rest,
      stretched padding (Level.ofBoxes (t :: boxes)).value = l :: rest ∧
      l.bars = [Level.barOf t] ∧ Level.Floors (t :: boxes) (l :: rest) := by
  have habove : ∀ r ∈ boxes, Rect.y t < Rect.y r := by
    intro r hr
    have := hbelow r hr
    omega
  have hgroups : groupsBy (·.y) (t :: boxes) = (t.y, [t]) :: groupsBy (·.y) boxes :=
    groupsBy_cons_of_lt habove
  have hfloors := Level.floors_ofBoxes hrows
  rw [Level.value_ofBoxes] at hfloors ⊢
  rw [hgroups, List.map_cons]
  cases hg : groupsBy (·.y) boxes with
  | nil =>
    obtain ⟨r, hr⟩ := List.exists_mem_of_ne_nil _ hne
    obtain ⟨row, hrow, -⟩ := exists_group Rect.y hr
    rw [hg] at hrow
    cases hrow
  | cons row rows =>
    have hle := Level.le_ofRow hrows hbelow (hg ▸ List.mem_cons_self : row ∈ groupsBy (·.y) boxes)
    have hhead := Level.head?_touch (Level.ofRow row) (rows.map Level.ofRow)
    rw [hg, List.map_cons] at hfloors
    have htitle : Level.ofRow (t.y, [t]) = ⟨t.y, t.height, [Level.barOf t]⟩ := rfl
    rw [List.map_cons, Level.value_touch_cons, htitle]
    exact floors_stretched hp (Int.le_of_lt ht) hle hfloors hhead

theorem inRows_padded (padding : Int) {boxes : List Rect} (h : Level.InRows boxes) :
    Level.InRows (boxes.map (padded padding)) := by
  refine ⟨fun r hr => ?_, fun r hr q hq => ?_, fun r hr q hq => ?_⟩
  · obtain ⟨r', hr', rfl⟩ := List.mem_map.1 hr
    exact h.high r' hr'
  · obtain ⟨r', hr', rfl⟩ := List.mem_map.1 hr
    obtain ⟨q', hq', rfl⟩ := List.mem_map.1 hq
    exact h.even r' hr' q' hq'
  · obtain ⟨r', hr', rfl⟩ := List.mem_map.1 hr
    obtain ⟨q', hq', rfl⟩ := List.mem_map.1 hq
    exact h.apart r' hr' q' hq'

end Levels

end Drawing

end Pedigree
