import Pedigree.Proofs.Floors
import Pedigree.Proofs.RowTops

/-! The outline around the levels of a block encloses all its boxes exactly if every bar of its
merged levels hangs at a bar of the level above. -/
namespace Pedigree

open Checked Drawing

namespace Drawing

namespace Levels

/-- Points that pass every row of every box once downwards on its left and once upwards on its
right, and end as high as they start, so that closing them passes no row. -/
structure Encloses (b : Block) (points : List Pos) : Prop where
  closed : points.head?.map (·.y) = points.getLast?.map (·.y)
  left : ∀ r ∈ b.boxes, ∀ y, r.y ≤ y → y < r.y + r.height → crossings (· ≤ r.x) y points = 1
  right : ∀ r ∈ b.boxes, ∀ y, r.y ≤ y → y < r.y + r.height →
    crossings (r.x + r.width ≤ ·) y points = -1

/-- The levels of a block as they are when its outline is drawn around them. -/
def merged (padding arrows gap : Int) (b : Block) : List Level :=
  (Level.merge gap (ofBlock padding arrows b).value).value

/-- A bar of a level around a box, with padding on both sides. -/
structure Around (padding : Int) (m : Level) (c : Bar) (r : Rect) : Prop where
  rows : ∀ y, r.y ≤ y → y < r.y + r.height → m.Has y
  left : c.x ≤ r.x - padding
  right : r.x + r.width + padding ≤ c.stop

/-- Boxes of a block below each other: what its outline is drawn around. -/
structure Ordered (arrows : Int) (b : Block) : Prop where
  persons : b.persons ≠ []
  width : ∀ r ∈ b.boxes, 0 ≤ r.width
  height : ∀ r ∈ b.boxes, 0 < r.height
  rows : Level.InRows (b.persons.map (·.rect))
  below : ∀ r ∈ b.persons.map (·.rect),
    b.title.rect.y + (b.title.rect.height + arrows) ≤ r.y

variable {padding arrows gap : Int} {b : Block}

/-- The second box is the first one, reaching further down maybe. -/
structure Extends (r q : Rect) : Prop where
  x : q.x = r.x
  y : q.y = r.y
  width : q.width = r.width
  height : r.height ≤ q.height

/-- The boxes that the levels of a block hold, without padding. -/
def tallBoxes (arrows : Int) (b : Block) : List Rect :=
  tall arrows b.title.rect :: b.persons.map (·.rect)

theorem exists_tallBox (ha : 0 ≤ arrows) {r : Rect} (hr : r ∈ b.boxes) :
    ∃ q ∈ tallBoxes arrows b, Extends r q := by
  obtain rfl | hr := List.mem_cons.1 hr
  · exact ⟨_, List.mem_cons_self, rfl, rfl, rfl, Int.le_add_of_nonneg_right ha⟩
  · exact ⟨r, List.mem_cons_of_mem _ hr, rfl, rfl, rfl, Int.le_refl _⟩

theorem exists_box_of_tallBox (ha : 0 ≤ arrows) {q : Rect} (hq : q ∈ tallBoxes arrows b) :
    ∃ r ∈ b.boxes, Extends r q := by
  obtain rfl | hq := List.mem_cons.1 hq
  · exact ⟨b.title.rect, List.mem_cons_self, rfl, rfl, rfl, Int.le_add_of_nonneg_right ha⟩
  · exact ⟨q, List.mem_cons_of_mem _ hq, rfl, rfl, rfl, Int.le_refl _⟩

theorem around_of_holds {l m : Level} (hm : Level.Merged gap l m) {c : Bar} {r q : Rect}
    (hl : Level.Holds l (padded padding q)) (hc : (Level.barOf (padded padding q)).Within c)
    (hq : Extends r q) : Around padding m c r := by
  have hx := hq.x
  have hy := hq.y
  have hw := hq.width
  have hh := hq.height
  have ht := hl.top
  have hb := hl.bottom
  obtain ⟨hc₁, hc₂⟩ := hc
  unfold padded at ht hb
  unfold Level.barOf padded Bar.stop at hc₂
  unfold Level.barOf padded at hc₁
  dsimp only at ht hb hc₁ hc₂
  refine ⟨fun y h₁ h₂ => ?_, by omega, ?_⟩
  · unfold Level.Has
    rw [hm.y, hm.height]
    omega
  · unfold Bar.stop
    omega

theorem single_of_merged (hg : 1 ≤ gap) {l m : Level} (h : Level.Merged gap l m) {t : Bar}
    (ht : l.bars = [t]) (hw : t.x < t.stop) : ∃ c, m.bars = [c] := by
  have hin : ∀ c ∈ m.bars, t.Within c := by
    intro c hc
    obtain ⟨d, hd, hdc⟩ := h.covers.origin c hc
    rw [ht] at hd
    exact List.mem_singleton.1 hd ▸ hdc
  obtain ⟨c, hc, -⟩ := h.covers.covers t (by rw [ht]; exact List.mem_cons_self)
  have hspaced := h.spaced
  cases he : m.bars with
  | nil =>
    rw [he] at hc
    cases hc
  | cons d ds =>
    cases ds with
    | nil => exact ⟨d, rfl⟩
    | cons e es =>
      rw [he] at hin hspaced
      obtain ⟨hd₁, hd₂⟩ := hin d List.mem_cons_self
      obtain ⟨he₁, he₂⟩ := hin e (List.mem_cons_of_mem _ List.mem_cons_self)
      have hde := (List.pairwise_cons.1 hspaced.apart).1 e List.mem_cons_self
      omega

theorem Ordered.wide (h : Ordered arrows b) (hp : 0 < padding) :
    ∀ r ∈ (tallBoxes arrows b).map (padded padding), 0 < r.width := by
  intro r hr
  obtain ⟨q, hq, rfl⟩ := List.mem_map.1 hr
  have hw : 0 ≤ q.width := by
    obtain rfl | hq := List.mem_cons.1 hq
    · exact (h.width _ List.mem_cons_self : 0 ≤ b.title.rect.width)
    · exact h.width q (List.mem_cons_of_mem _ hq)
  unfold padded
  dsimp only
  omega

/-- The levels of a block hold its boxes, the first one the title alone. -/
theorem ofBlock_floors (hp : 0 < padding) (ha : 0 ≤ arrows) (h : Ordered arrows b) : ∃ l rest,
    (ofBlock padding arrows b).value = l :: rest ∧
      l.bars = [Level.barOf (padded padding (tall arrows b.title.rect))] ∧
      Level.Floors ((tallBoxes arrows b).map (padded padding)) (l :: rest) := by
  have htall : 0 < (padded padding (tall arrows b.title.rect)).height :=
    Int.add_pos_of_pos_of_nonneg (h.height _ List.mem_cons_self) ha
  have hne : (b.persons.map (·.rect)).map (padded padding) ≠ [] := by simpa using h.persons
  have hlow : ∀ r ∈ (b.persons.map (·.rect)).map (padded padding),
      (padded padding (tall arrows b.title.rect)).y +
        (padded padding (tall arrows b.title.rect)).height ≤ r.y := by
    intro r hr
    obtain ⟨q, hq, rfl⟩ := List.mem_map.1 hr
    exact h.below q hq
  rw [value_ofBlock]
  exact stretched_floors (Int.le_of_lt hp) htall (inRows_padded padding h.rows) hne hlow

/-- What the outline is drawn around: levels piled up below the single bar of the title, with a bar
around every box and a box in every bar. -/
theorem merged_spec (hp : 0 < padding) (ha : 0 ≤ arrows) (hg : 1 ≤ gap) (h : Ordered arrows b) :
    ∃ l rest t, merged padding arrows gap b = l :: rest ∧ l.bars = [t] ∧
      Level.Piled gap (l :: rest) ∧
      (∀ r ∈ b.boxes, ∃ m ∈ l :: rest, ∃ c ∈ m.bars, Around padding m c r) ∧
      ∀ m ∈ l :: rest, ∀ c ∈ m.bars, ∃ r ∈ b.boxes, Around padding m c r := by
  obtain ⟨l, rest, hv, hbars, hfloors⟩ := ofBlock_floors hp ha h
  have hwide := hfloors.wide (h.wide hp)
  have hpiled := hfloors.piled hg (h.wide hp)
  have hmerged := (Level.merge_merged hg hwide).1
  obtain ⟨l', rest', hll', -, he⟩ := List.forall₂_cons_left_iff.1 hmerged
  have hstop := hwide l List.mem_cons_self _ (by rw [hbars]; exact List.mem_cons_self)
  obtain ⟨t, ht⟩ := single_of_merged hg hll' hbars hstop
  have hv' : merged padding arrows gap b = l' :: rest' := by
    unfold merged
    rw [hv, he]
  rw [he] at hpiled hmerged
  refine ⟨l', rest', t, hv', ht, hpiled, fun r hr => ?_, fun m hm c hc => ?_⟩
  · obtain ⟨q, hq, hrq⟩ := exists_tallBox ha hr
    obtain ⟨k, hk, hkq⟩ := hfloors.holds _ (List.mem_map_of_mem hq)
    obtain ⟨m, hm, hkm⟩ := exists_mem_of_forall₂ hmerged hk
    obtain ⟨c, hc, hqc⟩ := hkm.covers.covers _ hkq.bar
    exact ⟨m, hm, c, hc, around_of_holds hkm hkq hqc hrq⟩
  · obtain ⟨k, hk, hkm⟩ := exists_mem_of_forall₂ hmerged.flip hm
    obtain ⟨d, hd, hdc⟩ := hkm.covers.origin c hc
    obtain ⟨p, hp', rfl, hkp⟩ := hfloors.origin k hk d hd
    obtain ⟨q, hq, rfl⟩ := List.mem_map.1 hp'
    obtain ⟨r, hr, hrq⟩ := exists_box_of_tallBox ha hq
    exact ⟨r, hr, around_of_holds hkm hkp hdc hrq⟩

/-- The outline encloses all boxes of a block exactly if all bars of its levels hang. -/
theorem outline_encloses_iff (hp : 0 < padding) (ha : 0 ≤ arrows) (hg : 1 ≤ gap)
    (h : Ordered arrows b) : Encloses b (outline padding arrows gap b).value ↔
      (merged padding arrows gap b).IsChain Level.Hangs := by
  obtain ⟨l, rest, t, hv, ht, hpiled, hbox, hbar⟩ := merged_spec hp ha hg h
  have ho : (outline padding arrows gap b).value =
      (Border.trace (merged padding arrows gap b)).value := by
    unfold outline merged
    rw [value_bind, value_bind]
  rw [ho, hv]
  constructor
  · intro henc
    by_contra hh
    obtain ⟨m, hm, c, hc, hmiss⟩ := hpiled.exists_missed hg ht hh
    obtain ⟨r, hr, har⟩ := hbar m hm c hc
    have hheight := h.height r hr
    have hwidth := h.width r hr
    have hleft := har.left
    have hright := har.right
    have hy := har.rows r.y (Int.le_refl _) (by omega)
    -- The bar holds a box, whose first row the outline would have to pass on the missed side.
    obtain hzero | hzero := hmiss
    · have hone := henc.left r hr r.y (Int.le_refl _) (by omega)
      rw [hzero r.y hy r.x (by omega)] at hone
      omega
    · have hone := henc.right r hr r.y (Int.le_refl _) (by omega)
      rw [hzero r.y hy (r.x + r.width) (by omega)] at hone
      omega
  · intro hh
    refine ⟨hpiled.closed_of_hangs hg ht hh, fun r hr y h₁ h₂ => ?_, fun r hr y h₁ h₂ => ?_⟩
    · obtain ⟨m, hm, c, hc, har⟩ := hbox r hr
      have hwidth := h.width r hr
      have hleft := har.left
      have hright := har.right
      exact (hpiled.crossings_of_hangs hg ht hh hm hc (har.rows y h₁ h₂)).1 r.x (by omega)
        (by omega)
    · obtain ⟨m, hm, c, hc, har⟩ := hbox r hr
      have hwidth := h.width r hr
      have hleft := har.left
      have hright := har.right
      exact (hpiled.crossings_of_hangs hg ht hh hm hc (har.rows y h₁ h₂)).2 (r.x + r.width)
        (by omega) (by omega)

theorem exists_step_of_crossings_ne_zero {keep : Int → Bool} {y : Int} {points : List Pos}
    (h : crossings keep y points ≠ 0) : ∃ p ∈ points, ∃ q ∈ points,
      keep p.x ∧ keep q.x ∧ p.y ≤ y ∧ y < q.y := by
  induction points with
  | nil => exact absurd rfl h
  | cons p rest ih =>
    cases rest with
    | nil => exact absurd rfl h
    | cons q rest =>
      by_cases hr : crossings keep y (q :: rest) = 0
      · rw [crossings, hr, Int.add_zero] at h
        split at h
        · next hk =>
          rw [Bool.and_eq_true] at hk
          unfold crossing at h
          split at h
          · next hy =>
            exact ⟨p, List.mem_cons_self, q, List.mem_cons_of_mem _ List.mem_cons_self, hk.1, hk.2,
              hy⟩
          split at h
          · next hy =>
            exact ⟨q, List.mem_cons_of_mem _ List.mem_cons_self, p, List.mem_cons_self, hk.2, hk.1,
              hy⟩
          · exact absurd rfl h
        · exact absurd rfl h
      · obtain ⟨p', hp, q', hq, hs⟩ := ih hr
        exact ⟨p', List.mem_cons_of_mem _ hp, q', List.mem_cons_of_mem _ hq, hs⟩

theorem Encloses.around {points : List Pos} (h : Encloses b points) {r : Rect} (hr : r ∈ b.boxes)
    (hh : 0 < r.height) : (∃ q ∈ points, q.x ≤ r.x) ∧ (∃ q ∈ points, r.x + r.width ≤ q.x) ∧
      (∃ q ∈ points, q.y ≤ r.y) ∧ ∃ q ∈ points, r.y + r.height ≤ q.y := by
  have htop := h.left r hr r.y (Int.le_refl _) (by omega)
  have hbottom := h.right r hr (r.y + r.height - 1) (by omega) (by omega)
  have htop0 : crossings (· ≤ r.x) r.y points ≠ 0 := by
    rw [htop]
    decide
  have hbottom0 : crossings (r.x + r.width ≤ ·) (r.y + r.height - 1) points ≠ 0 := by
    rw [hbottom]
    decide
  obtain ⟨p, hp, -, -, hkp, -, hpy, -⟩ := exists_step_of_crossings_ne_zero htop0
  obtain ⟨-, -, q, hq, -, hkq, -, hqy⟩ := exists_step_of_crossings_ne_zero hbottom0
  rw [decide_eq_true_eq] at hkp hkq
  exact ⟨⟨p, hp, hkp⟩, ⟨q, hq, hkq⟩, ⟨p, hp, hpy⟩, ⟨q, hq, by omega⟩⟩

end Levels

end Drawing

namespace Layout

variable {ratio : Binary32} {k : Kinship}

theorem titleHeight_default : (default : Style Binary32).titleHeight = 16 := by decide +kernel

theorem round_personHeight_default : Scalar.round (default : Style Binary32).personHeight = 30 :=
  Binary32.round_of_isWhole (@Binary32.isWhole_ofInt 30 (by decide))

/-- A person of a block in the default style stands in a row. -/
theorem exists_row_of_mem_persons
    (hf : (composed (default : Style Binary32) ratio k).faults = []) {r : Rect}
    (hr : r ∈ (composed (default : Style Binary32) ratio k).value.persons.map (·.rect)) :
    ∃ d, r.y = 51 + Scalar.round (rowTop d) ∧ r.height = 30 ∧ 0 ≤ r.width ∧
      Scalar.round (rowTop d) < 2147483647 := by
  obtain ⟨p, hp, rfl⟩ := List.mem_map.1 hr
  obtain ⟨t, -, n, hn, hs⟩ := standsAt_of_mem_persons hp
  obtain ⟨d, hd⟩ := exists_rowTop_of_mem_nodes hn
  have htop := hs.top
  have hheight := hs.height
  have hbottom := hs.bottom
  have hlimit := height_le_limit hf
  have hpad : (default : Style Binary32).padding = 10 := rfl
  have harrows : (default : Style Binary32).arrows = 25 := rfl
  rw [Block.value_rootsTop, titleHeight_default, hpad, harrows, hd] at htop
  rw [round_personHeight_default] at hheight
  rw [hpad] at hbottom
  refine ⟨d, by omega, hheight, ?_, by omega⟩
  rw [hs.width]
  exact Int.le_max_right _ _

/-- The boxes of a block in the default style are below each other, however deep it is. -/
theorem composed_ordered (hf : (composed (default : Style Binary32) ratio k).faults = [])
    (hroots : (composed (default : Style Binary32) ratio k).value.roots ≠ []) :
    Levels.Ordered 25 (composed (default : Style Binary32) ratio k).value := by
  obtain ⟨titleX, ht, hwidth, -⟩ := rect_title hf
  have hpad : (default : Style Binary32).padding = 10 := rfl
  rw [titleHeight_default, hpad] at ht
  have hrow {r : Rect}
      (hr : r ∈ (composed (default : Style Binary32) ratio k).value.persons.map (·.rect)) :=
    exists_row_of_mem_persons hf hr
  refine ⟨persons_ne_nil hroots, fun r hr => ?_, fun r hr => ?_, ⟨fun r hr => ?_,
    fun r hr q hq _ => ?_, fun r hr q hq hlt => ?_⟩, fun r hr => ?_⟩
  · obtain rfl | hr := List.mem_cons.1 hr
    · rw [ht]
      exact hwidth
    · obtain ⟨d, -, -, hw, -⟩ := hrow hr
      exact hw
  · obtain rfl | hr := List.mem_cons.1 hr
    · rw [ht]
      exact (by decide : (0 : Int) < 16)
    · obtain ⟨d, -, hh, -, -⟩ := hrow hr
      omega
  · obtain ⟨d, -, hh, -, -⟩ := hrow hr
    omega
  · obtain ⟨d, -, hh, -, -⟩ := hrow hr
    obtain ⟨e, -, hh', -, -⟩ := hrow hq
    omega
  · obtain ⟨d, hy, hh, -, -⟩ := hrow hr
    obtain ⟨e, hy', -, -, hlimit⟩ := hrow hq
    have := room_of_rowTop_lt (by omega : Scalar.round (rowTop d) < Scalar.round (rowTop e)) hlimit
    omega
  · obtain ⟨d, hy, -, -, -⟩ := hrow hr
    have := round_rowTop_nonneg d
    rw [ht]
    dsimp only
    omega

def levels {S : Type} (style : Style S) (b : Block) : List Level :=
  Levels.merged style.padding style.arrows style.gap b

/-- The outline around the levels of a block in the default style encloses its title and all its
persons exactly if every bar of the merged levels hangs at one of the level above. -/
theorem levels_outline_encloses_iff {b : Block}
    (hb : (composed (default : Style Binary32) ratio k).run = .ok b) (hroots : b.roots ≠ [])
    {points : List Pos} (ho : (outline (default : Style Binary32) .levels b).run = .ok points) :
    Levels.Encloses b points ↔ (levels (default : Style Binary32) b).IsChain Level.Hangs := by
  obtain ⟨hf, rfl⟩ := run_eq_ok_iff.1 hb
  rw [outline_of_roots _ .levels hroots] at ho
  rw [← value_of_run ho]
  exact Levels.outline_encloses_iff (by decide) (by decide) (by decide)
    (composed_ordered hf hroots)

theorem levels_outline_encloses_coupleWithSons : ∃ b points,
    (composed (default : Style Binary32) (Binary32.ofInt 1) coupleWithSons).run = .ok b ∧
      b.roots ≠ [] ∧ (outline (default : Style Binary32) .levels b).run = .ok points ∧
      Levels.Encloses b points := by
  have hb := run_eq_ok_value
    (x := composed (default : Style Binary32) (Binary32.ofInt 1) coupleWithSons) (by decide +kernel)
  have ho := run_eq_ok_value (x := outline (default : Style Binary32) .levels
    (composed (default : Style Binary32) (Binary32.ofInt 1) coupleWithSons).value)
    (by decide +kernel)
  have hroots : (composed (default : Style Binary32) (Binary32.ofInt 1)
    coupleWithSons).value.roots.isEmpty = false := by decide +kernel
  have hne := List.isEmpty_eq_false_iff.1 hroots
  exact ⟨_, _, hb, hne, ho, (levels_outline_encloses_iff hb hne ho).2 (by decide +kernel)⟩

/-- A root with a wide grandchild, and beside it a root of its own. -/
def lonelyRoot : Kinship :=
  .ofFamily (fun r => if r.label = "B" then some (.member "S" "B") else none)
    ⟨"S", [⟨[⟨2, "A"⟩], [⟨4, "B"⟩], true⟩, ⟨[⟨6, "B"⟩], [⟨8, "Ccccccccccccccc"⟩], true⟩,
      ⟨[⟨24, "P"⟩], [], true⟩]⟩

/-- The second root is right of the title and right of its whole outline. -/
theorem levels_outline_misses_lonelyRoot : ∃ b points,
    (composed (default : Style Binary32) (Binary32.ofInt 1) lonelyRoot).run = .ok b ∧
      b.roots ≠ [] ∧ (outline (default : Style Binary32) .levels b).run = .ok points ∧
      ¬Levels.Encloses b points ∧ ∃ p ∈ b.persons, ∀ q ∈ points, q.x < p.rect.x := by
  have hb := run_eq_ok_value
    (x := composed (default : Style Binary32) (Binary32.ofInt 1) lonelyRoot) (by decide +kernel)
  have ho := run_eq_ok_value (x := outline (default : Style Binary32) .levels
    (composed (default : Style Binary32) (Binary32.ofInt 1) lonelyRoot).value) (by decide +kernel)
  have hroots : (composed (default : Style Binary32) (Binary32.ofInt 1)
    lonelyRoot).value.roots.isEmpty = false := by decide +kernel
  have hmiss : ∃ p ∈ (composed (default : Style Binary32) (Binary32.ofInt 1)
      lonelyRoot).value.persons, 0 < p.rect.height ∧ 0 ≤ p.rect.width ∧
        ∀ q ∈ (outline (default : Style Binary32) .levels
          (composed (default : Style Binary32) (Binary32.ofInt 1) lonelyRoot).value).value,
          q.x < p.rect.x := by decide +kernel
  obtain ⟨p, hp, hheight, hwidth, hright⟩ := hmiss
  refine ⟨_, _, hb, List.isEmpty_eq_false_iff.1 hroots, ho, fun henc => ?_, p, hp, hright⟩
  obtain ⟨-, ⟨q, hq, hle⟩, -⟩ :=
    henc.around (List.mem_cons_of_mem _ (List.mem_map_of_mem hp)) hheight
  have := hright q hq
  omega

end Layout

end Pedigree
