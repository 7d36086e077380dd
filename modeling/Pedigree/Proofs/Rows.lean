import Pedigree.Proofs.Descent
import Pedigree.Proofs.Lists
import Pedigree.Proofs.Sorting

/-! The rows of an outline along the edges: one for the title and one for each generation, ordered
downwards and no further in than the boxes they stand for, whatever is aligned and grown. -/
namespace Pedigree

open Checked

namespace Drawing

namespace Edges

variable {side : Side}

theorem foldl_outer (known : Row) (rows : List Row) :
    (rows.foldl (fun known row => if side.isOuter row.x known.x then row else known) known) ∈
      known :: rows ∧ ∀ r ∈ known :: rows, side.rank (rows.foldl
        (fun known row => if side.isOuter row.x known.x then row else known) known).x ≤
          side.rank r.x := by
  induction rows generalizing known with
  | nil =>
    refine ⟨List.mem_cons_self, fun r hr => ?_⟩
    obtain rfl := List.mem_singleton.1 hr
    exact Int.le_refl _
  | cons row rows ih =>
    rw [List.foldl_cons]
    by_cases h : side.isOuter row.x known.x
    · rw [if_pos h]
      rw [Side.isOuter_iff] at h
      obtain ⟨hm, hle⟩ := ih row
      refine ⟨List.mem_cons_of_mem _ hm, fun r hr => ?_⟩
      have := hle row List.mem_cons_self
      obtain rfl | hr := List.mem_cons.1 hr
      · omega
      · exact hle r hr
    · rw [if_neg h]
      rw [Side.isOuter_iff] at h
      obtain ⟨hm, hle⟩ := ih known
      have := hle known List.mem_cons_self
      refine ⟨?_, fun r hr => ?_⟩
      · obtain he | hm := List.mem_cons.1 hm
        · rw [he]
          exact List.mem_cons_self
        · exact List.mem_cons_of_mem _ (List.mem_cons_of_mem _ hm)
      · obtain rfl | hr := List.mem_cons.1 hr
        · exact this
        obtain rfl | hr := List.mem_cons.1 hr
        · omega
        · exact hle r (List.mem_cons_of_mem _ hr)

/-- The outermost of some rows is one of them, and none is further out. -/
theorem outermost_spec (side : Side) {rows : List Row} (h : rows ≠ []) :
    outermost side rows ∈ rows ∧ ∀ r ∈ rows, side.rank (outermost side rows).x ≤ side.rank r.x := by
  cases rows with
  | nil => exact absurd rfl h
  | cons r rs => exact foldl_outer r rs

def rowFor (side : Side) (r : Rect) : Row := ⟨(side.edge r).value, r.y, r.height⟩

/-- The row of the title, down to the first generation. -/
def titleRow (side : Side) (arrows : Int) (title : Rect) : Row :=
  { rowFor side title with height := title.height + arrows }

def generations (side : Side) (boxes : List Rect) : List Row :=
  (groupsBy (·.y) (boxes.map (rowFor side))).map fun g => outermost side g.2

theorem value_rows (arrows : Int) (title : Rect) (boxes : List Rect) :
    (rows side arrows title boxes).value =
      sortBy (·.y) (titleRow side arrows title :: generations side boxes) := by
  unfold rows
  simp only [value_bind, value_mapM, value_pure]
  rfl

theorem length_generations (side : Side) (boxes : List Rect) :
    (generations side boxes).length = (keys Rect.y boxes).length := by
  simp only [generations, groupsBy, keys, List.length_map, List.map_map]
  rfl

theorem mem_generation {boxes : List Rect} {g : Int × List Row}
    (hg : g ∈ groupsBy (·.y) (boxes.map (rowFor side))) {r : Row} :
    r ∈ g.2 ↔ (∃ b ∈ boxes, rowFor side b = r) ∧ r.y = g.1 := by
  rw [mem_group hg, List.mem_map]

theorem exists_of_mem_generations {boxes : List Rect} {r : Row}
    (hr : r ∈ generations side boxes) : ∃ b ∈ boxes, rowFor side b = r := by
  obtain ⟨g, hg, rfl⟩ := List.mem_map.1 hr
  exact ((mem_generation hg).1 (outermost_spec side (group_ne_nil hg)).1).1

theorem exists_generation (side : Side) {boxes : List Rect} {b : Rect} (hb : b ∈ boxes) :
    ∃ r ∈ generations side boxes, r.y = b.y ∧ side.rank r.x ≤ side.rank (side.edge b).value := by
  obtain ⟨g, hg, hy, hmem⟩ := exists_group Row.y
    (List.mem_map_of_mem (f := rowFor side) hb)
  obtain ⟨hm, hle⟩ := outermost_spec side (group_ne_nil hg)
  refine ⟨_, List.mem_map_of_mem (f := fun g => outermost side g.2) hg, ?_, hle _ hmem⟩
  rw [((mem_generation hg).1 hm).2, hy]
  rfl

theorem pairwise_generations (side : Side) (boxes : List Rect) :
    (generations side boxes).Pairwise (·.y < ·.y) := by
  refine List.pairwise_map.2 ?_
  refine (pairwise_groupsBy _ _).imp_of_mem fun {g g'} hg hg' hlt => ?_
  have h := ((mem_generation hg).1 (outermost_spec side (group_ne_nil hg)).1).2
  have h' := ((mem_generation hg').1 (outermost_spec side (group_ne_nil hg')).1).2
  omega

/-- A row of the same height in the same place, no further in. -/
structure Widens (side : Side) (row row' : Row) : Prop where
  y : row'.y = row.y
  height : row'.height = row.height
  rank : side.rank row'.x ≤ side.rank row.x

theorem Widens.refl (row : Row) : Widens side row row := ⟨rfl, rfl, Int.le_refl _⟩

theorem snapFrom_widens (above : Row) (rows : List Row) :
    List.Forall₂ (Widens side) (above :: rows) (snapFrom side above rows).value := by
  induction rows generalizing above with
  | nil => exact .cons (.refl above) .nil
  | cons row rows ih =>
    unfold snapFrom
    simp only [value_bind]
    split
    · exact .cons (.refl above) (ih row)
    · split
      · next h =>
        rw [Side.isOuter_iff] at h
        refine .cons (.refl above) ?_
        obtain ⟨r', rs', hr, hrs, he⟩ := List.forall₂_cons_left_iff.1 (ih { row with x := above.x })
        rw [he]
        exact .cons ⟨hr.y, hr.height, by have := hr.rank; dsimp only at this; omega⟩ hrs
      · next hd h =>
        rw [Side.isOuter_iff] at h
        exact .cons ⟨rfl, rfl, by dsimp only; omega⟩ (ih row)

theorem snap_widens (side : Side) (rows : List Row) :
    List.Forall₂ (Widens side) rows (snap side rows).value := by
  cases rows with
  | nil => exact .nil
  | cons row rows => exact snapFrom_widens row rows

/-- A row that reaches up over its connectors. -/
def grown (arrows : Int) (r : Row) : Row := ⟨r.x, r.y - arrows, r.height + arrows⟩

theorem grown_y (arrows : Int) (r : Row) : (grown arrows r).y = r.y - arrows := rfl

theorem grown_height (arrows : Int) (r : Row) : (grown arrows r).height = r.height + arrows := rfl

theorem grown_bottom (arrows : Int) (r : Row) : (grown arrows r).bottom = r.bottom := by
  unfold Row.bottom
  rw [grown_y, grown_height]
  omega

theorem value_grow (arrows : Int) (r q : Row) (qs : List Row) :
    (grow arrows (r :: q :: qs)).value = r :: q :: qs.map (grown arrows) := by
  unfold grow
  simp only [value_bind, value_mapM, value_pure]
  rfl

/-- Boxes of one height below a title, in generations with at least the connectors between them. -/
structure Layered (arrows height : Int) (title : Rect) (boxes : List Rect) : Prop where
  titleHeight : 0 ≤ title.height
  heights : ∀ r ∈ boxes, r.height = height
  below : ∀ r ∈ boxes, title.y + (title.height + arrows) ≤ r.y
  apart : ∀ r ∈ boxes, ∀ q ∈ boxes, r.y < q.y → r.y + height + arrows ≤ q.y

/-- Rows that stand for a title and for boxes: the first one for the title, each of the others for
some of the boxes. -/
structure Stands (side : Side) (pad arrows : Int) (title : Rect) (boxes : List Rect) (r q : Row)
    (qs : List Row) : Prop where
  follows : (r :: q :: qs).IsChain (Follows pad)
  y : r.y = title.y
  height : r.height = title.height + arrows
  rank : side.rank r.x ≤ side.rank (side.edge title).value
  stands : ∀ b ∈ boxes, ∃ s ∈ q :: qs, s.y ≤ b.y ∧ s.bottom = b.y + b.height ∧
    side.rank s.x ≤ side.rank (side.edge b).value
  standsFor : ∀ s ∈ q :: qs, ∃ b ∈ boxes, s.bottom = b.y + b.height

variable {pad arrows height : Int} {title : Rect} {boxes : List Rect}

theorem exists_box_of_mem_generations {r : Row} (hr : r ∈ generations side boxes) :
    ∃ b ∈ boxes, r.y = b.y ∧ r.height = b.height := by
  obtain ⟨b, hb, rfl⟩ := exists_of_mem_generations hr
  exact ⟨b, hb, rfl, rfl⟩

theorem pairwise_room (side : Side) (h : Layered arrows height title boxes) :
    (generations side boxes).Pairwise fun r q => r.bottom + arrows ≤ q.y := by
  refine (pairwise_generations side boxes).imp_of_mem fun {r q} hr hq hlt => ?_
  obtain ⟨b, hb, hby, hbh⟩ := exists_box_of_mem_generations hr
  obtain ⟨c, hc, hcy, -⟩ := exists_box_of_mem_generations hq
  have hapart := h.apart b hb c hc (by omega)
  have hheight := h.heights b hb
  unfold Row.bottom
  omega

theorem title_le_of_mem_generations (h : Layered arrows height title boxes) {r : Row}
    (hr : r ∈ generations side boxes) : title.y + (title.height + arrows) ≤ r.y := by
  obtain ⟨b, hb, hy, -⟩ := exists_box_of_mem_generations hr
  rw [hy]
  exact h.below b hb

theorem pairwise_rows (ha : 0 ≤ arrows) (h : Layered arrows height title boxes) :
    (titleRow side arrows title :: generations side boxes).Pairwise (·.y ≤ ·.y) := by
  refine List.pairwise_cons.2 ⟨fun q hq => ?_, (pairwise_generations side boxes).imp Int.le_of_lt⟩
  have hbelow := title_le_of_mem_generations h hq
  have ht := h.titleHeight
  have hy : (titleRow side arrows title).y = title.y := rfl
  omega

theorem value_rows_of_layered (ha : 0 ≤ arrows) (h : Layered arrows height title boxes) :
    (rows side arrows title boxes).value =
      titleRow side arrows title :: generations side boxes := by
  rw [value_rows]
  exact sortBy_of_pairwise (pairwise_rows ha h)

/-- A row that ends where another one does, starts no lower and lies no further in. -/
structure Reaches (side : Side) (row row' : Row) : Prop where
  y : row'.y ≤ row.y
  bottom : row'.bottom = row.bottom
  rank : side.rank row'.x ≤ side.rank row.x

theorem Widens.reaches {row row' : Row} (h : Widens side row row') : Reaches side row row' :=
  ⟨Int.le_of_eq h.y, by rw [Row.bottom, Row.bottom, h.y, h.height], h.rank⟩

theorem Widens.reaches_grown (ha : 0 ≤ arrows) {row row' : Row} (h : Widens side row row') :
    Reaches side row (grown arrows row') := by
  have hreach := h.reaches
  refine ⟨?_, (grown_bottom arrows row').trans hreach.bottom, h.rank⟩
  have := hreach.y
  rw [grown_y]
  omega

/-- What holds between the places where a row with its connectors stops and the next one starts,
however far both are moved up, holds between rows that have grown over their connectors. -/
theorem isChain_grown {R : Int → Int → Prop} (hR : ∀ a b, R (a + arrows) b → R a (b - arrows))
    {g : Row} {gs qs : List Row} (hw : List.Forall₂ (Widens side) gs qs)
    (hc : (g :: gs).IsChain fun r q => R (r.bottom + arrows) q.y)
    (hh : ∀ q ∈ gs, pad ≤ q.height + arrows) {r : Row} (hr : r.bottom = g.bottom) :
    (r :: qs.map (grown arrows)).IsChain fun r q => R r.bottom q.y ∧ pad ≤ q.height := by
  induction hw generalizing g r with
  | nil => exact List.isChain_singleton r
  | @cons a b as bs hab _ ih =>
    obtain ⟨hga, hc⟩ := List.isChain_cons_cons.1 hc
    have hba : (grown arrows b).bottom = a.bottom :=
      (grown_bottom arrows b).trans hab.reaches.bottom
    refine List.isChain_cons_cons.2 ⟨⟨?_, ?_⟩, ih hc ?_ hba⟩
    · rw [grown_y, hab.y, hr]
      exact hR _ _ hga
    · rw [grown_height, hab.height]
      exact hh a List.mem_cons_self
    · intro q hq
      exact hh q (List.mem_cons_of_mem _ hq)

theorem pad_le_of_mem_generations (h : Layered arrows height title boxes) (hh : pad ≤ height)
    {t : Row} (ht : t ∈ generations side boxes) : pad ≤ t.height := by
  obtain ⟨c, hc, -, hch⟩ := exists_box_of_mem_generations ht
  rw [hch, h.heights c hc]
  exact hh

/-- One side of an outline is a way along the rows of the title and of the generations, aligned and,
but for the first two, grown over their connectors. -/
theorem trace_widens (side : Side) (ha : 0 ≤ arrows) (h : Layered arrows height title boxes)
    (hne : boxes ≠ []) : ∃ g gs r q qs, generations side boxes = g :: gs ∧
      List.Forall₂ (Widens side) (titleRow side arrows title :: g :: gs) (r :: q :: qs) ∧
      (trace side pad arrows title boxes).value = path side pad r q (qs.map (grown arrows)) := by
  obtain ⟨b₀, hb₀⟩ := List.exists_mem_of_ne_nil _ hne
  obtain ⟨g₀, hg₀, -⟩ := exists_generation side hb₀
  obtain ⟨g, gs, hgen⟩ := List.exists_cons_of_ne_nil (List.ne_nil_of_mem hg₀)
  have hw := hgen ▸ snap_widens side (titleRow side arrows title :: generations side boxes)
  obtain ⟨r, _, hr, hs, hsnap⟩ := List.forall₂_cons_left_iff.1 hw
  obtain ⟨q, qs, hq, hqs, rfl⟩ := List.forall₂_cons_left_iff.1 hs
  have hrows : (rows side arrows title boxes).value = titleRow side arrows title :: g :: gs := by
    rw [value_rows_of_layered ha h, hgen]
  refine ⟨g, gs, r, q, qs, hgen, .cons hr (.cons hq hqs), ?_⟩
  unfold trace
  simp only [value_bind, value_mapM]
  rw [hrows, hsnap, value_grow]
  exact value_padPoints side pad r q _

theorem stands_of_widens (ha : 0 ≤ arrows) (h : Layered arrows height title boxes)
    (hh : pad ≤ height) {g r q : Row} {gs qs : List Row} (hgen : generations side boxes = g :: gs)
    (hw : List.Forall₂ (Widens side) (titleRow side arrows title :: g :: gs) (r :: q :: qs)) :
    Stands side pad arrows title boxes r q (qs.map (grown arrows)) := by
  obtain ⟨hr, hs⟩ := List.forall₂_cons.1 hw
  obtain ⟨hq, hqs⟩ := List.forall₂_cons.1 hs
  -- Growing over the connectors moves tops only, so each row still ends where its boxes do.
  have hreach : List.Forall₂ (Reaches side) (g :: gs) (q :: qs.map (grown arrows)) := by
    refine .cons hq.reaches (List.forall₂_map_right_iff.2 ?_)
    exact hqs.imp fun _ _ hw => hw.reaches_grown ha
  refine ⟨?_, hr.y, hr.height, hr.rank, fun b hb => ?_, fun s hs => ?_⟩
  · have hmem : g ∈ generations side boxes := hgen ▸ List.mem_cons_self
    have hroom := (pairwise_room side h).isChain
    rw [hgen] at hroom
    refine List.isChain_cons_cons.2 ⟨⟨?_, ?_⟩,
      isChain_grown (fun a b hab => by omega) hqs hroom (fun t ht => ?_) hq.reaches.bottom⟩
    · rw [Row.bottom, hr.y, hr.height, hq.y]
      exact title_le_of_mem_generations h hmem
    · rw [hq.height]
      exact pad_le_of_mem_generations h hh hmem
    · have := pad_le_of_mem_generations h hh (hgen ▸ List.mem_cons_of_mem _ ht)
      omega
  · obtain ⟨t, ht, hty, hrank⟩ := exists_generation side hb
    obtain ⟨c, hc, -, hch⟩ := exists_box_of_mem_generations ht
    obtain ⟨s, hs, hts⟩ := exists_mem_of_forall₂ hreach (hgen ▸ ht)
    refine ⟨s, hs, ?_, ?_, ?_⟩
    · rw [← hty]
      exact hts.y
    · rw [hts.bottom, Row.bottom, hty, hch, h.heights c hc, h.heights b hb]
    · exact Int.le_trans hts.rank hrank
  · obtain ⟨t, ht, hts⟩ := exists_mem_of_forall₂ hreach.flip hs
    obtain ⟨c, hc, hcy, hch⟩ := exists_box_of_mem_generations (hgen ▸ ht)
    refine ⟨c, hc, ?_⟩
    rw [hts.bottom, Row.bottom, hcy, hch]

/-- There are as many rows below the title as generations. -/
theorem length_of_widens {g r q : Row} {gs qs : List Row} (hgen : generations side boxes = g :: gs)
    (hw : List.Forall₂ (Widens side) (titleRow side arrows title :: g :: gs) (r :: q :: qs)) :
    (qs.map (grown arrows)).length + 1 = (keys Rect.y boxes).length := by
  have hlen := hw.length_eq
  rw [← length_generations side, hgen, List.length_map]
  simp only [List.length_cons] at hlen ⊢
  omega

/-- One side of an outline is a way along rows that stand for the title and for the boxes. -/
theorem trace_spec (side : Side) (ha : 0 ≤ arrows) (h : Layered arrows height title boxes)
    (hh : pad ≤ height) (hne : boxes ≠ []) : ∃ r q qs,
      (trace side pad arrows title boxes).value = path side pad r q qs ∧
      Stands side pad arrows title boxes r q qs ∧
      qs.length + 1 = (keys Rect.y boxes).length := by
  obtain ⟨g, gs, r, q, qs, hgen, hw, ht⟩ := trace_widens side ha h hne
  exact ⟨r, q, _, ht, stands_of_widens ha h hh hgen hw, length_of_widens hgen hw⟩

end Edges

end Drawing

end Pedigree
