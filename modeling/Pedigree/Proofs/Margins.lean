import Pedigree.Proofs.Faultless
import Pedigree.Proofs.Rows

/-! Where an outline along the edges can be drawn: no number leaves its range as long as the boxes
have a margin around them. -/
namespace Pedigree

open Checked

namespace Drawing

theorem faults_translate_eq_nil {p : Pos} {dx dy : Int} : (p.translate dx dy).faults = [] ↔
    (-2147483648 ≤ p.x + dx ∧ p.x + dx ≤ 2147483647) ∧
      (-2147483648 ≤ p.y + dy ∧ p.y + dy ≤ 2147483647) := by
  rw [← faults_narrow_eq_nil, ← faults_narrow_eq_nil]
  unfold Pos.translate add
  simp only [faults_bind_eq_nil, faults_pure, and_true]

namespace Edges

/-- Two verticals with room for a padding outside of them, and for the distance between them. -/
structure Margins (pad lo hi : Int) : Prop where
  nonneg : 0 ≤ pad
  left : -2147483648 ≤ lo - pad
  right : hi + pad ≤ 2147483647
  span : hi - lo ≤ 2147483647

/-- Both edges of every box stand between two verticals. -/
def Between (lo hi : Int) (boxes : List Rect) : Prop :=
  ∀ b ∈ boxes, (lo ≤ b.x ∧ b.x ≤ hi) ∧ lo ≤ b.x + b.width ∧ b.x + b.width ≤ hi

instance (lo hi : Int) (boxes : List Rect) : Decidable (Between lo hi boxes) :=
  inferInstanceAs (Decidable (∀ b ∈ boxes, _ ∧ _))

/-- A point between two verticals, with room for the padding below it. -/
structure Placed (pad lo hi : Int) (p : Pos) : Prop where
  left : lo ≤ p.x
  right : p.x ≤ hi
  top : 0 ≤ p.y
  bottom : p.y + pad ≤ 2147483647

/-- A row between two verticals, with room for the padding below it. -/
structure Roomy (pad lo hi : Int) (r : Row) : Prop where
  left : lo ≤ r.x
  right : r.x ≤ hi
  top : 0 ≤ r.y
  height : 0 ≤ r.height
  bottom : r.bottom + pad ≤ 2147483647

/-- A point that can be lifted by the padding. -/
def Liftable (pad : Int) (p : Pos) : Prop :=
  (-2147483648 ≤ p.x ∧ p.x ≤ 2147483647) ∧ -2147483648 ≤ p.y - pad ∧ p.y - pad ≤ 2147483647

variable {side : Side} {pad lo hi arrows : Int}

theorem Between.edge {boxes : List Rect} (h : Between lo hi boxes) (side : Side) {b : Rect}
    (hb : b ∈ boxes) : lo ≤ (side.edge b).value ∧ (side.edge b).value ≤ hi := by
  cases side
  · exact (h b hb).1
  · exact (h b hb).2

theorem Margins.pad_le (m : Margins pad lo hi) (h : lo ≤ hi) : pad ≤ 2147483647 := by
  have := m.left
  have := m.right
  omega

theorem Margins.faults_outward (m : Margins pad lo hi) (side : Side) (h : lo ≤ hi) :
    (side.outward pad).faults = [] := by
  have := m.nonneg
  have := m.pad_le h
  cases side
  · exact faults_narrow_eq_nil.2 (by omega)
  · rfl

/-- Moving out keeps a place between the verticals in range. -/
theorem Margins.outward (m : Margins pad lo hi) (side : Side) {x : Int} (hlo : lo ≤ x)
    (hhi : x ≤ hi) :
    -2147483648 ≤ x + (side.outward pad).value ∧ x + (side.outward pad).value ≤ 2147483647 := by
  have := m.nonneg
  have := m.left
  have := m.right
  cases side
  · have he : (Side.left.outward pad).value = -pad := rfl
    omega
  · have he : (Side.right.outward pad).value = pad := rfl
    omega

theorem padInner_placed (m : Margins pad lo hi) (side : Side) (previous next : Pos) {current : Pos}
    (h : Placed pad lo hi current) : (padInner side pad previous current next).faults = [] ∧
      Liftable pad (padInner side pad previous current next).value := by
  obtain ⟨h₁, h₂, h₃, h₄⟩ := h
  have hout := m.outward side h₁ h₂
  have hside := m.faults_outward side (Int.le_trans h₁ h₂)
  obtain ⟨hpad, hleft, hright, -⟩ := m
  constructor
  · unfold padInner
    dsimp only
    generalize (if previous.x = current.x then side.isOuter current.x next.x
      else side.isOuter previous.x current.x) = drops
    cases drops
    all_goals
      simp only [Bool.false_eq_true, ↓reduceIte, faults_bind_eq_nil, faults_translate_eq_nil,
        hside, faults_pure, value_pure, Pos.value_translate, true_and]
      omega
  · rw [value_padInner]
    unfold Liftable
    dsimp only
    refine ⟨hout, ?_⟩
    split <;> omega

theorem padAfter_placed (m : Margins pad lo hi) (side : Side) (previous : Pos) {points : List Pos}
    (h : ∀ p ∈ points, Placed pad lo hi p) : (padAfter side pad previous points).faults = [] ∧
      ∀ p ∈ (padAfter side pad previous points).value, Liftable pad p := by
  fun_induction padAfter side pad previous points with
  | case1 => exact ⟨rfl, fun p hp => absurd hp List.not_mem_nil⟩
  | case2 previous last =>
    obtain ⟨h₁, h₂, h₃, h₄⟩ := h last List.mem_cons_self
    have hout := m.outward side h₁ h₂
    have hpad := m.nonneg
    constructor
    · simp only [faults_bind_eq_nil, m.faults_outward side (Int.le_trans h₁ h₂), faults_pure,
        and_true, true_and, faults_translate_eq_nil]
      omega
    · simp only [value_bind, value_pure, Pos.value_translate, List.mem_singleton, forall_eq]
      unfold Liftable
      dsimp only
      exact ⟨hout, by omega⟩
  | case3 previous current next rest ih =>
    obtain ⟨hc, hrest⟩ := List.forall_mem_cons.1 h
    obtain ⟨hf, hv⟩ := padInner_placed m side previous next hc
    obtain ⟨hfs, hvs⟩ := ih hrest
    refine ⟨faults_bind_eq_nil.2 ⟨hf, faults_bind_eq_nil.2 ⟨hfs, rfl⟩⟩, ?_⟩
    exact List.forall_mem_cons.2 ⟨hv, hvs⟩

theorem faults_liftStep (hpad : 0 ≤ pad) (hle : pad ≤ 2147483647) {first : Pos} {points : List Pos}
    (h : ∀ p ∈ points, Liftable pad p) : (liftStep side pad (first :: points)).faults = [] := by
  match points with
  | [] => rfl
  | [second] => rfl
  | second :: third :: rest =>
    obtain ⟨hsecond, hrest⟩ := List.forall_mem_cons.1 h
    obtain ⟨hthird, -⟩ := List.forall_mem_cons.1 hrest
    unfold Liftable at hsecond hthird
    rw [liftStep]
    split
    · simp only [faults_bind_eq_nil, faults_translate_eq_nil, faults_pure, and_true]
      have hv : (neg pad).value = -pad := rfl
      refine ⟨faults_narrow_eq_nil.2 (by omega), ?_⟩
      omega
    · rfl

theorem faults_padPoints (m : Margins pad lo hi) {points : List Pos}
    (h : ∀ p ∈ points, Placed pad lo hi p) : (padPoints side pad points).faults = [] := by
  match points with
  | [] => rfl
  | [first] => rfl
  | first :: second :: rest =>
    obtain ⟨hfirst, hrest⟩ := List.forall_mem_cons.1 h
    obtain ⟨h₁, h₂, h₃, h₄⟩ := hfirst
    obtain ⟨hf, hv⟩ := padAfter_placed m side first hrest
    have hpad := m.nonneg
    have hle := m.pad_le (Int.le_trans h₁ h₂)
    have hout := m.outward side h₁ h₂
    have hneg : (neg pad).value = -pad := rfl
    unfold padPoints
    simp only [faults_bind_eq_nil, faults_translate_eq_nil, hf,
      m.faults_outward side (Int.le_trans h₁ h₂), faults_liftStep hpad hle hv, true_and, and_true]
    exact ⟨faults_narrow_eq_nil.2 (by omega), by omega⟩

/-! ### Rows -/

/-- Aligning moves edges to where other edges are. -/
theorem snapFrom_between (hspan : hi - lo ≤ 2147483647) {above : Row} {rows : List Row}
    (h : ∀ r ∈ above :: rows, lo ≤ r.x ∧ r.x ≤ hi) : (snapFrom side above rows).faults = [] ∧
      ∀ r ∈ (snapFrom side above rows).value, lo ≤ r.x ∧ r.x ≤ hi := by
  induction rows generalizing above with
  | nil => exact ⟨rfl, h⟩
  | cons row rows ih =>
    obtain ⟨habove, hrows⟩ := List.forall_mem_cons.1 h
    obtain ⟨hrow, hrest⟩ := List.forall_mem_cons.1 hrows
    obtain ⟨hf, hv⟩ := ih hrows
    obtain ⟨hf', hv'⟩ := ih (List.forall_mem_cons.2 ⟨habove, hrest⟩ :
      ∀ r ∈ { row with x := above.x } :: rows, _)
    have hsub : (sub above.x row.x).faults = [] := faults_narrow_eq_nil.2 (by omega)
    have habs : (Checked.abs (sub above.x row.x).value).faults = [] := by
      refine faults_narrow_eq_nil.2 ?_
      rw [value_sub]
      omega
    rw [snapFrom]
    simp only [faults_bind_eq_nil, value_bind, hsub, habs, true_and]
    constructor
    · split
      · exact faults_bind_eq_nil.2 ⟨hf, rfl⟩
      · split
        · exact faults_bind_eq_nil.2 ⟨hf', rfl⟩
        · exact faults_bind_eq_nil.2 ⟨hf, rfl⟩
    · split
      · exact List.forall_mem_cons.2 ⟨habove, hv⟩
      · split
        · exact List.forall_mem_cons.2 ⟨habove, hv'⟩
        · exact List.forall_mem_cons.2 ⟨hrow, hv⟩

theorem snap_roomy (m : Margins pad lo hi) (side : Side) {rows : List Row}
    (h : ∀ r ∈ rows, Roomy pad lo hi r) : (snap side rows).faults = [] ∧
      ∀ r ∈ (snap side rows).value, Roomy pad lo hi r := by
  have hx : (snap side rows).faults = [] ∧ ∀ r ∈ (snap side rows).value, lo ≤ r.x ∧ r.x ≤ hi := by
    cases rows with
    | nil => exact ⟨rfl, fun r hr => absurd hr List.not_mem_nil⟩
    | cons row rows => exact snapFrom_between m.span fun r hr => ⟨(h r hr).left, (h r hr).right⟩
  refine ⟨hx.1, fun r hr => ?_⟩
  obtain ⟨r', hr', hw⟩ := exists_mem_of_forall₂ (snap_widens side rows).flip hr
  obtain ⟨-, -, htop, hheight, hbottom⟩ := h r' hr'
  obtain ⟨hleft, hright⟩ := hx.2 r hr
  have hwy := hw.y
  have hwh := hw.height
  unfold Row.bottom at hbottom
  exact ⟨hleft, hright, by omega, by omega, by unfold Row.bottom; omega⟩

theorem growUp_roomy (hpad : 0 ≤ pad) (ha : 0 ≤ arrows) {r : Row} (h : Roomy pad lo hi r)
    (hy : arrows ≤ r.y) :
    (growUp arrows r).faults = [] ∧ Roomy pad lo hi (grown arrows r) := by
  obtain ⟨hleft, hright, htop, hheight, hbottom⟩ := h
  have hb : r.bottom = r.y + r.height := rfl
  constructor
  · unfold growUp
    refine faults_bind_eq_nil.2 ⟨faults_narrow_eq_nil.2 ?_,
      faults_bind_eq_nil.2 ⟨faults_narrow_eq_nil.2 ?_, rfl⟩⟩
    all_goals omega
  · refine ⟨hleft, hright, ?_, ?_, (grown_bottom arrows r).symm ▸ hbottom⟩
    · rw [grown_y]
      omega
    · rw [grown_height]
      omega

theorem ends_placed (hpad : 0 ≤ pad) {r : Row} (h : Roomy pad lo hi r) :
    (ends r).faults = [] ∧ ∀ p ∈ (ends r).value, Placed pad lo hi p := by
  obtain ⟨hleft, hright, htop, hheight, hbottom⟩ := h
  unfold Row.bottom at hbottom
  have hy : r.y + pad ≤ 2147483647 := by omega
  have hstop : 0 ≤ r.y + r.height := by omega
  refine ⟨faults_bind_eq_nil.2 ⟨faults_narrow_eq_nil.2 (by omega), rfl⟩, ?_⟩
  exact List.forall_mem_cons.2 ⟨⟨hleft, hright, htop, hy⟩,
    List.forall_mem_singleton.2 ⟨hleft, hright, hstop, hbottom⟩⟩

/-- Rows below the first two grow over their connectors if these start in range. -/
theorem grow_roomy (hpad : 0 ≤ pad) (ha : 0 ≤ arrows) {rows : List Row}
    (h : ∀ r ∈ rows, Roomy pad lo hi r) (hy : ∀ r ∈ rows.drop 2, arrows ≤ r.y) :
    (grow arrows rows).faults = [] ∧ ∀ r ∈ (grow arrows rows).value, Roomy pad lo hi r := by
  have hgrown (r : Row) (hr : r ∈ rows.drop 2) :=
    growUp_roomy hpad ha (h r (List.mem_of_mem_drop hr)) (hy r hr)
  refine ⟨faults_bind_eq_nil.2 ⟨faults_mapM_eq_nil.2 fun r hr => (hgrown r hr).1, rfl⟩, ?_⟩
  unfold grow
  rw [value_bind, value_pure, value_mapM]
  refine List.forall_mem_append.2 ⟨fun r hr => h r (List.mem_of_mem_take hr), ?_⟩
  rw [List.forall_mem_map]
  exact fun r hr => (hgrown r hr).2

variable {height : Int} {title : Rect} {boxes : List Rect}

theorem roomy_rows (side : Side) (ha : 0 ≤ arrows) (hh : 0 ≤ height) (h : Layered arrows height title boxes)
    (hy : 0 ≤ title.y) (hb : Between lo hi (title :: boxes))
    (hlow : ∀ b ∈ boxes, b.y + b.height + pad ≤ 2147483647) (hne : boxes ≠ []) :
    ∀ r ∈ titleRow side arrows title :: generations side boxes, Roomy pad lo hi r := by
  refine List.forall_mem_cons.2 ⟨?_, fun r hr => ?_⟩
  · have hx := hb.edge side List.mem_cons_self
    obtain ⟨b, hb⟩ := List.exists_mem_of_ne_nil _ hne
    have := h.titleHeight
    have := h.below b hb
    have := h.heights b hb
    have := hlow b hb
    refine ⟨hx.1, hx.2, hy, ?_, ?_⟩
    · change 0 ≤ title.height + arrows
      omega
    · change title.y + (title.height + arrows) + pad ≤ _
      omega
  · obtain ⟨b, hmem, rfl⟩ := exists_of_mem_generations hr
    have hx := hb.edge side (List.mem_cons_of_mem _ hmem)
    have := h.titleHeight
    have := h.below b hmem
    have := h.heights b hmem
    refine ⟨hx.1, hx.2, ?_, ?_, hlow b hmem⟩
    · change 0 ≤ b.y
      omega
    · change 0 ≤ b.height
      omega

theorem faults_edge (m : Margins pad lo hi) {b : Rect}
    (h : lo ≤ (side.edge b).value ∧ (side.edge b).value ≤ hi) : (side.edge b).faults = [] := by
  have := m.nonneg
  have := m.left
  have := m.right
  cases side
  · rfl
  · have he : (Side.right.edge b).value = b.x + b.width := rfl
    exact faults_narrow_eq_nil.2 (by omega)

theorem faults_rows (m : Margins pad lo hi) (hb : Between lo hi (title :: boxes))
    (hle : title.height + arrows ≤ 2147483647) (hnonneg : 0 ≤ title.height + arrows) :
    (rows side arrows title boxes).faults = [] := by
  have hrow (b : Rect) (hmem : b ∈ title :: boxes) : (rowOf side b).faults = [] :=
    faults_bind_eq_nil.2 ⟨faults_edge m (hb.edge side hmem), rfl⟩
  unfold rows
  refine faults_bind_eq_nil.2 ⟨hrow title List.mem_cons_self, faults_bind_eq_nil.2
    ⟨faults_narrow_eq_nil.2 (by omega), faults_bind_eq_nil.2 ⟨faults_mapM_eq_nil.2 ?_, rfl⟩⟩⟩
  exact fun b hmem => hrow b (List.mem_cons_of_mem _ hmem)

/-- One side of an outline can be drawn where its boxes have room. -/
theorem faults_trace (m : Margins pad lo hi) (ha : 0 ≤ arrows) (hh : 0 ≤ height)
    (h : Layered arrows height title boxes) (hy : 0 ≤ title.y)
    (hb : Between lo hi (title :: boxes))
    (hlow : ∀ b ∈ boxes, b.y + b.height + pad ≤ 2147483647) (hne : boxes ≠ []) :
    (trace side pad arrows title boxes).faults = [] := by
  have hroomy := roomy_rows side ha hh h hy hb hlow hne
  obtain ⟨hsnap, hsnapped⟩ := snap_roomy m side hroomy
  obtain ⟨hgrow, hgrown⟩ := grow_roomy m.nonneg ha hsnapped fun r hr => by
    have hw := List.forall₂_drop 2
      (snap_widens side (titleRow side arrows title :: generations side boxes))
    obtain ⟨r', hr', hwr⟩ := exists_mem_of_forall₂ hw.flip hr
    have hle := title_le_of_mem_generations h (List.mem_of_mem_drop hr')
    have := h.titleHeight
    have := hwr.y
    omega
  have hends (r) (hr) := ends_placed m.nonneg (hgrown r hr)
  have hrows : (rows side arrows title boxes).faults = [] := by
    obtain ⟨-, -, -, hheight, hbottom⟩ := hroomy _ List.mem_cons_self
    have hpad := m.nonneg
    have hbot : (titleRow side arrows title).bottom = title.y + (title.height + arrows) := rfl
    exact faults_rows m hb (by omega) hheight
  unfold trace
  refine faults_bind_eq_nil.2 ⟨hrows, ?_⟩
  rw [value_rows_of_layered ha h]
  refine faults_bind_eq_nil.2 ⟨hsnap, faults_bind_eq_nil.2 ⟨hgrow, faults_bind_eq_nil.2
    ⟨faults_mapM_eq_nil.2 fun r hr => (hends r hr).1, faults_padPoints m ?_⟩⟩⟩
  rw [value_mapM]
  intro p hp
  obtain ⟨ps, hps, hp⟩ := List.mem_flatten.1 hp
  obtain ⟨r, hr, rfl⟩ := List.mem_map.1 hps
  exact (hends r hr).2 p hp

/-- An outline can be drawn where its boxes have room. -/
theorem faults_outline {b : Block} (m : Margins pad lo hi) (ha : 0 ≤ arrows) (hh : 0 ≤ height)
    (h : Layered arrows height b.title.rect (b.persons.map (·.rect))) (hy : 0 ≤ b.title.rect.y)
    (hb : Between lo hi (b.title.rect :: b.persons.map (·.rect)))
    (hlow : ∀ p ∈ b.persons, p.rect.y + p.rect.height + pad ≤ 2147483647) (hne : b.persons ≠ []) :
    (outline pad arrows b).faults = [] := by
  have htrace (side : Side) :
      (trace side pad arrows b.title.rect (b.persons.map (·.rect))).faults = [] :=
    faults_trace m ha hh h hy hb (List.forall_mem_map.2 hlow) (mt List.map_eq_nil_iff.1 hne)
  exact faults_bind_eq_nil.2 ⟨htrace .left, faults_bind_eq_nil.2 ⟨htrace .right, rfl⟩⟩

end Edges

end Drawing

end Pedigree
