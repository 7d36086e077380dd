import Mathlib.Data.Finset.Card
import Pedigree.Proofs.Enclosing
import Pedigree.Proofs.Margins
import Pedigree.Proofs.Persons

/-! The outline along the edges is a closed loop of horizontal and vertical steps. Where the tops of
rows are exact, each row of a side starts where the one above it stops, so the sides go down without
a gap; they start at the same height and end at the same one. -/
namespace Pedigree

open Checked Drawing

namespace Drawing

namespace Edges

/-- Points that go down from a top to a bottom and up again, half of them each way, in steps to the
side or straight down or up, also from the last point back to the first. -/
structure Loops (rows : Nat) (top bottom : Int) (points : List Pos) : Prop where
  length : points.length = 4 * (rows + 1)
  down : (points.take (points.length / 2)).Pairwise fun p q => p.y ≤ q.y
  up : (points.drop (points.length / 2)).Pairwise fun p q => q.y ≤ p.y
  closed : (points ++ points.head?.toList).IsChain fun p q => p.x = q.x ∨ p.y = q.y
  first : points.head?.map (·.y) = some top
  last : points.getLast?.map (·.y) = some top
  lowest : points[points.length / 2 - 1]?.map (·.y) = some bottom ∧
    points[points.length / 2]?.map (·.y) = some bottom

variable {side : Side} {pad arrows height : Int} {title : Rect} {boxes : List Rect}

/-! ### One side -/

/-- The second row starts where the first one stops and leaves room for the padding. -/
def Touches (pad : Int) (r q : Row) : Prop := r.bottom = q.y ∧ pad ≤ q.height

/-- A step to the side or straight down. -/
def Descends (p q : Pos) : Prop := (p.x = q.x ∨ p.y = q.y) ∧ p.y ≤ q.y

theorem isChain_descends_descent (side : Side) (hpad : 0 ≤ pad) {r : Row} {qs : List Row} {y : Int}
    (hy : y ≤ r.bottom) (h : (r :: qs).IsChain (Touches pad)) :
    (outside side pad r y :: descent side pad r qs).IsChain Descends := by
  induction qs generalizing r y with
  | nil =>
    refine List.isChain_cons_cons.2 ⟨⟨Or.inl rfl, ?_⟩, List.isChain_singleton _⟩
    rw [outside_y, outside_y]
    omega
  | cons q qs ih =>
    obtain ⟨⟨hrq, hq⟩, hqs⟩ := List.isChain_cons_cons.1 h
    have hd := drop_cases side pad r q
    have hb : q.bottom = q.y + q.height := rfl
    rw [descent]
    refine List.isChain_cons_cons.2 ⟨⟨Or.inl rfl, ?_⟩,
      List.isChain_cons_cons.2 ⟨⟨Or.inr ?_, ?_⟩, ih (by omega) hqs⟩⟩
    all_goals
      rw [outside_y, outside_y]
      omega

theorem isChain_descends_path (side : Side) (hpad : 0 ≤ pad) {r q : Row} {qs : List Row}
    (hr : 0 ≤ r.height) (h : (r :: q :: qs).IsChain (Touches pad)) :
    (path side pad r q qs).IsChain Descends := by
  obtain ⟨⟨hrq, hq⟩, hqs⟩ := List.isChain_cons_cons.1 h
  have hd := drop_cases side pad r q
  have hf := firstDrop_cases side pad r q
  have hrb : r.bottom = r.y + r.height := rfl
  have hqb : q.bottom = q.y + q.height := rfl
  unfold path
  refine List.isChain_cons_cons.2 ⟨⟨Or.inl rfl, ?_⟩,
    List.isChain_cons_cons.2 ⟨⟨Or.inr ?_, ?_⟩, isChain_descends_descent side hpad (by omega) hqs⟩⟩
  all_goals
    rw [outside_y, outside_y]
    omega

theorem pairwise_of_descends {points : List Pos} (h : points.IsChain Descends) :
    points.Pairwise fun p q => p.y ≤ q.y := by
  have : IsTrans Pos fun p q => p.y ≤ q.y := ⟨fun _ _ _ => Int.le_trans⟩
  exact List.isChain_iff_pairwise.1 (h.imp fun _ _ hpq => hpq.2)

/-- The last point of a way down is the lowest one. -/
theorem getLast?_of_descends {points : List Pos} (h : points.IsChain Descends) {bottom : Int}
    (hle : ∀ p ∈ points, p.y ≤ bottom) (hp : ∃ p ∈ points, p.y = bottom) :
    points.getLast?.map (·.y) = some bottom := by
  obtain ⟨p, hp, he⟩ := hp
  have hne := List.ne_nil_of_mem hp
  rw [List.getLast?_eq_some_getLast hne, Option.map_some]
  congr 1
  have hlast := hle _ (List.getLast_mem hne)
  obtain rfl | hlt := eq_last_or_rel (pairwise_of_descends h) hne p hp
  · exact he
  · omega

/-- Every box stands below the title's connectors, or below those of another box. -/
def Adjoining (arrows : Int) (title : Rect) (boxes : List Rect) : Prop :=
  ∀ q ∈ boxes, q.y = title.y + (title.height + arrows) ∨
    ∃ r ∈ boxes, r.y < q.y ∧ r.y + r.height + arrows = q.y

theorem isChain_adjoining (side : Side) (h : Layered arrows height title boxes)
    (hadj : Adjoining arrows title boxes) :
    (generations side boxes).IsChain fun r q => r.bottom + arrows = q.y := by
  refine (isChain_covers (pairwise_generations side boxes)).imp_of_mem_imp
    fun r q hr hq ⟨hlt, hcov⟩ => ?_
  obtain ⟨b, hb, hby, hbh⟩ := exists_box_of_mem_generations hr
  obtain ⟨c, hc, hcy, -⟩ := exists_box_of_mem_generations hq
  have hbottom : r.bottom = r.y + r.height := rfl
  obtain hfirst | ⟨d, hd, hdlt, hdc⟩ := hadj c hc
  · have := title_le_of_mem_generations h hr
    omega
  · -- The box above stands in the row before, for between two neighbours there is none.
    obtain ⟨t, ht, hty, -⟩ := exists_generation side hd
    have hheight := h.heights b hb
    have hheight' := h.heights d hd
    obtain rfl | hbefore | rfl | hafter := hcov t ht
    · omega
    · have := h.apart d hd b hb (by omega)
      omega
    · omega
    · omega

theorem bottom_titleRow (hadj : Adjoining arrows title boxes) {g : Row} {gs : List Row}
    (hgen : generations side boxes = g :: gs) : (titleRow side arrows title).bottom = g.y := by
  have hg : g ∈ generations side boxes := hgen ▸ List.mem_cons_self
  obtain ⟨c, hc, hcy, -⟩ := exists_box_of_mem_generations hg
  obtain hfirst | ⟨d, hd, hdlt, -⟩ := hadj c hc
  · rw [hcy, hfirst]
    rfl
  · obtain ⟨t, ht, hty, -⟩ := exists_generation side hd
    have hp := pairwise_generations side boxes
    rw [hgen] at ht hp
    obtain rfl | ht := List.mem_cons.1 ht
    · omega
    · have := (List.pairwise_cons.1 hp).1 t ht
      omega

theorem touches_of_widens (ha : 0 ≤ arrows) (h : Layered arrows height title boxes)
    (hh : pad ≤ height) (hadj : Adjoining arrows title boxes) {g r q : Row} {gs qs : List Row}
    (hgen : generations side boxes = g :: gs)
    (hw : List.Forall₂ (Widens side) (titleRow side arrows title :: g :: gs) (r :: q :: qs)) :
    (r :: q :: qs.map (grown arrows)).IsChain (Touches pad) := by
  obtain ⟨hr, hs⟩ := List.forall₂_cons.1 hw
  obtain ⟨hq, hqs⟩ := List.forall₂_cons.1 hs
  have hchain := isChain_adjoining side h hadj
  rw [hgen] at hchain
  refine List.isChain_cons_cons.2 ⟨⟨?_, ?_⟩,
    isChain_grown (fun a b hab => by omega) hqs hchain (fun t ht => ?_) hq.reaches.bottom⟩
  · rw [hr.reaches.bottom, bottom_titleRow hadj hgen, hq.y]
  · rw [hq.height]
    exact pad_le_of_mem_generations h hh (hgen ▸ List.mem_cons_self)
  · have := pad_le_of_mem_generations h hh (hgen ▸ List.mem_cons_of_mem _ ht)
    omega

/-- One side of an outline goes down from above the title to below the lowest boxes. -/
structure Falls (rows : Nat) (top bottom : Int) (points : List Pos) : Prop where
  length : points.length = 2 * (rows + 1)
  descends : points.IsChain Descends
  first : points.head?.map (·.y) = some top
  last : points.getLast?.map (·.y) = some bottom

theorem trace_falls (side : Side) (hpad : 0 ≤ pad) (ha : 0 ≤ arrows) (hh : pad ≤ height)
    (h : Layered arrows height title boxes) (hadj : Adjoining arrows title boxes) {bottom : Int}
    (hle : ∀ c ∈ boxes, c.y + c.height + pad ≤ bottom)
    (hlow : ∃ c ∈ boxes, c.y + c.height + pad = bottom) :
    Falls (keys Rect.y boxes).length (title.y - pad) bottom
      (trace side pad arrows title boxes).value := by
  obtain ⟨c, hc, hcb⟩ := hlow
  obtain ⟨g, gs, r, q, qs, hgen, hw, ht⟩ := trace_widens side ha h (List.ne_nil_of_mem hc)
  have hstands := stands_of_widens ha h hh hgen hw
  have hrh : 0 ≤ r.height := by
    have := h.titleHeight
    rw [hstands.height]
    omega
  have hdesc := isChain_descends_path side hpad hrh (touches_of_widens ha h hh hadj hgen hw)
  obtain ⟨-, b, hb, hmax, hbelow, p, hp, hpe⟩ := hstands.extent hpad ha h.titleHeight
  have hcb' := hmax c hc
  have hbb := hle b hb
  have he : b.y + b.height + pad = bottom := by omega
  rw [he] at hbelow hpe
  rw [ht]
  refine ⟨?_, hdesc, ?_, getLast?_of_descends hdesc hbelow ⟨p, hp, hpe⟩⟩
  · rw [length_path, ← length_of_widens hgen hw]
  · rw [← hstands.y]
    rfl

/-! ### Both sides -/

theorem getLast?_append_reverse (left : List Pos) {right : List Pos} (hne : right ≠ []) :
    (left ++ right.reverse).getLast? = right.head? := by
  rw [List.getLast?_append_of_ne_nil _ (List.reverse_ne_nil_iff.2 hne), List.getLast?_reverse]

/-- The step from one side to the other and the one back to the start are horizontal. -/
theorem Falls.closed {rows : Nat} {top bottom : Int} {left right : List Pos}
    (hl : Falls rows top bottom left) (hr : Falls rows top bottom right) :
    (left ++ right.reverse ++ left.head?.toList).IsChain fun p q => p.x = q.x ∨ p.y = q.y := by
  obtain ⟨a, ha, hay⟩ := Option.map_eq_some_iff.1 hl.first
  obtain ⟨b, hb, hby⟩ := Option.map_eq_some_iff.1 hl.last
  obtain ⟨c, hc, hcy⟩ := Option.map_eq_some_iff.1 hr.first
  obtain ⟨d, hd, hdy⟩ := Option.map_eq_some_iff.1 hr.last
  have hne : right ≠ [] := List.ne_nil_of_mem (List.mem_of_mem_head? hc)
  rw [ha]
  refine List.isChain_append.2 ⟨List.isChain_append.2 ⟨hl.descends.imp fun _ _ h => h.1, ?_, ?_⟩,
    List.isChain_singleton a, ?_⟩
  · rw [List.isChain_reverse]
    exact hr.descends.imp fun _ _ h => h.1.imp Eq.symm Eq.symm
  · intro p hp q hq
    rw [hb] at hp
    rw [List.head?_reverse, hd] at hq
    cases hp
    cases hq
    exact Or.inr (hby.trans hdy.symm)
  · intro p hp q hq
    rw [getLast?_append_reverse left hne, hc] at hp
    cases hp
    cases hq
    exact Or.inr (hcy.trans hay.symm)

theorem Falls.loops {rows : Nat} {top bottom : Int} {left right : List Pos}
    (hl : Falls rows top bottom left) (hr : Falls rows top bottom right) :
    Loops rows top bottom (left ++ right.reverse) := by
  have hlen := hl.length
  have hlen' := hr.length
  have hne : right ≠ [] := List.ne_nil_of_length_pos (by omega)
  have hhalf : (left ++ right.reverse).length / 2 = left.length := by
    rw [List.length_append, List.length_reverse]
    omega
  have hhead : (left ++ right.reverse).head? = left.head? :=
    List.head?_append_of_ne_nil _ (List.ne_nil_of_length_pos (by omega))
  refine ⟨?_, ?_, ?_, ?_, ?_, ?_, ?_, ?_⟩
  · rw [List.length_append, List.length_reverse]
    omega
  · rw [hhalf, List.take_left]
    exact pairwise_of_descends hl.descends
  · rw [hhalf, List.drop_left, List.pairwise_reverse]
    exact pairwise_of_descends hr.descends
  · rw [hhead]
    exact hl.closed hr
  · rw [hhead, hl.first]
  · rw [getLast?_append_reverse left hne, hr.first]
  · rw [hhalf, List.getElem?_append_left (by omega), ← List.getLast?_eq_getElem?, hl.last]
  · rw [hhalf, List.getElem?_append_right (Nat.le_refl _), Nat.sub_self,
      ← List.head?_eq_getElem?, List.head?_reverse, hr.last]

theorem length_keys (key : α → Int) (xs : List α) :
    (keys key xs).length = (xs.map key).toFinset.card := by
  rw [← List.toFinset_card_of_nodup ((pairwise_keys key xs).imp Int.ne_of_lt)]
  congr 1
  ext k
  rw [List.mem_toFinset, List.mem_toFinset, mem_keys, List.mem_map]

theorem outline_loops {b : Block} (hpad : 0 ≤ pad) (ha : 0 ≤ arrows) (hh : pad ≤ height)
    (h : Layered arrows height b.title.rect (b.persons.map (·.rect)))
    (hadj : Adjoining arrows b.title.rect (b.persons.map (·.rect))) {bottom : Int}
    (hle : ∀ p ∈ b.persons, p.rect.y + p.rect.height + pad ≤ bottom)
    (hlow : ∃ p ∈ b.persons, p.rect.y + p.rect.height + pad = bottom) :
    Loops (b.persons.map (·.rect.y)).toFinset.card (b.title.rect.y - pad) bottom
      (outline pad arrows b).value := by
  have hle' : ∀ c ∈ b.persons.map (·.rect), c.y + c.height + pad ≤ bottom := by
    rw [List.forall_mem_map]
    exact hle
  have hlow' : ∃ c ∈ b.persons.map (·.rect), c.y + c.height + pad = bottom := by
    obtain ⟨p, hp, he⟩ := hlow
    exact ⟨p.rect, List.mem_map_of_mem hp, he⟩
  have hside (side : Side) := trace_falls side hpad ha hh h hadj hle' hlow'
  rw [length_keys, List.map_map] at hside
  exact (hside .left).loops (hside .right)

end Edges

end Drawing

/-! ### Composed blocks -/

theorem foldl_max_mem_of_nonneg {xs : List Int} (h : ∀ x ∈ xs, 0 ≤ x) (hne : xs ≠ []) :
    xs.foldl max 0 ∈ xs := by
  obtain ⟨x, hx⟩ := List.exists_mem_of_ne_nil _ hne
  exact Block.foldl_max_mem hx (h x hx)

namespace Drawing

theorem Root.exists_mem_place {r : Root} {q : Person} (hq : q ∈ r.person.walk) (x y : Int) :
    ∃ p ∈ (r.place x y).value.person.walk, p.rect.y = q.rect.y + (y - r.rect.y) ∧
      p.rect.height = q.rect.height := by
  have hm := List.mem_map_of_mem (f := fun q : Person => ({ q.rect with
    x := q.rect.x + (x - r.rect.x), y := q.rect.y + (y - r.rect.y) } : Rect)) hq
  rw [← Person.rects_translate] at hm
  obtain ⟨p, hp, he⟩ := List.mem_map.1 hm
  exact ⟨p, hp, by rw [he], by rw [he]⟩

theorem Block.exists_mem_placeRoots (top gap x : Int) {rs : List Root} {r : Root} (hr : r ∈ rs) :
    ∃ x', (r.place x' top).value ∈ (placeRoots top gap x rs).value := by
  induction rs generalizing x with
  | nil => cases hr
  | cons q qs ih =>
    obtain rfl | hr := List.mem_cons.1 hr
    · exact ⟨x, List.mem_cons_self⟩
    · obtain ⟨x', h⟩ := ih _ hr
      exact ⟨x', List.mem_cons_of_mem _ h⟩

end Drawing

namespace Layout

section

variable {S : Type} [Scalar S] {style : Style S} {ratio : S} {k : Kinship}

theorem layout_mem_roots (style : Style S) (ratio : S) {t : Branch} (ht : t ∈ k.trees) :
    (Subtree.layout style ratio t).value ∈ (roots style ratio k).value := by
  rw [roots, value_mapM]
  exact List.mem_map_of_mem ht

/-- Where everyone has one node, every node is drawn. -/
theorem exists_person_of_mem_nodes {t : Branch} (ht : t ∈ k.trees) (hn : t.numbers.Nodup)
    {n : Tidy.Node S Nat} (hm : n ∈ Subtree.nodes style ratio t) :
    ∃ p ∈ (composed style ratio k).value.persons,
      p.rect.y = style.rootsTop.value + Scalar.round n.y ∧
        p.rect.height = Scalar.round style.personHeight := by
  have hv : (composed style ratio k).value =
    (Block.compose style ratio k.label (roots style ratio k).value).value := rfl
  have hr := layout_mem_roots style ratio ht
  have hbox := List.mem_map_of_mem (f := fun n => (n.payload, (Subtree.boxOf style n).value)) hm
  have hrect := List.mem_map_of_mem (f := fun p : Nat × Rect => ({ p.2 with
    x := p.2.x + -Subtree.leftEdge style ratio t } : Rect)) hbox
  change _ ∈ (Subtree.boxes style ratio t).map _ at hrect
  rw [← Subtree.rects_layout style ratio hn] at hrect
  obtain ⟨q, hq, hqn⟩ := List.mem_map.1 hrect
  obtain ⟨x, hx⟩ := Block.exists_mem_placeRoots style.rootsTop.value style.gap style.padding hr
  obtain ⟨p, hp, hpy, hph⟩ := Root.exists_mem_place hq x style.rootsTop.value
  obtain ⟨titleX, width, hc⟩ := Block.compose_spec style ratio k.label (roots style ratio k).value
  obtain ⟨-, hty, -⟩ := Subtree.rect_layout style ratio t
  rw [hqn, hty] at hpy
  rw [hqn] at hph
  rw [hv, hc]
  refine ⟨p, List.mem_flatMap.2 ⟨_, hx, hp⟩, ?_, hph⟩
  rw [hpy, Subtree.value_boxOf]
  dsimp only
  omega

/-- A root is as high as its lowest box. -/
theorem exists_node_of_height {t : Branch}
    (hy : ∀ n ∈ Subtree.nodes style ratio t, 0 ≤ Scalar.round n.y)
    (hh : 0 ≤ Scalar.round style.personHeight) : ∃ n ∈ Subtree.nodes style ratio t,
      Scalar.round n.y + Scalar.round style.personHeight =
        (Subtree.layout style ratio t).value.rect.height := by
  have hne := Subtree.nodes_ne_nil style ratio t
  have hbottoms : ((Subtree.boxes style ratio t).map fun p => p.2.y + p.2.height) =
      (Subtree.nodes style ratio t).map fun n =>
        Scalar.round n.y + Scalar.round style.personHeight := by
    rw [Subtree.boxes, List.map_map]
    rfl
  obtain ⟨-, -, hheight⟩ := Subtree.rect_layout style ratio t
  rw [hheight, hbottoms]
  refine List.mem_map.1 (foldl_max_mem_of_nonneg ?_ (mt List.map_eq_nil_iff.1 hne))
  rw [List.forall_mem_map]
  intro n hn
  have := hy n hn
  omega

/-- A block is as high as its lowest person reaches, with the padding below. -/
theorem exists_lowest (hforest : ∀ t ∈ k.trees, t.numbers.Nodup) (hne : k.trees ≠ [])
    (hy : ∀ t ∈ k.trees, ∀ n ∈ Subtree.nodes style ratio t, 0 ≤ Scalar.round n.y)
    (hh : 0 ≤ Scalar.round style.personHeight) :
    ∃ p ∈ (composed style ratio k).value.persons, p.rect.y + p.rect.height + style.padding =
      (composed style ratio k).value.rect.height := by
  have hv : (composed style ratio k).value =
    (Block.compose style ratio k.label (roots style ratio k).value).value := rfl
  obtain ⟨titleX, width, hc⟩ := Block.compose_spec style ratio k.label (roots style ratio k).value
  have hheight (r' : Root) (hr' : r' ∈ (Block.placeRoots style.rootsTop.value style.gap
      style.padding (roots style ratio k).value).value) :
      ∃ t ∈ k.trees, r'.rect.height = (Subtree.layout style ratio t).value.rect.height := by
    obtain ⟨r, hr, x, rfl⟩ := Block.exists_of_mem_placeRoots hr'
    rw [roots, value_mapM] at hr
    obtain ⟨t, ht, rfl⟩ := List.mem_map.1 hr
    exact ⟨t, ht, rfl⟩
  have hnonneg : ∀ h ∈ (Block.placeRoots style.rootsTop.value style.gap style.padding
      (roots style ratio k).value).value.map (·.rect.height), 0 ≤ h := by
    rw [List.forall_mem_map]
    intro r' hr'
    obtain ⟨t, -, hrt⟩ := hheight r' hr'
    rw [hrt, (Subtree.rect_layout style ratio t).2.2]
    exact Block.nonneg_foldl_max _
  have hplaced : (Block.placeRoots style.rootsTop.value style.gap style.padding
      (roots style ratio k).value).value ≠ [] := by
    obtain ⟨t, ht⟩ := List.exists_mem_of_ne_nil _ hne
    obtain ⟨x, hx⟩ := Block.exists_mem_placeRoots style.rootsTop.value style.gap style.padding
      (layout_mem_roots style ratio ht)
    exact List.ne_nil_of_mem hx
  obtain ⟨r', hr', he⟩ := List.mem_map.1
    (foldl_max_mem_of_nonneg hnonneg (mt List.map_eq_nil_iff.1 hplaced))
  obtain ⟨t, ht, hrt⟩ := hheight r' hr'
  obtain ⟨n, hn, hnt⟩ := exists_node_of_height (hy t ht) hh
  obtain ⟨p, hp, hpy, hph⟩ := exists_person_of_mem_nodes ht (hforest t ht) hn
  refine ⟨p, hp, ?_⟩
  rw [hpy, hph, hv, hc]
  dsimp only
  omega

end

section exact

variable {style : Style Binary32} {ratio : Binary32} {k : Kinship} {height : Nat}

theorem ExactTops.round_topAt (h : ExactTops style ratio k height) (ha : 0 ≤ style.arrows)
    {t : Branch} (ht : t ∈ k.trees) {d : Nat} (hd : d < (Subtree.sizing style ratio t).levels) :
    Scalar.round (Tidy.topAt style.nodeHeight d) =
      min ((d : Int) * (height + style.arrows)) 2147483647 := by
  have hw := h.tops t ht d hd
  obtain ⟨a, ha⟩ := Int.eq_ofNat_of_zero_le ha
  have he : (d : Int) * (height + style.arrows) = (d * (height + a) : Nat) := by
    rw [ha]
    push_cast
    rfl
  rw [he] at hw ⊢
  exact Binary32.round_of_isWhole hw

/-- Where a row ends in range, the one above it ends where its connectors start. -/
theorem adjoin_of_multiples {height arrows top rows : Int} (hh : 0 ≤ height) (ha : 0 ≤ arrows)
    (htop : arrows ≤ top) (hrows : 0 ≤ rows) (hne : height + arrows ≠ 0)
    (hend : top + min (rows + (height + arrows)) 2147483647 + min height 2147483647 ≤ 2147483647) :
    top + min rows 2147483647 < top + min (rows + (height + arrows)) 2147483647 ∧
      top + min rows 2147483647 + min height 2147483647 + arrows =
        top + min (rows + (height + arrows)) 2147483647 := by
  omega

theorem composed_adjoining (hexact : ExactTops style ratio k height) (ha : 0 ≤ style.arrows)
    (hp : 0 ≤ style.padding) (hforest : ∀ t ∈ k.trees, t.numbers.Nodup)
    (hf : (composed style ratio k).faults = []) :
    Edges.Adjoining style.arrows (composed style ratio k).value.title.rect
      ((composed style ratio k).value.persons.map (·.rect)) := by
  have hlimit := height_le_limit hf
  have htop := Block.value_rootsTop style
  have hround := Binary32.round_of_isWhole hexact.personHeight
  obtain ⟨titleX, ht, -, htitle⟩ := rect_title hf
  unfold Edges.Adjoining
  rw [List.forall_mem_map, ht]
  intro p hp'
  obtain ⟨t, htr, n, hn, hs⟩ := standsAt_of_mem_persons hp'
  obtain ⟨d, hd, hnd⟩ := Subtree.exists_topAt style ratio hn
  have hy := hs.top
  have hbottom := hs.bottom
  rw [hs.height, hround, hy, hnd, hexact.round_topAt ha htr hd] at hbottom
  rw [hnd, hexact.round_topAt ha htr hd] at hy
  cases d with
  | zero =>
    rw [Int.natCast_zero, Int.zero_mul] at hy
    refine Or.inl ?_
    dsimp only
    omega
  | succ d =>
    have hd' : d < (Subtree.sizing style ratio t).levels := Nat.lt_of_succ_lt hd
    have hstep : ((d + 1 : Nat) : Int) * (height + style.arrows) =
        d * (height + style.arrows) + (height + style.arrows) := by
      rw [Int.natCast_add, Int.add_mul]
      omega
    rw [hstep] at hy hbottom
    by_cases hne : (height : Int) + style.arrows = 0
    · rw [hne, Int.mul_zero] at hy
      refine Or.inl ?_
      dsimp only
      omega
    · obtain ⟨m, hm, hmd⟩ := Subtree.exists_node_at style ratio hd'
      obtain ⟨q, hq, hqy, hqh⟩ := exists_person_of_mem_nodes htr (hforest t htr) hm
      rw [hmd, hexact.round_topAt ha htr hd'] at hqy
      have hrows : 0 ≤ (d : Int) * (height + style.arrows) :=
        Int.mul_nonneg (Int.natCast_nonneg d) (by omega)
      obtain ⟨hlt, he⟩ := adjoin_of_multiples (Int.natCast_nonneg height) ha
        (by omega : style.arrows ≤ style.rootsTop.value) hrows hne (by omega)
      refine Or.inr ⟨q.rect, List.mem_map_of_mem hq, ?_, ?_⟩
      · rw [hqy, hy]
        exact hlt
      · rw [hqy, hqh, hround, hy]
        exact he

/-- The outline along the edges is a closed loop of horizontal and vertical steps, with four points
for the title and for each row of persons, as high as the block. It can be drawn where the boxes
have room. -/
theorem edges_outline_loops {s : Snapshot} (hk : k ∈ s.kinships)
    (hexact : ExactTops style ratio k height) (ha : 0 ≤ style.arrows) (hp : 0 ≤ style.padding)
    (hph : style.padding ≤ height) {b : Block} (hb : (composed style ratio k).run = .ok b)
    (hroots : b.roots ≠ []) :
    Edges.Loops (b.persons.map (·.rect.y)).toFinset.card (b.title.rect.y - style.padding)
        b.rect.height (outline style .edges b).value ∧
      (∃ q ∈ b.persons,
        (∀ p ∈ b.persons, p.rect.y + p.rect.height ≤ q.rect.y + q.rect.height) ∧
          q.rect.y + q.rect.height + style.padding = b.rect.height) ∧
      ∀ lo hi, Edges.Margins style.padding lo hi → Edges.Between lo hi b.boxes →
        (outline style .edges b).run = .ok (outline style .edges b).value := by
  obtain ⟨hf, rfl⟩ := run_eq_ok_iff.1 hb
  have hforest : ∀ t ∈ k.trees, t.numbers.Nodup := fun t ht =>
    (forest_of_mem_kinships hk).nodup_numbers ht
  have hround := Binary32.round_of_isWhole hexact.personHeight
  have hrounds := hexact.exactRows.round_tops ha
  have hlayered := composed_layered ha hp hround hrounds hf
  have hadj := composed_adjoining hexact ha hp hforest hf
  have hlimit := padding_le_limit ha hf
  have hle : style.padding ≤ Scalar.round style.personHeight := by
    rw [hround]
    exact Int.le_min.2 ⟨hph, hlimit⟩
  have htrees : k.trees ≠ [] := by
    obtain ⟨p, hp'⟩ := List.exists_mem_of_ne_nil _ (persons_ne_nil hroots)
    obtain ⟨t, ht, -⟩ := standsAt_of_mem_persons hp'
    exact List.ne_nil_of_mem ht
  have hnonneg : ∀ t ∈ k.trees, ∀ n ∈ Subtree.nodes style ratio t, 0 ≤ Scalar.round n.y := by
    intro t ht n hn
    obtain ⟨d, hd⟩ := hrounds t ht n hn
    have : 0 ≤ (d : Int) * (height + style.arrows) :=
      Int.mul_nonneg (Int.natCast_nonneg d) (by omega)
    omega
  have hbelow : ∀ p ∈ (composed style ratio k).value.persons,
      p.rect.y + p.rect.height + style.padding ≤ (composed style ratio k).value.rect.height := by
    intro p hp'
    obtain ⟨_, -, n, -, hs⟩ := standsAt_of_mem_persons hp'
    exact hs.bottom
  have hlow := exists_lowest hforest htrees hnonneg (Int.le_trans hp hle)
  rw [outline_of_roots style .edges hroots]
  refine ⟨Edges.outline_loops hp ha hle hlayered hadj hbelow hlow, ?_, fun lo hi hm hin => ?_⟩
  · obtain ⟨q, hq, he⟩ := hlow
    refine ⟨q, hq, fun p hp' => ?_, he⟩
    have := hbelow p hp'
    omega
  · obtain ⟨titleX, ht, -⟩ := rect_title hf
    refine run_eq_ok_value (Edges.faults_outline hm ha (Int.le_trans hp hle) hlayered ?_ hin
      (fun p hp' => Int.le_trans (hbelow p hp') (height_le_limit hf)) (persons_ne_nil hroots))
    rw [ht]
    exact hp

/-- Five rows of a family with a married son, in the default style. -/
theorem edges_outline_loops_grandparents : ∃ k ∈ grandparents.kinships, ∃ b points,
    (composed (default : Style Binary32) (Binary32.ofInt 1) k).run = .ok b ∧ b.roots ≠ [] ∧
      (outline (default : Style Binary32) .edges b).run = .ok points ∧
      b.rect.height = 311 ∧ points.length = 24 ∧
      Edges.Loops (b.persons.map (·.rect.y)).toFinset.card (b.title.rect.y - 10) 311 points := by
  let k := grandparents.kinships.head (by decide)
  have hk : k ∈ grandparents.kinships := List.head_mem _
  have hh : (default : Style Binary32).personHeight.IsWhole (30 : Nat) :=
    @Binary32.isWhole_ofInt 30 (by decide)
  have htops : ExactTops (default : Style Binary32) (Binary32.ofInt 1) k 30 :=
    exactTops_of_le hh (by decide) (by decide +kernel)
  have hb := run_eq_ok_value
    (x := composed (default : Style Binary32) (Binary32.ofInt 1) k) (by decide +kernel)
  have hroots : (composed (default : Style Binary32) (Binary32.ofInt 1) k).value.roots.isEmpty =
    false := by decide +kernel
  have hne := List.isEmpty_eq_false_iff.1 hroots
  have hheight : (composed (default : Style Binary32) (Binary32.ofInt 1) k).value.rect.height =
    311 := by decide +kernel
  obtain ⟨hloops, -, hroom⟩ :=
    edges_outline_loops hk htops (by decide) (by decide) (by decide) hb hne
  rw [hheight] at hloops
  have ho := hroom 0 1000 ⟨by decide, by decide, by decide, by decide⟩ (by decide +kernel)
  exact ⟨k, hk, _, _, hb, hne, ho, hheight, by decide +kernel, hloops⟩

end exact

end Layout

end Pedigree
