import Mathlib.Data.List.Forall2
import Pedigree.Layout
import Pedigree.Proofs.Faultless
import Pedigree.Proofs.Trees

/-! Where the persons of a block stand: each of them stands in the row of a node of some tree, below
the title and inside the block. -/
namespace Pedigree

open Checked Drawing

namespace Subtree

variable {S : Type} [Scalar S]

def nodes (style : Style S) (ratio : S) (b : Branch) : List (Tidy.Node S Nat) :=
  (sizing style ratio b).layout.walk

def boxes (style : Style S) (ratio : S) (b : Branch) : List (Nat × Rect) :=
  (nodes style ratio b).map fun n => (n.payload, (boxOf style n).value)

/-- The left edge of all boxes of a branch. -/
def leftEdge (style : Style S) (ratio : S) (b : Branch) : Int :=
  ((boxes style ratio b).map (·.2.x)).min?.getD 0

variable (style : Style S) (ratio : S)

theorem nodes_ne_nil (b : Branch) : nodes style ratio b ≠ [] := by
  rw [nodes, Tidy.walk_eq]
  exact List.cons_ne_nil _ _

theorem value_boxOf (n : Tidy.Node S Nat) : (boxOf style n).value =
    ⟨Scalar.round (n.x - Scalar.half n.width + style.marginX), Scalar.round n.y,
      max (Scalar.round (n.width - Scalar.double style.marginX)) 0,
      Scalar.round style.personHeight⟩ := rfl

theorem person_layout (b : Branch) : (layout style ratio b).value.person =
    (draw (boxes style ratio b) (leftEdge style ratio b) false b).value := by
  simp only [layout, value_bind, value_pure, value_mapM]
  rfl

theorem rect_layout (b : Branch) : (layout style ratio b).value.rect.x = 0 ∧
    (layout style ratio b).value.rect.y = 0 ∧ (layout style ratio b).value.rect.height =
      ((boxes style ratio b).map fun p => p.2.y + p.2.height).foldl max 0 := by
  simp only [layout, value_bind, value_pure, value_mapM]
  exact ⟨rfl, rfl, rfl⟩

theorem numbers_boxes (b : Branch) : (boxes style ratio b).map (·.1) = b.numbers := by
  have hl := congrArg (List.map (·.1)) (labels_sizing style ratio b)
  rw [← Tidy.labels_layout, List.map_map, List.map_map] at hl
  rw [boxes, List.map_map]
  exact hl

/-- Where everyone has one node, the box of a node is found by its number. -/
theorem placedBox_boxes {b : Branch} (hn : b.numbers.Nodup) (left : Int) {p : Nat × Rect}
    (hp : p ∈ boxes style ratio b) :
    placedBox (boxes style ratio b) left p.1 = { p.2 with x := p.2.x + -left } := by
  rw [← numbers_boxes style ratio b] at hn
  rw [placedBox, Keyed.lookup_of_mem hn hp, Option.getD_some]

theorem width_layout (b : Branch) : (layout style ratio b).value.rect.width =
    ((boxes style ratio b).map fun p => p.2.x + p.2.width).max?.getD 0 -
      leftEdge style ratio b := by
  simp only [layout, value_bind, value_pure, value_mapM]
  rfl

/-- The persons of a root have the boxes of the nodes, in the same order, moved to the left. -/
theorem rects_layout {b : Branch} (hn : b.numbers.Nodup) :
    (layout style ratio b).value.person.walk.map (·.rect) = (boxes style ratio b).map fun p =>
      { p.2 with x := p.2.x + -leftEdge style ratio b } := by
  have hp : (b.people.map fun p => placedBox (boxes style ratio b) (leftEdge style ratio b) p.1) =
      b.numbers.map (placedBox (boxes style ratio b) (leftEdge style ratio b)) := by
    rw [Branch.numbers, List.map_map]
    rfl
  rw [person_layout, rects_draw, hp, ← numbers_boxes style ratio b, List.map_map]
  apply List.map_congr_left
  intro p hp
  exact placedBox_boxes style ratio hn _ hp

theorem exists_node_of_mem_people {b : Branch} {p : Nat × String} (hp : p ∈ b.people) :
    ∃ n ∈ nodes style ratio b, n.payload = p.1 := by
  have hl : (p.1, style.nodeWidth ratio p.2.length, style.nodeHeight) ∈
      (nodes style ratio b).map Tidy.Node.label := by
    rw [nodes, Tidy.labels_layout, labels_sizing]
    exact List.mem_map.2 ⟨p, hp, rfl⟩
  obtain ⟨n, hn, he⟩ := List.mem_map.1 hl
  exact ⟨n, hn, congrArg (·.1) he⟩

/-- Every person that is drawn has the box of a node, moved to the left. -/
theorem exists_node_of_mem_walk {b : Branch} {p : Person}
    (hp : p ∈ (layout style ratio b).value.person.walk) : ∃ n ∈ nodes style ratio b,
      p.rect = { (boxOf style n).value with
        x := (boxOf style n).value.x + -leftEdge style ratio b } := by
  rw [person_layout] at hp
  have hr := List.mem_map_of_mem (f := Person.rect) hp
  rw [rects_draw] at hr
  obtain ⟨q, hq, he⟩ := List.mem_map.1 hr
  obtain ⟨n, hn, hi⟩ := exists_node_of_mem_people style ratio hq
  have hs : ((boxes style ratio b).lookup q.1).isSome := by
    rw [List.lookup_isSome_iff]
    exact ⟨_, List.mem_map.2 ⟨n, hn, rfl⟩, by simp [hi]⟩
  obtain ⟨box, hbox⟩ := Option.isSome_iff_exists.1 hs
  obtain ⟨m, hm, hmb⟩ := List.mem_map.1 (Keyed.mem_of_lookup hbox)
  have hb : (boxOf style m).value = box := congrArg (·.2) hmb
  exact ⟨m, hm, by rw [← he, placedBox, hbox, Option.getD_some, hb]⟩

theorem height_of_mem_sizing {b : Branch} {n : Tidy.Node S Nat}
    (hn : n ∈ (sizing style ratio b).walk) : n.height = style.nodeHeight := by
  have hl := List.mem_map_of_mem (f := Tidy.Node.label) hn
  rw [labels_sizing] at hl
  obtain ⟨p, -, he⟩ := List.mem_map.1 hl
  exact (congrArg (·.2.2) he).symm

/-- The tops of nodes: the height of a row, added once for each level above. -/
theorem top_of_mem_nodes {P : Nat → S → Prop} (zero : P 0 Scalar.zero)
    (below : ∀ d y, P d y → P (d + 1) (y + style.nodeHeight)) {b : Branch}
    {n : Tidy.Node S Nat} (hn : n ∈ nodes style ratio b) :
    ∃ d < (sizing style ratio b).levels, P d n.y :=
  Tidy.top_of_mem_layout zero below (fun _ hm => height_of_mem_sizing style ratio hm) n hn

theorem exists_topAt {b : Branch} {n : Tidy.Node S Nat} (hn : n ∈ nodes style ratio b) :
    ∃ d < (sizing style ratio b).levels, n.y = Tidy.topAt style.nodeHeight d :=
  top_of_mem_nodes style ratio (P := fun d y => y = Tidy.topAt style.nodeHeight d) rfl
    (fun d y hy => by rw [hy]; rfl) hn

theorem exists_node_at {b : Branch} {d : Nat} (hd : d < (sizing style ratio b).levels) :
    ∃ n ∈ nodes style ratio b, n.y = Tidy.topAt style.nodeHeight d :=
  Tidy.exists_top (fun _ hm => height_of_mem_sizing style ratio hm) hd

end Subtree

namespace Drawing

namespace Person

theorem walkAll_eq (ps : List Person) : walkAll ps = ps.flatMap walk := by
  induction ps with
  | nil => rfl
  | cons p ps ih => rw [walkAll, ih, List.flatMap_cons]

theorem walk_eq (p : Person) : p.walk = p :: p.children.flatMap walk := by
  cases p
  rw [walk, walkAll_eq]

theorem self_mem_walk (p : Person) : p ∈ p.walk := by
  cases p
  rw [walk]
  exact List.mem_cons_self

/-- The same person at another place. -/
structure Moved (dx dy : Int) (p p' : Person) : Prop where
  rect : p'.rect = { p.rect with x := p.rect.x + dx, y := p.rect.y + dy }
  name : p'.name = p.name
  partner : p'.partner = p.partner
  member : p'.member = p.member

mutual

theorem walk_translate (dx dy : Int) : (p : Person) →
    List.Forall₂ (Moved dx dy) p.walk (translate dx dy p).value.walk
  | ⟨rect, name, partner, member, children⟩ => by
    rw [translate]
    simp only [value_bind, value_pure, Rect.value_translate]
    rw [walk, walk]
    exact .cons ⟨rfl, rfl, rfl, rfl⟩ (walkAll_translate dx dy children)

theorem walkAll_translate (dx dy : Int) : (ps : List Person) →
    List.Forall₂ (Moved dx dy) (walkAll ps) (walkAll (translateAll dx dy ps).value)
  | [] => .nil
  | p :: ps => by
    rw [translateAll]
    simp only [value_bind, value_pure]
    rw [walkAll, walkAll]
    exact List.rel_append (walk_translate dx dy p) (walkAll_translate dx dy ps)

end

theorem rects_translate (dx dy : Int) (p : Person) :
    (translate dx dy p).value.walk.map (·.rect) =
      p.walk.map fun q => { q.rect with x := q.rect.x + dx, y := q.rect.y + dy } := by
  rw [← List.forall₂_eq_eq_eq, List.forall₂_map_left_iff, List.forall₂_map_right_iff]
  exact (walk_translate dx dy p).flip.imp fun _ _ h => h.rect

end Person

namespace Root

theorem value_place (r : Root) (x y : Int) : (r.place x y).value =
    ⟨{ r.rect with x := r.rect.x + (x - r.rect.x), y := r.rect.y + (y - r.rect.y) },
      (r.person.translate (x - r.rect.x) (y - r.rect.y)).value⟩ := rfl

theorem exists_of_mem_place {r : Root} {x y : Int} {p : Person}
    (hp : p ∈ (r.place x y).value.person.walk) : ∃ q ∈ r.person.walk,
      p.rect = ⟨q.rect.x + (x - r.rect.x), q.rect.y + (y - r.rect.y), q.rect.width,
        q.rect.height⟩ := by
  have hr := List.mem_map_of_mem (f := Person.rect) hp
  rw [value_place, Person.rects_translate] at hr
  obtain ⟨q, hq, he⟩ := List.mem_map.1 hr
  exact ⟨q, hq, he.symm⟩

end Root

namespace Block

theorem exists_of_mem_placeRoots {top gap x : Int} {rs : List Root} {r' : Root}
    (h : r' ∈ (placeRoots top gap x rs).value) : ∃ r ∈ rs, ∃ x, r' = (r.place x top).value := by
  induction rs generalizing x with
  | nil => cases h
  | cons r rs ih =>
    obtain rfl | h := List.mem_cons.1 h
    · exact ⟨r, List.mem_cons_self, x, rfl⟩
    · obtain ⟨q, hq, hr⟩ := ih h
      exact ⟨q, List.mem_cons_of_mem _ hq, hr⟩

theorem widths_placeRoots (top gap x : Int) (rs : List Root) :
    (placeRoots top gap x rs).value.map (·.rect.width) = rs.map (·.rect.width) := by
  induction rs generalizing x with
  | nil => rfl
  | cons r rs ih => exact congrArg (r.rect.width :: ·) (ih _)

theorem le_foldl_max {xs : List Int} {x a : Int} (h : x ∈ xs ∨ x ≤ a) : x ≤ xs.foldl max a := by
  induction xs generalizing a with
  | nil => simpa using h
  | cons y ys ih =>
    rw [List.foldl_cons]
    refine ih ?_
    obtain h | h := h
    · obtain rfl | h := List.mem_cons.1 h
      · exact Or.inr (Int.le_max_right _ _)
      · exact Or.inl h
    · exact Or.inr (Int.le_trans h (Int.le_max_left _ _))

theorem nonneg_foldl_max (xs : List Int) : 0 ≤ xs.foldl max 0 :=
  le_foldl_max (Or.inr (Int.le_refl 0))

theorem foldl_max_mem {xs : List Int} {x : Int} (hx : x ∈ xs) (h : 0 ≤ x) :
    xs.foldl max 0 ∈ xs := by
  have hcons : (0 :: xs).max? = some (xs.foldl max 0) := rfl
  obtain hzero | hmem := List.mem_cons.1 (List.max?_mem hcons)
  · have hle : x ≤ xs.foldl max 0 := le_foldl_max (Or.inl hx)
    have he : xs.foldl max 0 = x := by omega
    exact he ▸ hx
  · exact hmem

variable {S : Type} [Scalar S] (style : Style S) (ratio : S) (label : String) (roots : List Root)

theorem value_rootsTop :
    style.rootsTop.value = style.padding + style.titleHeight + style.arrows := rfl

/-- A block is as high as its highest root, the title, the connectors and the padding. -/
theorem compose_spec : ∃ titleX width, (compose style ratio label roots).value =
    ⟨⟨0, 0, width, style.rootsTop.value +
        ((placeRoots style.rootsTop.value style.gap style.padding roots).value.map
          (·.rect.height)).foldl max 0 + style.padding⟩,
      ⟨⟨titleX, style.padding, style.titleWidth ratio label.length, style.titleHeight⟩, label⟩,
      (placeRoots style.rootsTop.value style.gap style.padding roots).value, []⟩ :=
  ⟨_, _, rfl⟩

/-- A block without faults has a title of a size that is not negative. -/
theorem titleHeight_nonneg (h : (compose style ratio label roots).faults = []) :
    0 ≤ style.titleWidth ratio label.length ∧ 0 ≤ style.titleHeight := by
  unfold compose at h
  simp only [faults_bind_eq_nil] at h
  obtain ⟨-, -, -, ht, -⟩ := h
  unfold Rect.make at ht
  simp only [faults_bind_eq_nil, faults_size_eq_nil] at ht
  exact ⟨ht.1, ht.2.1⟩

variable {style ratio label roots}

theorem exists_of_mem_persons {p : Person}
    (hp : p ∈ (compose style ratio label roots).value.persons) :
    ∃ r ∈ roots, ∃ q ∈ r.person.walk, ∃ dx, p.rect = ⟨q.rect.x + dx,
      q.rect.y + (style.rootsTop.value - r.rect.y), q.rect.width, q.rect.height⟩ := by
  obtain ⟨titleX, width, hb⟩ := compose_spec style ratio label roots
  rw [hb] at hp
  obtain ⟨r', hr', hp⟩ := List.mem_flatMap.1 hp
  obtain ⟨r, hr, x, rfl⟩ := exists_of_mem_placeRoots hr'
  obtain ⟨q, hq, he⟩ := Root.exists_of_mem_place hp
  exact ⟨r, hr, q, hq, _, he⟩

theorem height_le_of_mem (style : Style S) {r : Root} (hr : r ∈ roots) :
    r.rect.height ≤ ((placeRoots style.rootsTop.value style.gap style.padding roots).value.map
      (·.rect.height)).foldl max 0 := by
  refine le_foldl_max (Or.inl ?_)
  generalize style.padding = x
  induction roots generalizing x with
  | nil => cases hr
  | cons q qs ih =>
    obtain rfl | hr := List.mem_cons.1 hr
    · exact List.mem_cons_self
    · exact List.mem_cons_of_mem _ (ih hr _)

end Block

end Drawing

namespace Layout

variable {S : Type} [Scalar S] {style : Style S} {ratio : S} {k : Kinship}

/-- The block of a family before its outline is drawn. -/
def composed (style : Style S) (ratio : S) (k : Kinship) : Checked Block := do
  Block.compose style ratio k.label (← roots style ratio k)

/-- A person of a block stands in the row of a node, with the height of all persons. -/
structure StandsAt (style : Style S) (b : Block) (p : Person) (n : Tidy.Node S Nat) : Prop where
  top : p.rect.y = style.rootsTop.value + Scalar.round n.y
  height : p.rect.height = Scalar.round style.personHeight
  width : p.rect.width = max (Scalar.round (n.width - Scalar.double style.marginX)) 0
  bottom : p.rect.y + p.rect.height + style.padding ≤ b.rect.height

theorem standsAt_of_mem_persons {p : Person} (hp : p ∈ (composed style ratio k).value.persons) :
    ∃ t ∈ k.trees, ∃ n ∈ Subtree.nodes style ratio t,
      StandsAt style (composed style ratio k).value p n := by
  have hb : (composed style ratio k).value =
    (Block.compose style ratio k.label (k.trees.map fun t =>
      (Subtree.layout style ratio t).value)).value := by
    simp only [composed, roots, value_bind, value_mapM]
  rw [hb] at hp ⊢
  obtain ⟨r, hr, q, hq, dx, he⟩ := Block.exists_of_mem_persons hp
  have hh := Block.height_le_of_mem style hr
  obtain ⟨t, ht, rfl⟩ := List.mem_map.1 hr
  obtain ⟨n, hn, hqn⟩ := Subtree.exists_node_of_mem_walk style ratio hq
  obtain ⟨-, hy, hht⟩ := Subtree.rect_layout style ratio t
  have hbox : (Subtree.boxOf style n).value.y + (Subtree.boxOf style n).value.height ≤
      (Subtree.layout style ratio t).value.rect.height := by
    rw [hht]
    refine Block.le_foldl_max (Or.inl (List.mem_map.2 ⟨(n.payload, _), ?_, rfl⟩))
    exact List.mem_map.2 ⟨n, hn, rfl⟩
  obtain ⟨titleX, width, hc⟩ := Block.compose_spec style ratio k.label
    (k.trees.map fun t => (Subtree.layout style ratio t).value)
  rw [hqn, hy, Subtree.value_boxOf] at he
  rw [Subtree.value_boxOf] at hbox
  dsimp only at he hbox
  refine ⟨t, ht, n, hn, ?_, ?_, ?_, ?_⟩
  · rw [he]
    dsimp only
    omega
  · rw [he]
  · rw [he]
  · rw [he, hc]
    dsimp only
    omega

end Layout

end Pedigree
