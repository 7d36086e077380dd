import Mathlib
import Pedigree.Proofs.Forest
import Pedigree.Proofs.Generations

/-! The drawing of a family mirrors its persons. Sizing follows chains of partners, and drawing
lists partners and children side by side. Both meet the same numbers, and through these every person
gets the box of its own node. -/
namespace Pedigree

open Checked Drawing

open scoped List

/-! ### Branches by number -/

namespace Kinship

/-- The branch of a person. -/
def branch (k : Kinship) (i : Nat) : Branch := k.branches[i]?.getD (.node i "" none [])

def bond (k : Kinship) (u : Union) : Bond := ⟨u.partners.map k.branch, u.children.map k.branch⟩

/-- The unions of all persons. -/
def unions (k : Kinship) : List Union := k.persons.toList.flatMap (·.unions)

/-- Whether a person is a partner in a union. -/
def isPartner (k : Kinship) (i : Nat) : Bool := (k.unions.flatMap (·.partners)).contains i

/-- The tree in which a person stands. -/
def treeOf (k : Kinship) (i : Nat) : Branch :=
  k.branch ((k.roots.find? fun r => (k.numbersAt r).contains i).getD 0)

variable {k : Kinship}

theorem getElem?_branch {i : Nat} (hi : i < k.size) : k.branches[i]? = some (k.branch i) := by
  rw [branch, getElem?_branches, Array.getElem?_eq_getElem hi]
  rfl

theorem numbersAt_branch {i : Nat} (hi : i < k.size) : k.numbersAt i = (k.branch i).numbers := by
  rw [numbersAt, getElem?_branch hi]
  rfl

theorem mem_below {p : Person} {u : Union} {j : Nat} (hu : u ∈ p.unions)
    (hj : j ∈ u.partners ++ u.children) : j ∈ p.below :=
  List.mem_flatMap.2 ⟨u, hu, hj⟩

theorem mem_unions {i : Nat} {p : Person} {u : Union} (hp : k.persons[i]? = some p)
    (hu : u ∈ p.unions) : u ∈ k.unions :=
  List.mem_flatMap.2 ⟨p, Array.mem_toList_iff.2 (Array.mem_of_getElem? hp), hu⟩

namespace Forest

variable (h : k.Forest)

include h

theorem branch_eq {i : Nat} {p : Person} (hp : k.persons[i]? = some p) :
    k.branch i = .node i p.label p.member (p.unions.map k.bond) := by
  have later (js : List Nat) (hjs : ∀ j ∈ js, j ∈ p.below) :
      (js.filterMap fun m => if i < m then k.branches[m]? else none) = js.map k.branch := by
    rw [← List.filterMap_eq_map]
    apply List.filterMap_congr
    intro j hj
    have hij : k.Above i j := ⟨p, hp, hjs j hj⟩
    rw [if_pos (h.later i j hij)]
    exact getElem?_branch (h.lt_of_above hij)
  rw [branch, getElem?_branches, hp, Option.map_some, Option.getD_some, branchOf]
  congr 1
  apply List.map_congr_left
  intro u hu
  rw [bond, later u.partners fun j hj => mem_below hu (List.mem_append_left _ hj),
    later u.children fun j hj => mem_below hu (List.mem_append_right _ hj)]

theorem trees_eq : k.trees = k.roots.map k.branch := by
  rw [trees, ← List.filterMap_eq_map]
  apply List.filterMap_congr
  intro r hr
  exact getElem?_branch (h.root_lt hr)

theorem mem_trees {r : Nat} (hr : r ∈ k.roots) : k.branch r ∈ k.trees := by
  rw [h.trees_eq]
  exact List.mem_map_of_mem hr

theorem treeOf_eq {r i : Nat} (hr : r ∈ k.roots) (hi : i ∈ k.numbersAt r) :
    k.treeOf i = k.branch r := by
  have hsize := h.root_lt hr
  have hnumbers := h.perm_numbers
  rw [numbers_trees] at hnumbers
  have hlt : i < k.size :=
    List.mem_range.1 (hnumbers.mem_iff.1 (List.mem_flatMap.2 ⟨r, hr, hi⟩))
  rw [treeOf]
  congr 1
  cases hq : k.roots.find? fun r => (k.numbersAt r).contains i with
  | none =>
    have := List.find?_eq_none.1 hq r hr
    exact (this (List.contains_iff_mem.2 hi)).elim
  | some q =>
    have hq' := List.mem_of_find?_eq_some hq
    have hc := List.find?_some (p := fun r => (k.numbersAt r).contains i) hq
    have hqi := List.contains_iff_mem.1 hc
    apply (h.existsUnique_root hlt).unique
    · exact ⟨hq', (h.mem_numbersAt_iff (h.root_lt hq') hlt).1 hqi⟩
    · exact ⟨hr, (h.mem_numbersAt_iff hsize hlt).1 hi⟩

/-- Whoever is below a person stands in the same tree. -/
theorem treeOf_below {i j : Nat} (hij : k.Above i j) : k.treeOf j = k.treeOf i := by
  have hj := h.lt_of_above hij
  have hi := (h.later i j hij).trans hj
  obtain ⟨r, ⟨hr, hri⟩, -⟩ := h.existsUnique_root hi
  have hsize := h.root_lt hr
  rw [h.treeOf_eq hr ((h.mem_numbersAt_iff hsize hi).2 hri),
    h.treeOf_eq hr ((h.mem_numbersAt_iff hsize hj).2 (hri.tail hij))]

/-- Nobody is a root, a partner or a child twice. -/
theorem nodup_places :
    (k.roots ++ (k.unions.flatMap (·.partners) ++ k.unions.flatMap (·.children))).Nodup := by
  have hbelow : k.persons.toList.flatMap (·.below) =
      k.unions.flatMap fun u => u.partners ++ u.children := by
    rw [unions, List.flatMap_assoc]
    rfl
  have hplaces : k.places ~
      k.roots ++ (k.unions.flatMap (·.partners) ++ k.unions.flatMap (·.children)) := by
    rw [places, hbelow]
    exact (List.flatMap_append_perm _ _ _).symm.append_left _
  exact hplaces.nodup_iff.1 (h.perm_places.nodup_iff.2 List.nodup_range)

theorem isPartner_root {r : Nat} (hr : r ∈ k.roots) : k.isPartner r = false := by
  rw [isPartner, Bool.eq_false_iff]
  intro hp
  have hd := (List.nodup_append.1 h.nodup_places).2.2 r hr r
  exact hd (List.mem_append_left _ (List.contains_iff_mem.1 hp)) rfl

theorem isPartner_child {u : Union} {j : Nat} (hu : u ∈ k.unions) (hj : j ∈ u.children) :
    k.isPartner j = false := by
  rw [isPartner, Bool.eq_false_iff]
  intro hp
  have hn := (List.nodup_append.1 h.nodup_places).2.1
  have hd := (List.nodup_append.1 hn).2.2 j (List.contains_iff_mem.1 hp) j
  exact hd (List.mem_flatMap.2 ⟨u, hu, hj⟩) rfl

end Forest

theorem isPartner_partner {u : Union} {j : Nat} (hu : u ∈ k.unions) (hj : j ∈ u.partners) :
    k.isPartner j = true :=
  List.contains_iff_mem.2 (List.mem_flatMap.2 ⟨u, hu, hj⟩)

end Kinship

/-! ### Depths -/

section Ranks

variable {d : Nat} {b : Branch}

theorem ranks_subset_chain {bs : List Branch} {n : Nat} (hb : bs[n]? = some b) :
    b.ranks (d + n) ⊆ ranksOfChain d bs := by
  induction bs generalizing d n with
  | nil => cases hb
  | cons a bs ih =>
    rw [ranksOfChain]
    cases n with
    | zero =>
      cases hb
      exact List.subset_append_left _ _
    | succ n =>
      rw [show d + (n + 1) = d + 1 + n by omega]
      exact List.subset_append_of_subset_right _ (ih hb)

theorem ranks_subset_all {bs : List Branch} (hb : b ∈ bs) : b.ranks d ⊆ ranksOfAll d bs := by
  induction bs with
  | nil => cases hb
  | cons a bs ih =>
    rw [ranksOfAll]
    cases List.mem_cons.1 hb with
    | inl hb =>
      subst hb
      exact List.subset_append_left _ _
    | inr hb => exact List.subset_append_of_subset_right _ (ih hb)

theorem ranks_subset_bonds {bonds : List Bond} {partners children : List Branch}
    (hb : ⟨partners, children⟩ ∈ bonds) :
    ranksOfChain d partners ++ ranksOfAll (d + partners.length) children ⊆
      ranksOfBonds d bonds := by
  induction bonds with
  | nil => cases hb
  | cons bond bonds ih =>
    cases bond with
    | mk ps cs =>
      rw [ranksOfBonds]
      cases List.mem_cons.1 hb with
      | inl hb =>
        cases hb
        exact List.subset_append_left _ _
      | inr hb => exact List.subset_append_of_subset_right _ (ih hb)

theorem Branch.numbers_of_ranks (b : Branch) (d : Nat) :
    (b.ranks d).map (·.2.1) = b.numbers := by
  rw [numbers, ← people_of_ranks d, List.map_map]
  rfl

end Ranks

namespace Kinship

/-- How deep a person stands in the tree that is sized: each partner one below the partner before
it, the first one below whoever opens the union, and the children one below the last. -/
inductive Depth (k : Kinship) : Nat → Nat → Prop
  | root {r : Nat} : r ∈ k.roots → Depth k r 0
  | partner {i j d n : Nat} {p : Person} {u : Union} : Depth k i d → k.persons[i]? = some p →
      u ∈ p.unions → u.partners[n]? = some j → Depth k j (d + n + 1)
  | child {i j d : Nat} {p : Person} {u : Union} : Depth k i d → k.persons[i]? = some p →
      u ∈ p.unions → j ∈ u.children → Depth k j (d + u.partners.length + 1)

namespace Forest

variable {k : Kinship} (h : k.Forest)

include h

theorem lt_of_depth {i d : Nat} (hd : k.Depth i d) : i < k.size := by
  cases hd with
  | root hr => exact h.root_lt hr
  | partner _ hp hu hj =>
    have hj := List.mem_of_getElem? hj
    exact h.lt_of_above ⟨_, hp, mem_below hu (List.mem_append_left _ hj)⟩
  | child _ hp hu hj => exact h.lt_of_above ⟨_, hp, mem_below hu (List.mem_append_right _ hj)⟩

/-- The ranks below a union are among those of the branch. -/
theorem ranks_union {i d : Nat} {p : Person} {u : Union} (hp : k.persons[i]? = some p)
    (hu : u ∈ p.unions) : ranksOfChain (d + 1) (u.partners.map k.branch) ++
      ranksOfAll (d + u.partners.length + 1) (u.children.map k.branch) ⊆ (k.branch i).ranks d := by
  have hb := ranks_subset_bonds (d := d + 1) (List.mem_map_of_mem (f := k.bond) hu)
  rw [List.length_map, Nat.add_right_comm] at hb
  rw [h.branch_eq hp, Branch.ranks]
  exact List.subset_cons_of_subset _ hb

/-- A branch whose person has a depth is part of a tree, at that depth. -/
theorem ranks_subset_root {i d : Nat} (hd : k.Depth i d) :
    ∃ r ∈ k.roots, (k.branch i).ranks d ⊆ (k.branch r).ranks 0 := by
  induction hd with
  | root hr => exact ⟨_, hr, List.Subset.refl _⟩
  | @partner i j d n p u _ hp hu hj ih =>
    obtain ⟨r, hr, hi⟩ := ih
    refine ⟨r, hr, List.Subset.trans ?_ hi⟩
    have hj : (u.partners.map k.branch)[n]? = some (k.branch j) := by
      rw [List.getElem?_map, hj]
      rfl
    have hc := ranks_subset_chain (d := d + 1) hj
    rw [Nat.add_right_comm] at hc
    exact List.Subset.trans (List.subset_append_of_subset_left _ hc) (h.ranks_union hp hu)
  | @child i j d p u _ hp hu hj ih =>
    obtain ⟨r, hr, hi⟩ := ih
    refine ⟨r, hr, List.Subset.trans ?_ hi⟩
    have hc := ranks_subset_all (d := d + u.partners.length + 1)
      (List.mem_map_of_mem (f := k.branch) hj)
    exact List.Subset.trans (List.subset_append_of_subset_right _ hc) (h.ranks_union hp hu)

theorem exists_rank {i d : Nat} (hd : k.Depth i d) :
    ∃ r ∈ k.roots, ∃ label, (d, i, label) ∈ (k.branch r).ranks 0 := by
  obtain ⟨r, hr, hi⟩ := h.ranks_subset_root hd
  have hlt := h.lt_of_depth hd
  refine ⟨r, hr, k.persons[i].label, hi ?_⟩
  rw [h.branch_eq (Array.getElem?_eq_getElem hlt), Branch.ranks]
  exact List.mem_cons_self

theorem exists_depth {i : Nat} (hi : i < k.size) : ∃ d, k.Depth i d := by
  obtain ⟨r, ⟨hr, hri⟩, -⟩ := h.existsUnique_root hi
  clear hi
  induction hri with
  | refl => exact ⟨0, .root hr⟩
  | tail _ hij ih =>
    obtain ⟨d, hd⟩ := ih
    obtain ⟨p, hp, hj⟩ := hij
    obtain ⟨u, hu, hj⟩ := List.mem_flatMap.1 hj
    cases List.mem_append.1 hj with
    | inl hj =>
      obtain ⟨n, hn⟩ := List.getElem?_of_mem hj
      exact ⟨_, .partner hd hp hu hn⟩
    | inr hj => exact ⟨_, .child hd hp hu hj⟩

/-- Whoever has a depth is nowhere else in the trees. -/
theorem eq_of_rank {i d : Nat} (hd : k.Depth i d) {e : Nat × Nat × String}
    (he : e ∈ k.trees.flatMap (·.ranks 0)) (hi : e.2.1 = i) : e.1 = d := by
  have hn : ((k.trees.flatMap (·.ranks 0)).map (·.2.1)).Nodup := by
    rw [List.map_flatMap]
    simp only [Branch.numbers_of_ranks]
    exact h.perm_numbers.nodup_iff.2 List.nodup_range
  obtain ⟨r, hr, label, hm⟩ := h.exists_rank hd
  have hm := List.mem_flatMap.2 ⟨_, h.mem_trees hr, hm⟩
  exact congrArg (·.1) (List.inj_on_of_nodup_map hn he hm hi)

theorem depth_unique {i d d' : Nat} (hd : k.Depth i d) (hd' : k.Depth i d') : d = d' := by
  obtain ⟨r, hr, label, hm⟩ := h.exists_rank hd
  exact h.eq_of_rank hd' (List.mem_flatMap.2 ⟨_, h.mem_trees hr, hm⟩) rfl

theorem depth_of_rank {e : Nat × Nat × String} (he : e ∈ k.trees.flatMap (·.ranks 0)) :
    k.Depth e.2.1 e.1 := by
  have hi : e.2.1 ∈ k.trees.flatMap Branch.numbers := by
    obtain ⟨t, ht, he⟩ := List.mem_flatMap.1 he
    refine List.mem_flatMap.2 ⟨t, ht, ?_⟩
    rw [← t.numbers_of_ranks 0]
    exact List.mem_map_of_mem (f := fun e : Nat × Nat × String => e.2.1) he
  obtain ⟨d, hd⟩ := h.exists_depth (List.mem_range.1 (h.perm_numbers.mem_iff.1 hi))
  rw [h.eq_of_rank hd he rfl]
  exact hd

end Forest

end Kinship

/-! ### What is drawn for a number -/

namespace Subtree

theorem value_drawAll (boxes : List (Nat × Rect)) (left : Int) (partner : Bool)
    (bs : List Branch) : (drawAll boxes left partner bs).value =
      bs.map fun b => (draw boxes left partner b).value := by
  induction bs with
  | nil => rfl
  | cons b bs ih =>
    rw [drawAll, List.map_cons, ← ih]
    rfl

theorem value_drawBonds (boxes : List (Nat × Rect)) (left : Int) (k : Kinship)
    (us : List Kinship.Union) : (drawBonds boxes left (us.map k.bond)).value = us.flatMap fun u =>
      (u.partners.map fun j => (draw boxes left true (k.branch j)).value) ++
        u.children.map fun j => (draw boxes left false (k.branch j)).value := by
  induction us with
  | nil => rfl
  | cons u us ih =>
    rw [List.map_cons, List.flatMap_cons, ← ih, Kinship.bond, drawBonds]
    simp only [value_bind, value_pure, value_drawAll, List.map_map]
    rfl

theorem numbers_nodes {S : Type} [Scalar S] (style : Style S) (ratio : S) (b : Branch) :
    (nodes style ratio b).map (·.payload) = b.numbers := by
  rw [← numbers_boxes style ratio b, boxes, List.map_map]
  rfl

end Subtree

namespace Layout

variable {S : Type} [Scalar S] (style : Style S) (ratio : S) (k : Kinship)

/-- What is drawn for a person. -/
def shown (i : Nat) : Person :=
  (Subtree.draw (Subtree.boxes style ratio (k.treeOf i)) (Subtree.leftEdge style ratio (k.treeOf i))
    (k.isPartner i) (k.branch i)).value

variable {k}

theorem shown_eq (h : k.Forest) {i : Nat} {p : Kinship.Person} (hp : k.persons[i]? = some p) :
    shown style ratio k i = ⟨Subtree.placedBox (Subtree.boxes style ratio (k.treeOf i))
      (Subtree.leftEdge style ratio (k.treeOf i)) i, p.label, k.isPartner i, p.member,
      p.unions.flatMap fun u => (u.partners ++ u.children).map (shown style ratio k)⟩ := by
  rw [shown, h.branch_eq hp, Subtree.draw]
  simp only [value_bind, value_pure, Rect.value_translate, value_neg, Int.add_zero,
    Subtree.value_drawBonds]
  rw [Person.mk.injEq]
  refine ⟨rfl, rfl, rfl, rfl, ?_⟩
  apply List.flatMap_congr
  intro u hu
  have htree (j : Nat) (hj : j ∈ u.partners ++ u.children) : k.treeOf j = k.treeOf i :=
    h.treeOf_below ⟨p, hp, Kinship.mem_below hu hj⟩
  have hu := Kinship.mem_unions hp hu
  rw [List.map_append]
  congr 1
  · apply List.map_congr_left
    intro j hj
    rw [shown, htree j (List.mem_append_left _ hj), Kinship.isPartner_partner hu hj]
  · apply List.map_congr_left
    intro j hj
    rw [shown, htree j (List.mem_append_right _ hj), h.isPartner_child hu hj]

theorem walk_shown (h : k.Forest) : ∀ i < k.size,
    (shown style ratio k i).walk = (k.numbersAt i).map (shown style ratio k) := by
  refine h.induction (P := fun i => _ = (k.numbersAt i).map (shown style ratio k)) ?_
  intro i p hp ih
  rw [Person.walk_eq, h.numbersAt_eq hp, List.map_cons, shown_eq style ratio h hp]
  congr 1
  calc (p.unions.flatMap fun u =>
        (u.partners ++ u.children).map (shown style ratio k)).flatMap Person.walk
      = (p.below.map (shown style ratio k)).flatMap Person.walk := by
        rw [Kinship.Person.below, List.map_flatMap]
    _ = p.below.flatMap fun j => (shown style ratio k j).walk := List.flatMap_map ..
    _ = p.below.flatMap fun j => (k.numbersAt j).map (shown style ratio k) :=
      List.flatMap_congr ih
    _ = (p.below.flatMap k.numbersAt).map (shown style ratio k) := List.map_flatMap.symm

theorem rect_shown (h : k.Forest) {t : Branch} (ht : t ∈ k.trees) {n : Tidy.Node S Nat}
    (hn : n ∈ Subtree.nodes style ratio t) : (shown style ratio k n.payload).rect =
      { (Subtree.boxOf style n).value with
        x := (Subtree.boxOf style n).value.x - Subtree.leftEdge style ratio t } := by
  have hm : n.payload ∈ t.numbers := by
    rw [← Subtree.numbers_nodes style ratio t]
    exact List.mem_map_of_mem hn
  have hlt : n.payload < k.size :=
    List.mem_range.1 (h.perm_numbers.mem_iff.1 (List.mem_flatMap.2 ⟨t, ht, hm⟩))
  have htree : k.treeOf n.payload = t := by
    rw [h.trees_eq] at ht
    obtain ⟨r, hr, rfl⟩ := List.mem_map.1 ht
    rw [← Kinship.numbersAt_branch (h.root_lt hr)] at hm
    exact h.treeOf_eq hr hm
  have hbox : (n.payload, (Subtree.boxOf style n).value) ∈ Subtree.boxes style ratio t :=
    List.mem_map_of_mem (f := fun n => (n.payload, (Subtree.boxOf style n).value)) hn
  rw [shown_eq style ratio h (Array.getElem?_eq_getElem hlt), htree]
  exact Subtree.placedBox_boxes style ratio (h.nodup_numbers ht) _ hbox

theorem level_shown (h : k.Forest) {i d : Nat} (hd : k.Depth i d) :
    (shown style ratio k i).rect.y = Scalar.round (Tidy.topAt style.nodeHeight d) ∧
      (shown style ratio k i).rect.height = Scalar.round style.personHeight := by
  obtain ⟨r, hr, label, hm⟩ := h.exists_rank hd
  have htops := Tidy.tops_layout fun _ hn =>
    Subtree.height_of_mem_sizing style ratio (b := k.branch r) hn
  rw [Subtree.ranks_sizing, List.map_map] at htops
  have hm := List.mem_map_of_mem
    (f := (fun e => (e.2, Tidy.topAt style.nodeHeight e.1)) ∘ Subtree.sizedRank style ratio) hm
  rw [← htops] at hm
  obtain ⟨n, hn, he⟩ := List.mem_map.1 hm
  have hi : n.payload = i := congrArg (·.1.1) he
  have hy : n.y = Tidy.topAt style.nodeHeight d := congrArg (·.2) he
  rw [← hi, ← hy, rect_shown style ratio h (h.mem_trees hr) hn, Subtree.value_boxOf]
  exact ⟨rfl, rfl⟩

theorem person_layout_root (h : k.Forest) {r : Nat} (hr : r ∈ k.roots) :
    (Subtree.layout style ratio (k.branch r)).value.person = shown style ratio k r := by
  have hmem : r ∈ k.numbersAt r := by
    rw [h.numbersAt_eq (Array.getElem?_eq_getElem (h.root_lt hr))]
    exact List.mem_cons_self
  rw [Subtree.person_layout, shown, h.treeOf_eq hr hmem, h.isPartner_root hr]

theorem partner_shown (h : k.Forest) {i : Nat} (hi : i < k.size) :
    (shown style ratio k i).partner = k.isPartner i := by
  rw [shown_eq style ratio h (Array.getElem?_eq_getElem hi)]

/-- The roots of a family as they are drawn, with what is drawn for each number. -/
structure Mirrors (k : Kinship) (drawn : List Root) (shown : Nat → Person) : Prop where
  /-- A root is drawn for each root, and no root is a partner. -/
  roots : drawn.map (·.person) = k.roots.map shown
  alone : ∀ r ∈ k.roots, (shown r).partner = false
  name : ∀ (i : Nat) (p : Kinship.Person), k.persons[i]? = some p →
    (shown i).name = p.label ∧ (shown i).member = p.member
  /-- Union by union the partners come first and then the children. -/
  children : ∀ (i : Nat) (p : Kinship.Person), k.persons[i]? = some p → (shown i).children =
    p.unions.flatMap fun u => u.partners.map shown ++ u.children.map shown
  partner : ∀ (i : Nat) (p : Kinship.Person), k.persons[i]? = some p → ∀ u ∈ p.unions,
    (∀ j ∈ u.partners, (shown j).partner = true) ∧ ∀ j ∈ u.children, (shown j).partner = false
  /-- The persons of a root are those of the nodes that are sized, in the same order. -/
  walk : List.Forall₂ (fun t r => r.person.walk =
    (Subtree.nodes style ratio t).map fun n => shown n.payload) k.trees drawn
  /-- Everyone has one node. -/
  once : (k.trees.flatMap fun t => (Subtree.nodes style ratio t).map (·.payload)) ~
    List.range k.size
  /-- The box of a person is that of its node, moved to the left. -/
  box : ∀ t ∈ k.trees, ∀ n ∈ Subtree.nodes style ratio t, (shown n.payload).rect =
    { (Subtree.boxOf style n).value with
      x := (Subtree.boxOf style n).value.x - Subtree.leftEdge style ratio t }
  /-- Everyone has one depth, which is that of its node. -/
  depth : ∀ i < k.size, ∃! d, k.Depth i d
  rank : ∀ t ∈ k.trees, ∀ e ∈ (Subtree.sizing style ratio t).ranks 0, k.Depth e.2.1 e.1
  /-- The depth gives the row. -/
  level : ∀ i d, k.Depth i d →
    (shown i).rect.y = Scalar.round (Tidy.topAt style.nodeHeight d) ∧
      (shown i).rect.height = Scalar.round style.personHeight

theorem mirrors_shown (h : k.Forest) :
    Mirrors style ratio k (roots style ratio k).value (shown style ratio k) := by
  have hroots : (roots style ratio k).value =
      k.roots.map fun r => (Subtree.layout style ratio (k.branch r)).value := by
    rw [roots, value_mapM, h.trees_eq, List.map_map]
    rfl
  have fields {i : Nat} {p : Kinship.Person} (hp : k.persons[i]? = some p) :=
    shown_eq style ratio h hp
  constructor
  case roots =>
    rw [hroots, List.map_map]
    exact List.map_congr_left fun r hr => person_layout_root style ratio h hr
  case alone =>
    intro r hr
    rw [partner_shown style ratio h (h.root_lt hr)]
    exact h.isPartner_root hr
  case name =>
    intro i p hp
    rw [fields hp]
    exact ⟨rfl, rfl⟩
  case children =>
    intro i p hp
    rw [fields hp]
    simp only [List.map_append]
  case partner =>
    intro i p hp u hu
    have hmem := Kinship.mem_unions hp hu
    have hlt {j : Nat} (hj : j ∈ u.partners ++ u.children) : j < k.size :=
      h.lt_of_above ⟨p, hp, Kinship.mem_below hu hj⟩
    constructor
    · intro j hj
      rw [partner_shown style ratio h (hlt (List.mem_append_left _ hj))]
      exact Kinship.isPartner_partner hmem hj
    · intro j hj
      rw [partner_shown style ratio h (hlt (List.mem_append_right _ hj))]
      exact h.isPartner_child hmem hj
  case walk =>
    rw [hroots, h.trees_eq, List.forall₂_map_left_iff, List.forall₂_map_right_iff,
      List.forall₂_same]
    intro r hr
    rw [person_layout_root style ratio h hr, walk_shown style ratio h r (h.root_lt hr),
      Kinship.numbersAt_branch (h.root_lt hr), ← Subtree.numbers_nodes style ratio, List.map_map]
    rfl
  case once =>
    simp only [Subtree.numbers_nodes]
    exact h.perm_numbers
  case box =>
    intro t ht n hn
    exact rect_shown style ratio h ht hn
  case depth =>
    intro i hi
    obtain ⟨d, hd⟩ := h.exists_depth hi
    exact ⟨d, hd, fun d' hd' => h.depth_unique hd' hd⟩
  case rank =>
    intro t ht e he
    rw [Subtree.ranks_sizing] at he
    obtain ⟨b, hb, rfl⟩ := List.mem_map.1 he
    exact h.depth_of_rank (List.mem_flatMap.2 ⟨t, ht, hb⟩)
  case level =>
    intro i d hd
    exact level_shown style ratio h hd

/-- The drawing of a family mirrors its persons, whomever the references denote: what is drawn for a
person names its partners and children union by union, everyone is drawn once and with the box of
its own node, and persons at one depth stand in one row. The values are those of unbounded integers,
so this is true of whatever is handed out. -/
theorem roots_mirror_persons (memberOf : Snapshot.Reference → Option Id) (f : Snapshot.Family) :
    let k := Kinship.ofFamily memberOf f
    ∃ shown, Mirrors style ratio k (roots style ratio k).value shown :=
  ⟨_, mirrors_shown style ratio (Kinship.growing_ofFamily f).forest⟩

end Layout

end Pedigree
