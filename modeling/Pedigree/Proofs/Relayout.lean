import Pedigree.Proofs.Snug

/-! Layouts of trees that have been laid out before, and of parts of trees. A layout depends on
nothing that an earlier one has left in the nodes, so a tree may grow between layouts; in exact
numbers a part of a tree looks as if it had been laid out alone and then moved to its place. -/
namespace Pedigree

namespace Tidy

variable {S α : Type}

theorem with_offset_eq {n : Node S α} {o : S} (h : n.offset = o) :
    { n with offset := o } = n := by
  cases n
  cases h
  rfl

/-! ### Trees without what a layout leaves in them -/

section Fresh

variable [Scalar S]

mutual

/-- The tree as it is built, before any layout. -/
def Node.fresh : Node S α → Node S α
  | ⟨payload, width, height, _, _, _, children⟩ =>
    .make payload width height (Node.freshAll children)

def Node.freshAll : List (Node S α) → List (Node S α)
  | [] => []
  | n :: ns => Node.fresh n :: Node.freshAll ns

end

mutual

/-- The tree before its offsets become places. -/
def Node.unplaced : Node S α → Node S α
  | ⟨payload, width, height, _, _, offset, children⟩ =>
    { Node.make payload width height (Node.unplacedAll children) with offset := offset }

def Node.unplacedAll : List (Node S α) → List (Node S α)
  | [] => []
  | n :: ns => Node.unplaced n :: Node.unplacedAll ns

end

theorem freshAll_eq_map (ns : List (Node S α)) : Node.freshAll ns = ns.map Node.fresh := by
  induction ns with
  | nil => rfl
  | cons n ns ih => rw [Node.freshAll, ih, List.map_cons]

theorem unplacedAll_eq_map (ns : List (Node S α)) :
    Node.unplacedAll ns = ns.map Node.unplaced := by
  induction ns with
  | nil => rfl
  | cons n ns ih => rw [Node.unplacedAll, ih, List.map_cons]

theorem fresh_eq (n : Node S α) :
    n.fresh = .make n.payload n.width n.height (n.children.map Node.fresh) := by
  cases n
  rw [Node.fresh, freshAll_eq_map]

theorem offset_unplaced (n : Node S α) : n.unplaced.offset = n.offset := by
  cases n
  rfl

theorem unplaced_offset (n : Node S α) (o : S) :
    { n with offset := o }.unplaced = { n.unplaced with offset := o } := by
  cases n
  rfl

theorem middle_unplaced (ns : List (Node S α)) : middle (ns.map Node.unplaced) = middle ns := by
  have ho (n : Option (Node S α)) : offsetOf (n.map Node.unplaced) = offsetOf n := by
    cases n with
    | none => rfl
    | some n => exact offset_unplaced n
  rw [middle, middle, List.head?_map, List.getLast?_map, ho, ho]

mutual

/-- Arranging sets all offsets below a node and looks at none of the old ones. -/
theorem arrange_fresh : (n : Node S α) → arrange n.fresh =
    ({ (arrange n).1.unplaced with offset := Scalar.zero }, (arrange n).2)
  | ⟨payload, width, height, x, y, offset, children⟩ => by
    have ih : arrangeAll [] (Node.freshAll children) = _ := arrangeAll_fresh [] children
    rw [Node.fresh, Node.make, arrange, arrange, ih]
    generalize arrangeAll [] children = arranged
    obtain ⟨children, merged⟩ := arranged
    dsimp only
    rw [Node.unplaced, unplacedAll_eq_map, middle_unplaced]
    simp [Node.make, Function.comp_def, unplaced_offset, offset_unplaced]

theorem arrangeAll_fresh (others : Contour S) : (ns : List (Node S α)) →
    arrangeAll others (Node.freshAll ns) =
      ((arrangeAll others ns).1.map Node.unplaced, (arrangeAll others ns).2)
  | [] => by rw [Node.freshAll, arrangeAll, List.map_nil]
  | n :: ns => by
    rw [Node.freshAll, arrangeAll, arrangeAll, arrange_fresh n]
    dsimp only
    rw [arrangeAll_fresh _ ns, List.map_cons, unplaced_offset]

end

mutual

/-- Placing overwrites all places. -/
theorem place_unplaced (x y : S) : (n : Node S α) → place x y n.unplaced = place x y n
  | ⟨payload, width, height, _, _, offset, children⟩ => by
    rw [Node.unplaced, Node.make, place, place, placeAll_unplaced x _ children]

theorem placeAll_unplaced (x y : S) : (ns : List (Node S α)) →
    placeAll x y (Node.unplacedAll ns) = placeAll x y ns
  | [] => rfl
  | n :: ns => by
    rw [Node.unplacedAll, placeAll, placeAll, offset_unplaced, place_unplaced _ y n,
      placeAll_unplaced x y ns]

end

theorem place_offset (x y o : S) (n : Node S α) :
    place x y { n with offset := o } = { place x y n with offset := o } := by
  rw [place_eq, place_eq]

/-- A layout is that of the tree as it was built; only the offset of the root, which no layout
looks at or sets, is as before. -/
theorem layout_eq_fresh (n : Node S α) :
    n.layout = { n.fresh.layout with offset := n.offset } := by
  have h : n.fresh.layout = { n.layout with offset := Scalar.zero } := by
    rw [Node.layout, arrange_fresh, place_offset, place_unplaced, Node.layout]
  rw [h]
  exact (with_offset_eq (layout_offset n)).symm

theorem layout_congr {n m : Node S α} (h : n.fresh = m.fresh) (ho : n.offset = m.offset) :
    n.layout = m.layout := by
  rw [layout_eq_fresh n, layout_eq_fresh m, h, ho]

theorem fresh_offset (n : Node S α) (o : S) : { n with offset := o }.fresh = n.fresh := by
  cases n
  rfl

mutual

theorem fresh_arrange : (n : Node S α) → (arrange n).1.fresh = n.fresh
  | ⟨payload, width, height, x, y, offset, children⟩ => by
    rw [arrange, Node.fresh, Node.fresh, ← freshAll_arrangeAll [] children, freshAll_eq_map,
      freshAll_eq_map, List.map_map]
    simp [Function.comp_def, fresh_offset]

theorem freshAll_arrangeAll (others : Contour S) : (ns : List (Node S α)) →
    Node.freshAll (arrangeAll others ns).1 = Node.freshAll ns
  | [] => by rw [arrangeAll]
  | n :: ns => by
    rw [arrangeAll]
    dsimp only
    rw [Node.freshAll, Node.freshAll, fresh_offset, fresh_arrange n, freshAll_arrangeAll _ ns]

end

mutual

theorem fresh_place (x y : S) : (n : Node S α) → (place x y n).fresh = n.fresh
  | ⟨payload, width, height, _, _, offset, children⟩ => by
    rw [place, Node.fresh, Node.fresh, freshAll_placeAll x _ children]

theorem freshAll_placeAll (x y : S) : (ns : List (Node S α)) →
    Node.freshAll (placeAll x y ns) = Node.freshAll ns
  | [] => rfl
  | n :: ns => by
    rw [placeAll, Node.freshAll, Node.freshAll, fresh_place _ y n, freshAll_placeAll x y ns]

end

theorem fresh_layout (n : Node S α) : n.layout.fresh = n.fresh := by
  rw [Node.layout, fresh_place, fresh_arrange]

theorem layout_layout (n : Node S α) : n.layout.layout = n.layout :=
  layout_congr (fresh_layout n) (layout_offset n)

end Fresh

/-! ### Trees that grow -/

/-- Adds children on the right of those of the node that a path leads to, where a path tells which
child to go to at each level. -/
def Node.appendAt (children : List (Node S α)) : List Nat → Node S α → Node S α
  | [], n => n.append children
  | i :: path, n => { n with children := n.children.modify i (Node.appendAt children path) }

/-- Adds children at one place after another. -/
def Node.grow (additions : List (List Nat × List (Node S α))) (n : Node S α) : Node S α :=
  additions.foldl (fun n a => n.appendAt a.2 a.1) n

theorem offset_appendAt (children : List (Node S α)) (path : List Nat) (n : Node S α) :
    (n.appendAt children path).offset = n.offset := by
  cases path <;> rfl

section Growing

variable [Scalar S]

theorem fresh_appendAt (children : List (Node S α)) (path : List Nat) (n : Node S α) :
    (n.appendAt children path).fresh = n.fresh.appendAt (children.map Node.fresh) path := by
  induction path generalizing n with
  | nil =>
    rw [Node.appendAt, Node.appendAt, Node.append, Node.append, fresh_eq, fresh_eq,
      List.map_append]
    rfl
  | cons i path ih =>
    have hm : (n.children.modify i (Node.appendAt children path)).map Node.fresh =
        (n.children.map Node.fresh).modify i
          (Node.appendAt (children.map Node.fresh) path) := by
      apply List.ext_getElem?
      intro j
      rw [List.getElem?_map, List.getElem?_modify, List.getElem?_modify, List.getElem?_map]
      cases n.children[j]? with
      | none => rfl
      | some c =>
        by_cases hij : i = j
        · simp [hij, ih]
        · simp [hij]
    rw [Node.appendAt, Node.appendAt, fresh_eq, fresh_eq]
    exact congrArg (Node.make _ _ _) hm

theorem grow_congr {n m : Node S α} (h : n.fresh = m.fresh) (ho : n.offset = m.offset)
    (additions : List (List Nat × List (Node S α))) :
    (n.grow additions).fresh = (m.grow additions).fresh ∧
      (n.grow additions).offset = (m.grow additions).offset := by
  induction additions generalizing n m with
  | nil => exact ⟨h, ho⟩
  | cons a additions ih =>
    apply ih
    · rw [fresh_appendAt, fresh_appendAt, h]
    · rw [offset_appendAt, offset_appendAt, ho]

/-- It makes no difference to a layout whether a tree was laid out before it grew. -/
theorem layout_grow (additions : List (List Nat × List (Node S α))) (n : Node S α) :
    (n.layout.grow additions).layout = (n.grow additions).layout := by
  obtain ⟨h, ho⟩ := grow_congr (fresh_layout n) (layout_offset n) additions
  exact layout_congr h ho

end Growing

/-! ### Parts of trees -/

/-- The part of a tree below the node that a path leads to. -/
def Node.at? : List Nat → Node S α → Option (Node S α)
  | [], n => some n
  | i :: path, n => n.children[i]?.bind (Node.at? path)

section Parts

variable [Scalar S]

theorem getElem?_arrangeAll (others : Contour S) (ns : List (Node S α)) (i : Nat) :
    ∃ o, (arrangeAll others ns).1[i]? =
      ns[i]?.map fun n => { (arrange n).1 with offset := o } := by
  induction ns generalizing others i with
  | nil => exact ⟨Scalar.zero, by rw [arrangeAll]; rfl⟩
  | cons n ns ih =>
    rw [arrangeAll]
    cases i with
    | zero => exact ⟨_, rfl⟩
    | succ i => exact ih _ i

theorem getElem?_children_arrange (n : Node S α) (i : Nat) :
    ∃ o, (arrange n).1.children[i]? =
      n.children[i]?.map fun c => { (arrange c).1 with offset := o } := by
  obtain ⟨payload, width, height, x, y, offset, children⟩ := n
  obtain ⟨o, ho⟩ := getElem?_arrangeAll [] children i
  refine ⟨o - middle (arrangeAll [] children).1, ?_⟩
  rw [arrange]
  dsimp only
  rw [List.getElem?_map, ho, Option.map_map]
  rfl

/-- A part of a tree is arranged like a tree. -/
theorem at?_arrange {path : List Nat} {n k : Node S α} (h : n.at? path = some k) (o : S) :
    ∃ o', { (arrange n).1 with offset := o }.at? path =
      some { (arrange k).1 with offset := o' } := by
  induction path generalizing n o with
  | nil =>
    obtain rfl := Option.some.inj h
    exact ⟨o, rfl⟩
  | cons i path ih =>
    obtain ⟨c, hc, hk⟩ := Option.bind_eq_some_iff.mp h
    obtain ⟨o', ho'⟩ := getElem?_children_arrange n i
    obtain ⟨o'', ho''⟩ := ih hk o'
    refine ⟨o'', ?_⟩
    rw [Node.at?]
    dsimp only
    rw [ho', hc]
    exact ho''

theorem at?_place {path : List Nat} {n k : Node S α} (h : n.at? path = some k) (x y : S) :
    ∃ x' y', (place x y n).at? path = some (place x' y' k) := by
  induction path generalizing n x y with
  | nil =>
    obtain rfl := Option.some.inj h
    exact ⟨x, y, rfl⟩
  | cons i path ih =>
    obtain ⟨c, hc, hk⟩ := Option.bind_eq_some_iff.mp h
    obtain ⟨x', y', h'⟩ := ih hk (x + c.offset) (y + n.height)
    refine ⟨x', y', ?_⟩
    rw [place_eq, Node.at?, placeAll_eq_map, List.getElem?_map, hc]
    exact h'

/-- A part of a laid out tree is placed like a laid out tree, from another start. -/
theorem at?_layout {path : List Nat} {n k : Node S α} (h : n.at? path = some k) :
    ∃ x y o, n.layout.at? path = some (place x y { (arrange k).1 with offset := o }) := by
  obtain ⟨o, ho⟩ := at?_arrange h (arrange n).1.offset
  rw [with_offset_eq rfl] at ho
  obtain ⟨x, y, hxy⟩ := at?_place ho Scalar.zero Scalar.zero
  exact ⟨x, y, o, hxy⟩

end Parts

mutual

/-- Moves all nodes. -/
def Node.translate (dx dy : ℚ) : Node ℚ α → Node ℚ α
  | ⟨payload, width, height, x, y, offset, children⟩ =>
    ⟨payload, width, height, x + dx, y + dy, offset, Node.translateAll dx dy children⟩

def Node.translateAll (dx dy : ℚ) : List (Node ℚ α) → List (Node ℚ α)
  | [] => []
  | n :: ns => Node.translate dx dy n :: Node.translateAll dx dy ns

end

mutual

theorem place_add (x y dx dy : ℚ) : (n : Node ℚ α) →
    place (x + dx) (y + dy) n = (place x y n).translate dx dy
  | ⟨payload, width, height, _, _, offset, children⟩ => by
    rw [place, place, Node.translate, add_right_comm y, placeAll_add x _ dx dy children]

theorem placeAll_add (x y dx dy : ℚ) : (ns : List (Node ℚ α)) →
    placeAll (x + dx) (y + dy) ns = Node.translateAll dx dy (placeAll x y ns)
  | [] => rfl
  | n :: ns => by
    rw [placeAll, placeAll, Node.translateAll, add_right_comm x, place_add _ y dx dy n,
      placeAll_add x y dx dy ns]

end

theorem place_eq_translate (x y : ℚ) (n : Node ℚ α) :
    place x y n = (place 0 0 n).translate x y := by
  rw [← place_add, zero_add, zero_add]

theorem translate_offset (dx dy o : ℚ) (n : Node ℚ α) :
    { n with offset := o }.translate dx dy = { n.translate dx dy with offset := o } := by
  cases n
  rw [Node.translate, Node.translate]

/-- In exact numbers a part of a laid out tree is the layout of that part, moved to its place. -/
theorem at?_layout_exact {path : List Nat} {n k : Node ℚ α} (h : n.at? path = some k) :
    ∃ m, n.layout.at? path = some m ∧
      m = { k.layout.translate m.x m.y with offset := m.offset } := by
  obtain ⟨x, y, o, hm⟩ := at?_layout h
  refine ⟨_, hm, ?_⟩
  have hy : (place x y { (arrange k).1 with offset := o }).y = y := by rw [place_eq]
  have ho : (place x y { (arrange k).1 with offset := o }).offset = o := by rw [place_eq]
  rw [place_x, hy, ho, place_eq_translate, place_offset, translate_offset, Node.layout,
    Exact.scalar_zero]

/-- A layout forgets all earlier ones, in rounded numbers too, and in exact numbers it is made of
the layouts of its parts. -/
theorem layout_anew :
    (∀ (S : Type) [Scalar S] (n : Node S α),
      n.layout = { n.fresh.layout with offset := n.offset } ∧
      n.layout.layout = n.layout ∧
      ∀ additions, (n.layout.grow additions).layout = (n.grow additions).layout) ∧
    ∀ (n k : Node ℚ α) (path : List Nat), n.at? path = some k →
      ∃ m, n.layout.at? path = some m ∧
        m = { k.layout.translate m.x m.y with offset := m.offset } :=
  ⟨fun _ _ n => ⟨layout_eq_fresh n, layout_layout n, fun additions => layout_grow additions n⟩,
    fun _ _ _ h => at?_layout_exact h⟩

theorem layout_anew_cousins : ∃ k m : Node ℚ Nat,
    (cousins.map Binary32.exact).at? [1] = some k ∧ k.layout.children.map (·.x) = [-55 / 4, 55 / 4] ∧
    (cousins.map Binary32.exact).layout.at? [1] = some m ∧ (m.x, m.y) = (225 / 8, 10) ∧
    m = { k.layout.translate m.x m.y with offset := m.offset } := by
  have hk : ∃ k, (cousins.map Binary32.exact).at? [1] = some k ∧
      k.layout.children.map (·.x) = [-55 / 4, 55 / 4] := ⟨_, rfl, by decide +kernel⟩
  obtain ⟨k, hk, hx⟩ := hk
  obtain ⟨m, hm, he⟩ := layout_anew.2 _ k [1] hk
  have hp : ((cousins.map Binary32.exact).layout.at? [1]).map (fun m => (m.x, m.y)) =
      some (225 / 8, 10) := by decide +kernel
  rw [hm] at hp
  exact ⟨k, m, hk, hx, hm, Option.some.inj hp, he⟩

end Tidy

end Pedigree
