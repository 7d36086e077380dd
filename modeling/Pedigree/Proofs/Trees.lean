import Pedigree.Drawing.Subtree

/-! From a branch to its drawing nobody is lost: the nodes that are sized, arranged and placed are
the persons of the branch in order, as deep as the branch has them, and so are the persons that are
drawn. -/
namespace Pedigree

open Checked

namespace Tidy

variable {S α : Type}

/-- What a node is about; its place is left out. -/
def Node.label (n : Node S α) : α × S × S := (n.payload, n.width, n.height)

theorem walk_eq (n : Node S α) : n.walk = n :: Node.walkAll n.children := by
  cases n
  rw [Node.walk]

mutual

/-- What the nodes of a tree are about, in the order of the walk and each with its depth; the root
has the given one. -/
def Node.ranks (d : Nat) : Node S α → List (Nat × α × S × S)
  | ⟨payload, width, height, _, _, _, children⟩ =>
    (d, payload, width, height) :: Node.ranksAll (d + 1) children

def Node.ranksAll (d : Nat) : List (Node S α) → List (Nat × α × S × S)
  | [] => []
  | n :: ns => Node.ranks d n ++ Node.ranksAll d ns

end

/-- The ranks of nodes that hang under each other. -/
def Node.ranksChain (d : Nat) : List (Node S α) → List (Nat × α × S × S)
  | [] => []
  | n :: ns => n.ranks d ++ Node.ranksChain (d + 1) ns

theorem ranks_eq (n : Node S α) (d : Nat) :
    n.ranks d = (d, n.label) :: Node.ranksAll (d + 1) n.children := by
  cases n
  rw [Node.ranks]
  rfl

theorem ranksAll_append (ms ns : List (Node S α)) (d : Nat) :
    Node.ranksAll d (ms ++ ns) = Node.ranksAll d ms ++ Node.ranksAll d ns := by
  induction ms with
  | nil => rfl
  | cons m ms ih => rw [List.cons_append, Node.ranksAll, Node.ranksAll, ih, List.append_assoc]

theorem ranks_offset (n : Node S α) (o : S) (d : Nat) :
    { n with offset := o }.ranks d = n.ranks d := by
  rw [ranks_eq, ranks_eq n]
  rfl

theorem ranksAll_offset (ns : List (Node S α)) (offset : Node S α → S) (d : Nat) :
    Node.ranksAll d (ns.map fun n => { n with offset := offset n }) = Node.ranksAll d ns := by
  induction ns with
  | nil => rfl
  | cons n ns ih => rw [List.map_cons, Node.ranksAll, Node.ranksAll, ih, ranks_offset]

mutual

theorem labels_ranks (d : Nat) : (n : Node S α) → (n.ranks d).map (·.2) = n.walk.map Node.label
  | ⟨payload, width, height, x, y, offset, children⟩ => by
    rw [Node.ranks, walk_eq, List.map_cons, List.map_cons, labels_ranksAll (d + 1) children]
    rfl

theorem labels_ranksAll (d : Nat) : (ns : List (Node S α)) →
    (Node.ranksAll d ns).map (·.2) = (Node.walkAll ns).map Node.label
  | [] => by rw [Node.ranksAll, Node.walkAll]; rfl
  | n :: ns => by
    rw [Node.ranksAll, Node.walkAll, List.map_append, List.map_append, labels_ranks d n,
      labels_ranksAll d ns]

end

mutual

def Node.levels : Node S α → Nat
  | ⟨_, _, _, _, _, _, children⟩ => Node.levelsAll children + 1

def Node.levelsAll : List (Node S α) → Nat
  | [] => 0
  | n :: ns => max (Node.levels n) (Node.levelsAll ns)

end

mutual

theorem lt_levels {d : Nat} {e : Nat × α × S × S} : (n : Node S α) → e ∈ n.ranks d →
    e.1 < d + n.levels
  | ⟨payload, width, height, x, y, offset, children⟩, he => by
    rw [Node.ranks] at he
    rw [Node.levels]
    cases List.mem_cons.1 he with
    | inl he => subst he; exact Nat.lt_add_of_pos_right (Nat.succ_pos _)
    | inr he =>
      have := lt_levelsAll children he
      omega

theorem lt_levelsAll {d : Nat} {e : Nat × α × S × S} : (ns : List (Node S α)) →
    e ∈ Node.ranksAll d ns → e.1 < d + Node.levelsAll ns
  | [], he => by rw [Node.ranksAll] at he; cases he
  | n :: ns, he => by
    rw [Node.ranksAll] at he
    rw [Node.levelsAll]
    cases List.mem_append.1 he with
    | inl he =>
      have := lt_levels n he
      omega
    | inr he =>
      have := lt_levelsAll ns he
      omega

end

mutual

/-- At each depth of a tree there is a node. -/
theorem exists_rank {d i : Nat} : (n : Node S α) → i < n.levels → ∃ e ∈ n.ranks d, e.1 = d + i
  | ⟨payload, width, height, x, y, offset, children⟩, hi => by
    rw [Node.levels] at hi
    rw [Node.ranks]
    cases i with
    | zero => exact ⟨_, List.mem_cons_self, rfl⟩
    | succ i =>
      obtain ⟨e, he, hd⟩ := exists_rankAll children (Nat.lt_of_succ_lt_succ hi)
      exact ⟨e, List.mem_cons_of_mem _ he, by omega⟩

theorem exists_rankAll {d i : Nat} : (ns : List (Node S α)) → i < Node.levelsAll ns →
    ∃ e ∈ Node.ranksAll d ns, e.1 = d + i
  | [], hi => by rw [Node.levelsAll] at hi; cases hi
  | n :: ns, hi => by
    rw [Node.levelsAll] at hi
    rw [Node.ranksAll]
    by_cases hn : i < n.levels
    · obtain ⟨e, he, hd⟩ := exists_rank n hn
      exact ⟨e, List.mem_append_left _ he, hd⟩
    · have hns : i < Node.levelsAll ns := by omega
      obtain ⟨e, he, hd⟩ := exists_rankAll ns hns
      exact ⟨e, List.mem_append_right _ he, hd⟩

end

theorem levels_le_of_ranks {m n : Node S α} (h : m.ranks 0 = n.ranks 0) : m.levels ≤ n.levels := by
  refine Nat.le_of_not_lt fun hlt => ?_
  obtain ⟨e, he, hd⟩ := exists_rank (d := 0) m hlt
  have := lt_levels n (h ▸ he)
  omega

theorem levels_eq_of_ranks {m n : Node S α} (h : m.ranks 0 = n.ranks 0) : m.levels = n.levels :=
  Nat.le_antisymm (levels_le_of_ranks h) (levels_le_of_ranks h.symm)

theorem levels_offset (n : Node S α) (o : S) : { n with offset := o }.levels = n.levels :=
  levels_eq_of_ranks (ranks_offset n o 0)

variable [Scalar S]

mutual

theorem ranks_arrange (d : Nat) : (n : Node S α) → (arrange n).1.ranks d = n.ranks d
  | ⟨payload, width, height, x, y, offset, children⟩ => by
    rw [arrange, ranks_eq, Node.ranks]
    dsimp only
    rw [ranksAll_offset, ranksAll_arrangeAll]
    rfl

theorem ranksAll_arrangeAll (others : Contour S) (d : Nat) : (ns : List (Node S α)) →
    Node.ranksAll d (arrangeAll others ns).1 = Node.ranksAll d ns
  | [] => by rw [arrangeAll]
  | n :: ns => by
    rw [arrangeAll]
    dsimp only
    rw [Node.ranksAll, Node.ranksAll, ranksAll_arrangeAll _ d ns, ranks_offset, ranks_arrange d n]

end

mutual

theorem ranks_place (x y : S) (d : Nat) : (n : Node S α) → (place x y n).ranks d = n.ranks d
  | ⟨payload, width, height, _, _, offset, children⟩ => by
    rw [place, Node.ranks, Node.ranks, ranksAll_placeAll]

theorem ranksAll_placeAll (x y : S) (d : Nat) : (ns : List (Node S α)) →
    Node.ranksAll d (placeAll x y ns) = Node.ranksAll d ns
  | [] => by rw [placeAll]
  | n :: ns => by
    rw [placeAll, Node.ranksAll, Node.ranksAll, ranks_place _ _ d n, ranksAll_placeAll x y d ns]

end

theorem labels_layout (n : Node S α) : n.layout.walk.map Node.label = n.walk.map Node.label := by
  rw [← labels_ranks 0, ← labels_ranks 0, Node.layout, ranks_place, ranks_arrange]

/-- The top of the nodes at a depth where all nodes have one height: it is added again and again,
once for each level. -/
def topAt (h : S) : Nat → S
  | 0 => Scalar.zero
  | d + 1 => topAt h d + h

mutual

theorem tops_place {h : S} (x : S) (d : Nat) : (n : Node S α) → (∀ m ∈ n.walk, m.height = h) →
    (place x (topAt h d) n).walk.map (fun m => (m.label, m.y)) =
      (n.ranks d).map fun e => (e.2, topAt h e.1)
  | ⟨payload, width, height, x', y', offset, children⟩, hn => by
    rw [walk_eq, List.forall_mem_cons] at hn
    have hh : height = h := hn.1
    rw [place, walk_eq, Node.ranks, List.map_cons, List.map_cons, hh,
      ← tops_placeAll x (d + 1) children hn.2]
    rfl

theorem tops_placeAll {h : S} (x : S) (d : Nat) : (ns : List (Node S α)) →
    (∀ m ∈ Node.walkAll ns, m.height = h) →
      (Node.walkAll (placeAll x (topAt h d) ns)).map (fun m => (m.label, m.y)) =
        (Node.ranksAll d ns).map fun e => (e.2, topAt h e.1)
  | [], _ => by rw [placeAll, Node.walkAll, Node.ranksAll]; rfl
  | n :: ns, hn => by
    rw [Node.walkAll, List.forall_mem_append] at hn
    rw [placeAll, Node.walkAll, Node.ranksAll, List.map_append, List.map_append,
      tops_place (x + n.offset) d n hn.1, tops_placeAll x d ns hn.2]

end

theorem height_of_mem_arrange {h : S} {n : Node S α} (hn : ∀ m ∈ n.walk, m.height = h) :
    ∀ m ∈ (arrange n).1.walk, m.height = h := by
  intro m hm
  have hl : m.label ∈ n.walk.map Node.label := by
    rw [← labels_ranks 0, ← ranks_arrange, labels_ranks]
    exact List.mem_map_of_mem hm
  obtain ⟨m', hm', he⟩ := List.mem_map.1 hl
  rw [← hn m' hm']
  exact (congrArg (·.2.2) he).symm

/-- Where all nodes have one height, their tops tell how deep they are. -/
theorem tops_layout {h : S} {n : Node S α} (hn : ∀ m ∈ n.walk, m.height = h) :
    n.layout.walk.map (fun m => (m.label, m.y)) =
      (n.ranks 0).map fun e => (e.2, topAt h e.1) := by
  rw [← ranks_arrange 0 n]
  exact tops_place Scalar.zero 0 _ (height_of_mem_arrange hn)

theorem exists_top {h : S} {n : Node S α} (hn : ∀ m ∈ n.walk, m.height = h) {d : Nat}
    (hd : d < n.levels) : ∃ m ∈ n.layout.walk, m.y = topAt h d := by
  obtain ⟨e, he, hed⟩ := exists_rank n hd
  have hm : (e.2, topAt h e.1) ∈ n.layout.walk.map fun m => (m.label, m.y) := by
    rw [tops_layout hn]
    exact List.mem_map_of_mem he
  obtain ⟨m, hm, heq⟩ := List.mem_map.1 hm
  rw [Nat.zero_add] at hed
  exact ⟨m, hm, hed ▸ congrArg (·.2) heq⟩

theorem top_of_mem_layout {P : Nat → S → Prop} {h : S} (zero : P 0 Scalar.zero)
    (below : ∀ d y, P d y → P (d + 1) (y + h)) {n : Node S α} (hn : ∀ m ∈ n.walk, m.height = h) :
    ∀ m ∈ n.layout.walk, ∃ d < n.levels, P d m.y := by
  have top (d : Nat) : P d (topAt h d) := by
    induction d with
    | zero => exact zero
    | succ d ih => exact below d _ ih
  intro m hm
  have hl := List.mem_map_of_mem (f := fun m => (m.label, m.y)) hm
  rw [tops_layout hn] at hl
  obtain ⟨e, he, heq⟩ := List.mem_map.1 hl
  have hy : topAt h e.1 = m.y := congrArg (·.2) heq
  exact ⟨e.1, by simpa using lt_levels n he, hy ▸ top e.1⟩

end Tidy

mutual

/-- Numbers and labels of the persons of a branch, whoever opens a union before the union. -/
def Branch.people : Branch → List (Nat × String)
  | .node index label _ bonds => (index, label) :: peopleOfBonds bonds

def peopleOfBonds : List Bond → List (Nat × String)
  | [] => []
  | ⟨partners, children⟩ :: bonds =>
    peopleOfAll partners ++ peopleOfAll children ++ peopleOfBonds bonds

def peopleOfAll : List Branch → List (Nat × String)
  | [] => []
  | b :: bs => Branch.people b ++ peopleOfAll bs

end

/-- The numbers of the persons of a branch. -/
def Branch.numbers (b : Branch) : List Nat := b.people.map (·.1)

mutual

/-- The people of a branch, each with its depth in the tree that is sized: partners stand one below the
other, and children below the last of them. -/
def Branch.ranks (d : Nat) : Branch → List (Nat × Nat × String)
  | .node index label _ bonds => (d, index, label) :: ranksOfBonds (d + 1) bonds

def ranksOfBonds (d : Nat) : List Bond → List (Nat × Nat × String)
  | [] => []
  | ⟨partners, children⟩ :: bonds => ranksOfChain d partners ++
      ranksOfAll (d + partners.length) children ++ ranksOfBonds d bonds

def ranksOfChain (d : Nat) : List Branch → List (Nat × Nat × String)
  | [] => []
  | b :: bs => Branch.ranks d b ++ ranksOfChain (d + 1) bs

def ranksOfAll (d : Nat) : List Branch → List (Nat × Nat × String)
  | [] => []
  | b :: bs => Branch.ranks d b ++ ranksOfAll d bs

end

mutual

theorem people_of_ranks (d : Nat) : (b : Branch) → (b.ranks d).map (·.2) = b.people
  | .node index label member bonds => by
    rw [Branch.ranks, Branch.people, List.map_cons, people_of_ranksOfBonds (d + 1) bonds]

theorem people_of_ranksOfBonds (d : Nat) : (bonds : List Bond) →
    (ranksOfBonds d bonds).map (·.2) = peopleOfBonds bonds
  | [] => by rw [ranksOfBonds, peopleOfBonds]; rfl
  | ⟨partners, children⟩ :: bonds => by
    rw [ranksOfBonds, peopleOfBonds, List.map_append, List.map_append,
      people_of_ranksOfChain d partners, people_of_ranksOfAll _ children,
      people_of_ranksOfBonds d bonds]

theorem people_of_ranksOfChain (d : Nat) : (bs : List Branch) →
    (ranksOfChain d bs).map (·.2) = peopleOfAll bs
  | [] => by rw [ranksOfChain, peopleOfAll]; rfl
  | b :: bs => by
    rw [ranksOfChain, peopleOfAll, List.map_append, people_of_ranks d b,
      people_of_ranksOfChain (d + 1) bs]

theorem people_of_ranksOfAll (d : Nat) : (bs : List Branch) →
    (ranksOfAll d bs).map (·.2) = peopleOfAll bs
  | [] => by rw [ranksOfAll, peopleOfAll]; rfl
  | b :: bs => by
    rw [ranksOfAll, peopleOfAll, List.map_append, people_of_ranks d b,
      people_of_ranksOfAll d bs]

end

namespace Subtree

open Drawing Tidy

variable {S : Type}

/-- Hanging nodes under each other keeps their order and puts each a level deeper. -/
theorem ranks_chain (d : Nat) (partners below : List (Node S Nat)) :
    Node.ranksAll d (chain partners below) =
      Node.ranksChain d partners ++ Node.ranksAll (d + partners.length) below := by
  induction partners generalizing d with
  | nil => rfl
  | cons p ps ih =>
    have hc : chain (p :: ps) below = [p.append (chain ps below)] := rfl
    have hl : d + (p :: ps).length = d + 1 + ps.length := by
      rw [List.length_cons]
      omega
    rw [hc, Node.ranksAll, Node.ranksAll, List.append_nil, ranks_eq, Node.append, ranksAll_append,
      ih, Node.ranksChain, ranks_eq p, List.cons_append, List.cons_append, List.append_assoc, hl]
    rfl

variable [Scalar S]

theorem length_sizingAll (style : Style S) (ratio : S) (bs : List Branch) :
    (sizingAll style ratio bs).length = bs.length := by
  induction bs with
  | nil => rfl
  | cons b bs ih => rw [sizingAll, List.length_cons, List.length_cons, ih]

/-- The rank of a person as that of a node. -/
def sizedRank (style : Style S) (ratio : S) (e : Nat × Nat × String) : Nat × Nat × S × S :=
  (e.1, e.2.1, style.nodeWidth ratio e.2.2.length, style.nodeHeight)

mutual

theorem ranks_sizing (style : Style S) (ratio : S) (d : Nat) : (b : Branch) →
    (sizing style ratio b).ranks d = (b.ranks d).map (sizedRank style ratio)
  | .node index label member bonds => by
    rw [sizing, Node.make, Node.ranks, Branch.ranks, List.map_cons,
      ranks_sizingBonds style ratio (d + 1) bonds]
    rfl

theorem ranks_sizingBonds (style : Style S) (ratio : S) (d : Nat) : (bonds : List Bond) →
    Node.ranksAll d (sizingBonds style ratio bonds) =
      (ranksOfBonds d bonds).map (sizedRank style ratio)
  | [] => by rw [sizingBonds, Node.ranksAll, ranksOfBonds]; rfl
  | ⟨partners, children⟩ :: bonds => by
    rw [sizingBonds, ranksAll_append, ranks_chain, length_sizingAll, ranksOfBonds, List.map_append,
      List.map_append, ranksChain_sizingAll style ratio d partners,
      ranks_sizingAll style ratio _ children, ranks_sizingBonds style ratio d bonds]

theorem ranksChain_sizingAll (style : Style S) (ratio : S) (d : Nat) : (bs : List Branch) →
    Node.ranksChain d (sizingAll style ratio bs) =
      (ranksOfChain d bs).map (sizedRank style ratio)
  | [] => by rw [sizingAll, Node.ranksChain, ranksOfChain]; rfl
  | b :: bs => by
    rw [sizingAll, Node.ranksChain, ranksOfChain, List.map_append, ranks_sizing style ratio d b,
      ranksChain_sizingAll style ratio (d + 1) bs]

theorem ranks_sizingAll (style : Style S) (ratio : S) (d : Nat) : (bs : List Branch) →
    Node.ranksAll d (sizingAll style ratio bs) = (ranksOfAll d bs).map (sizedRank style ratio)
  | [] => by rw [sizingAll, Node.ranksAll, ranksOfAll]; rfl
  | b :: bs => by
    rw [sizingAll, Node.ranksAll, ranksOfAll, List.map_append, ranks_sizing style ratio d b,
      ranks_sizingAll style ratio d bs]

end

theorem labels_sizing (style : Style S) (ratio : S) (b : Branch) :
    (sizing style ratio b).walk.map Node.label =
      b.people.map fun p => (p.1, style.nodeWidth ratio p.2.length, style.nodeHeight) := by
  rw [← labels_ranks 0, ranks_sizing, ← people_of_ranks 0, List.map_map, List.map_map]
  rfl

theorem walkAll_append_persons (ps qs : List Person) :
    Person.walkAll (ps ++ qs) = Person.walkAll ps ++ Person.walkAll qs := by
  induction ps with
  | nil => rfl
  | cons p ps ih => rw [List.cons_append, Person.walkAll, Person.walkAll, ih, List.append_assoc]

def placedBox (boxes : List (Nat × Rect)) (left : Int) (index : Nat) : Rect :=
  let box := (boxes.lookup index).getD default
  { box with x := box.x + -left }

mutual

theorem rects_draw (boxes : List (Nat × Rect)) (left : Int) (partner : Bool) : (b : Branch) →
    (draw boxes left partner b).value.walk.map (·.rect) =
      b.people.map fun p => placedBox boxes left p.1
  | .node index label member bonds => by
    rw [draw, Branch.people]
    simp only [value_bind, value_pure, Rect.value_translate, value_neg]
    rw [Person.walk, List.map_cons, List.map_cons, rects_drawBonds boxes left bonds]
    simp only [placedBox, Int.add_zero]

theorem rects_drawBonds (boxes : List (Nat × Rect)) (left : Int) : (bonds : List Bond) →
    (Person.walkAll (drawBonds boxes left bonds).value).map (·.rect) =
      (peopleOfBonds bonds).map fun p => placedBox boxes left p.1
  | [] => by rw [drawBonds, peopleOfBonds]; rfl
  | ⟨partners, children⟩ :: bonds => by
    rw [drawBonds, peopleOfBonds]
    simp only [value_bind, value_pure]
    rw [walkAll_append_persons, walkAll_append_persons]
    simp only [List.map_append]
    rw [rects_drawAll boxes left true partners, rects_drawAll boxes left false children,
      rects_drawBonds boxes left bonds]

theorem rects_drawAll (boxes : List (Nat × Rect)) (left : Int) (partner : Bool) :
    (bs : List Branch) → (Person.walkAll (drawAll boxes left partner bs).value).map (·.rect) =
      (peopleOfAll bs).map fun p => placedBox boxes left p.1
  | [] => by rw [drawAll, peopleOfAll]; rfl
  | b :: bs => by
    rw [drawAll, peopleOfAll]
    simp only [value_bind, value_pure]
    rw [Person.walkAll, List.map_append, List.map_append, rects_draw boxes left partner b,
      rects_drawAll boxes left partner bs]

end

end Subtree

end Pedigree
