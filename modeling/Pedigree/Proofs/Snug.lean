import Pedigree.Proofs.Siblings
import Mathlib.Order.Bounds.Basic

/-! Trees that are laid out in exact numbers are tight. The contour of a subtree goes as far as one
of its nodes at every depth and side, so a sibling that is moved until the contours clear each other
touches one of those before it. -/
namespace Pedigree

namespace Tidy

/-! ### Contours that go no further than they have to -/

/-- A contour around spots, with a spot at each of its ends. -/
structure Hugs (p : Contour ℚ) (ss : List Spot) : Prop where
  reaches : ∀ s ∈ ss, Reaches p s
  left : ∀ d e, p[d]? = some e → ∃ s ∈ ss, s.depth = d ∧ s.left = e.1
  right : ∀ d e, p[d]? = some e → ∃ s ∈ ss, s.depth = d ∧ s.right = e.2

section Contours

variable {p q : Contour ℚ} {us ss : List Spot}

theorem getElem?_join (p q : Contour ℚ) (i : Nat) : (Contour.join p q)[i]? =
    match p[i]?, q[i]? with
    | some a, some b => some (min a.1 b.1, max a.2 b.2)
    | some a, none => some a
    | none, b => b := by
  induction p generalizing q i with
  | nil => simp [Contour.join]
  | cons a p ih =>
    cases q with
    | nil => cases h : (a :: p)[i]? <;> simp [Contour.join, h]
    | cons b q =>
      cases i with
      | zero => simp [Contour.join]
      | succ i => simpa [Contour.join] using ih q i

/-- An end of joined contours is an end of one of them. -/
theorem ends_join {d : Nat} {e : ℚ × ℚ} (he : (Contour.join p q)[d]? = some e) :
    (∃ a, (p[d]? = some a ∨ q[d]? = some a) ∧ a.1 = e.1) ∧
      ∃ a, (p[d]? = some a ∨ q[d]? = some a) ∧ a.2 = e.2 := by
  rw [getElem?_join] at he
  cases hp : p[d]? with
  | none =>
    rw [hp] at he
    exact ⟨⟨e, .inr he, rfl⟩, e, .inr he, rfl⟩
  | some a =>
    cases hq : q[d]? with
    | none =>
      rw [hp, hq] at he
      exact ⟨⟨e, .inl he, rfl⟩, e, .inl he, rfl⟩
    | some b =>
      rw [hp, hq] at he
      cases he
      constructor
      · obtain h | h := min_choice a.1 b.1
        · exact ⟨a, .inl rfl, h.symm⟩
        · exact ⟨b, .inr rfl, h.symm⟩
      · obtain h | h := max_choice a.2 b.2
        · exact ⟨a, .inl rfl, h.symm⟩
        · exact ⟨b, .inr rfl, h.symm⟩

theorem Hugs.join (hp : Hugs p us) (hq : Hugs q ss) : Hugs (Contour.join p q) (us ++ ss) := by
  constructor
  · intro s hs
    exact .join ((List.mem_append.mp hs).imp (hp.reaches s) (hq.reaches s))
  · intro d e he
    obtain ⟨⟨a, ha | ha, hae⟩, -⟩ := ends_join he
    · obtain ⟨s, hs, hd, hl⟩ := hp.left d a ha
      exact ⟨s, List.mem_append_left _ hs, hd, hl.trans hae⟩
    · obtain ⟨s, hs, hd, hl⟩ := hq.left d a ha
      exact ⟨s, List.mem_append_right _ hs, hd, hl.trans hae⟩
  · intro d e he
    obtain ⟨-, a, ha | ha, hae⟩ := ends_join he
    · obtain ⟨s, hs, hd, hr⟩ := hp.right d a ha
      exact ⟨s, List.mem_append_left _ hs, hd, hr.trans hae⟩
    · obtain ⟨s, hs, hd, hr⟩ := hq.right d a ha
      exact ⟨s, List.mem_append_right _ hs, hd, hr.trans hae⟩

theorem Hugs.shift (h : Hugs p ss) (by_ : ℚ) :
    Hugs (Contour.shift by_ p) (ss.map (Spot.shift by_)) := by
  have hget {d : Nat} {e : ℚ × ℚ} (he : (Contour.shift by_ p)[d]? = some e) :
      ∃ a, p[d]? = some a ∧ (a.1 + by_, a.2 + by_) = e := by
    simpa [Contour.shift] using he
  constructor
  · rw [List.forall_mem_map]
    exact fun s hs => (h.reaches s hs).shift by_
  · intro d e he
    obtain ⟨a, ha, rfl⟩ := hget he
    obtain ⟨s, hs, hd, hl⟩ := h.left d a ha
    exact ⟨_, List.mem_map_of_mem hs, hd, congrArg (· + by_) hl⟩
  · intro d e he
    obtain ⟨a, ha, rfl⟩ := hget he
    obtain ⟨s, hs, hd, hr⟩ := h.right d a ha
    exact ⟨_, List.mem_map_of_mem hs, hd, congrArg (· + by_) hr⟩

/-- What is left of the first spots and right of the second ones is the same place, at a depth. -/
def Touches (us ss : List Spot) : Prop :=
  ∃ u ∈ us, ∃ s ∈ ss, u.depth = s.depth ∧ u.right = s.left ∧
    (∀ v ∈ us, v.depth = u.depth → v.right ≤ u.right) ∧
      ∀ v ∈ ss, v.depth = s.depth → s.left ≤ v.left

theorem Touches.shift (h : Touches us ss) (by_ : ℚ) :
    Touches (us.map (Spot.shift by_)) (ss.map (Spot.shift by_)) := by
  obtain ⟨u, hu, s, hs, hd, he, hmax, hmin⟩ := h
  refine ⟨_, List.mem_map_of_mem hu, _, List.mem_map_of_mem hs, hd, ?_, ?_, ?_⟩
  · exact congrArg (· + by_) he
  · rw [List.forall_mem_map]
    exact fun v hv hd => add_le_add_left (hmax v hv hd) by_
  · rw [List.forall_mem_map]
    exact fun v hv hd => add_le_add_left (hmin v hv hd) by_

theorem greatest_mem {qs : List ℚ} (h : qs ≠ []) : Scalar.greatest qs ∈ qs := by
  have hfold (ps : List ℚ) (a : ℚ) : ps.foldl max a ∈ a :: ps := by
    induction ps generalizing a with
    | nil => exact List.mem_singleton_self a
    | cons p ps ih =>
      obtain h | h := List.mem_cons.mp (ih (max a p))
      · obtain hm | hm := max_choice a p
        · exact List.mem_cons.mpr (.inl (h.trans hm))
        · exact List.mem_cons_of_mem _ (List.mem_cons.mpr (.inl (h.trans hm)))
      · exact List.mem_cons_of_mem _ (List.mem_cons_of_mem _ h)
  cases qs with
  | nil => exact absurd rfl h
  | cons p ps => exact hfold ps p

/-- What is moved by the clearance touches the others. -/
theorem touches_clearance (hp : Hugs p us) (hq : Hugs q ss) (hne : p ≠ []) (hne' : q ≠ []) :
    Touches us (ss.map (Spot.shift (clearance p q))) := by
  have hz : List.zipWith (fun o c => o.2 - c.1) p q ≠ [] := by
    simp [List.zipWith_eq_nil_iff, hne, hne']
  have hc : clearance p q = Scalar.greatest (List.zipWith (fun o c => o.2 - c.1) p q) := by
    simp [clearance, hne]
  obtain ⟨d, hd⟩ := List.mem_iff_getElem?.mp (greatest_mem hz)
  rw [← hc, List.getElem?_zipWith_eq_some] at hd
  obtain ⟨o, e, ho, he, hoe⟩ := hd
  obtain ⟨u, hu, hud, hur⟩ := hp.right d o ho
  obtain ⟨s, hs, hsd, hsl⟩ := hq.left d e he
  refine ⟨u, hu, _, List.mem_map_of_mem hs, hud.trans hsd.symm, ?_, ?_, ?_⟩
  · rw [Spot.shift, hur, hsl, ← hoe]
    ring
  · intro v hv hvd
    obtain ⟨o', ho', -, hr⟩ := hp.reaches v hv
    rw [hvd, hud, ho] at ho'
    cases ho'
    exact hr.trans hur.ge
  · rw [List.forall_mem_map]
    intro v hv hvd
    obtain ⟨e', he', hl, -⟩ := hq.reaches v hv
    rw [show v.depth = d from hvd.trans hsd, he] at he'
    cases he'
    exact add_le_add_left (hsl.le.trans hl) _

end Contours

/-! ### Arranged trees -/

theorem Hugs.nil : Hugs [] [] := ⟨by simp, by simp, by simp⟩

theorem spots_ne_nil (n : Node ℚ α) : spots n ≠ [] := by
  cases n
  rw [spots]
  exact List.cons_ne_nil _ _

theorem Hugs.ne_nil {p : Contour ℚ} {ss : List Spot} (h : Hugs p ss) (hne : ss ≠ []) :
    p ≠ [] := by
  obtain ⟨s, hs⟩ := List.exists_mem_of_ne_nil ss hne
  obtain ⟨e, he, -⟩ := h.reaches s hs
  rintro rfl
  simp at he

mutual

theorem hugs_arrange : (n : Node ℚ α) → Hugs (arrange n).2 (spots (arrange n).1)
  | ⟨payload, width, height, x, y, offset, children⟩ => by
    have h := hugs_arrangeAll .nil children
    rw [arrange]
    generalize arrangeAll [] children = arranged at h
    obtain ⟨children, merged⟩ := arranged
    dsimp only [List.nil_append] at h ⊢
    rw [spots, spotsAll_offset]
    have hm := h.shift (-middle children)
    generalize (spotsAll children).map (Spot.shift (-middle children)) = ss at hm
    have hc : (List.map (fun e => (e.1 - middle children, e.2 - middle children)) merged) =
        Contour.shift (-middle children) merged := by
      simp [Contour.shift, sub_eq_add_neg]
    rw [hc]
    generalize Contour.shift (-middle children) merged = p at hm
    constructor
    · intro s hs
      obtain rfl | hs := List.mem_cons.mp hs
      · exact ⟨_, rfl, le_rfl, le_rfl⟩
      · obtain ⟨t, ht, rfl⟩ := List.mem_map.mp hs
        obtain ⟨e, he, hl, hr⟩ := hm.reaches t ht
        exact ⟨e, he, hl, hr⟩
    · intro d e he
      cases d with
      | zero =>
        cases he
        exact ⟨_, List.mem_cons_self, rfl, rfl⟩
      | succ d =>
        obtain ⟨s, hs, hd, hl⟩ := hm.left d e he
        exact ⟨_, List.mem_cons_of_mem _ (List.mem_map_of_mem hs), congrArg Nat.succ hd, hl⟩
    · intro d e he
      cases d with
      | zero =>
        cases he
        exact ⟨_, List.mem_cons_self, rfl, rfl⟩
      | succ d =>
        obtain ⟨s, hs, hd, hr⟩ := hm.right d e he
        exact ⟨_, List.mem_cons_of_mem _ (List.mem_map_of_mem hs), congrArg Nat.succ hd, hr⟩

theorem hugs_arrangeAll {others : Contour ℚ} {us : List Spot} (h : Hugs others us) :
    (ns : List (Node ℚ α)) →
      Hugs (arrangeAll others ns).2 (us ++ spotsAll (arrangeAll others ns).1)
  | [] => by
    rw [arrangeAll]
    simpa [spotsAll] using h
  | n :: ns => by
    have hn := (hugs_arrange n).shift (clearance others (arrange n).2)
    have hns := hugs_arrangeAll (h.join hn) ns
    rw [arrangeAll]
    dsimp only
    rw [spotsAll, spots_offset, ← List.append_assoc]
    exact hns

end

/-- Every sibling but the first touches one of those before it. -/
def Snug (ns : List (Node ℚ α)) : Prop :=
  ∀ before n after, ns = before ++ n :: after → before ≠ [] →
    Touches (spotsAll before) (spotsAll [n])

theorem spotsAll_singleton (n : Node ℚ α) : spotsAll [n] = (spots n).map (Spot.shift n.offset) := by
  rw [spotsAll, spotsAll, List.append_nil]

theorem touches_arrangeAll {others : Contour ℚ} {us : List Spot} (h : Hugs others us)
    (ns : List (Node ℚ α)) {before after : List (Node ℚ α)} {n : Node ℚ α}
    (hs : (arrangeAll others ns).1 = before ++ n :: after) (hne : us ++ spotsAll before ≠ []) :
    Touches (us ++ spotsAll before) (spotsAll [n]) := by
  induction ns generalizing others us before with
  | nil => simp [arrangeAll] at hs
  | cons m ns ih =>
    have hm := hugs_arrange m
    rw [arrangeAll] at hs
    dsimp only at hs
    cases before with
    | nil =>
      rw [List.nil_append] at hs
      obtain ⟨rfl, -⟩ := List.cons_eq_cons.mp hs
      rw [spotsAll, List.append_nil] at hne ⊢
      rw [spotsAll_singleton, spots_offset]
      exact touches_clearance h hm (h.ne_nil hne) (hm.ne_nil (spots_ne_nil _))
    | cons b before =>
      rw [List.cons_append] at hs
      obtain ⟨hb, hrest⟩ := List.cons_eq_cons.mp hs
      subst hb
      rw [spotsAll, spots_offset, ← List.append_assoc] at hne ⊢
      exact ih (h.join (hm.shift (clearance others (arrange m).2))) hrest hne

theorem snug_arrangeAll (ns : List (Node ℚ α)) : Snug (arrangeAll [] ns).1 := by
  intro before n after hs hne
  have h := touches_arrangeAll .nil ns hs
  rw [List.nil_append] at h
  apply h
  obtain ⟨b, before, rfl⟩ := List.exists_cons_of_ne_nil hne
  rw [spotsAll]
  simp [spots_ne_nil]

theorem Snug.shift {ns : List (Node ℚ α)} (h : Snug ns) (d : ℚ) :
    Snug (ns.map fun n => { n with offset := n.offset - d }) := by
  intro before n after hs hne
  obtain ⟨before, rest, rfl, rfl, hrest⟩ := List.map_eq_append_iff.mp hs
  obtain ⟨n, after, rfl, rfl, -⟩ := List.map_eq_cons_iff.mp hrest
  have ht := (h before n after rfl (by simpa using hne)).shift (-d)
  rw [← spotsAll_offset, ← spotsAll_offset] at ht
  exact ht

/-- The first and the last of some nodes stand equally far from the middle. -/
def Balanced (ns : List (Node ℚ α)) : Prop :=
  ∀ first ∈ ns.head?, ∀ last ∈ ns.getLast?, first.offset + last.offset = 0

theorem balanced_middle (ns : List (Node ℚ α)) :
    Balanced (ns.map fun n => { n with offset := n.offset - middle ns }) := by
  intro first hfirst last hlast
  rw [List.head?_map] at hfirst
  rw [List.getLast?_map] at hlast
  obtain ⟨a, ha, rfl⟩ := Option.map_eq_some_iff.mp hfirst
  obtain ⟨b, hb, rfl⟩ := Option.map_eq_some_iff.mp hlast
  have hm : middle ns = (a.offset + b.offset) / 2 := by
    simp [middle, ha, hb, offsetOf]
  dsimp only
  rw [hm]
  ring

theorem forall_walkAll_offset {P : List (Node ℚ α) → Prop} {ns : List (Node ℚ α)}
    (offset : Node ℚ α → ℚ) (h : ∀ m ∈ Node.walkAll ns, P m.children) :
    ∀ m ∈ Node.walkAll (ns.map fun n => { n with offset := offset n }), P m.children := by
  induction ns with
  | nil => exact h
  | cons n ns ih =>
    rw [Node.walkAll, walk_eq, List.cons_append, List.forall_mem_cons, List.forall_mem_append] at h
    rw [List.map_cons, Node.walkAll, walk_eq, List.cons_append, List.forall_mem_cons,
      List.forall_mem_append]
    exact ⟨h.1, h.2.1, ih h.2.2⟩

mutual

/-- Whoever has children in an arranged tree stands over their middle, and they are snug. -/
theorem arrange_snug : (n : Node ℚ α) →
    ∀ m ∈ (arrange n).1.walk, Balanced m.children ∧ Snug m.children
  | ⟨payload, width, height, x, y, offset, children⟩ => by
    have h := arrangeAll_snug [] children
    have hs := snug_arrangeAll children
    rw [arrange]
    generalize arrangeAll [] children = arranged at h hs
    obtain ⟨children, merged⟩ := arranged
    dsimp only at h hs ⊢
    rw [walk_eq, List.forall_mem_cons]
    exact ⟨⟨balanced_middle children, hs.shift _⟩,
      forall_walkAll_offset (P := fun ns => Balanced ns ∧ Snug ns) _ h⟩

theorem arrangeAll_snug (others : Contour ℚ) : (ns : List (Node ℚ α)) →
    ∀ m ∈ Node.walkAll (arrangeAll others ns).1, Balanced m.children ∧ Snug m.children
  | [] => by
    rw [arrangeAll, Node.walkAll]
    exact List.forall_mem_nil _
  | n :: ns => by
    rw [arrangeAll]
    dsimp only
    rw [Node.walkAll, walk_eq, List.cons_append, List.forall_mem_cons, List.forall_mem_append]
    have h := arrange_snug n
    rw [walk_eq, List.forall_mem_cons] at h
    exact ⟨h.1, h.2, arrangeAll_snug _ ns⟩

end

/-! ### Places -/

section Places

variable {S : Type} [Scalar S]

theorem placeAll_eq_map (x y : S) (ns : List (Node S α)) :
    placeAll x y ns = ns.map fun n => place (x + n.offset) y n := by
  induction ns with
  | nil => rfl
  | cons n ns ih => rw [placeAll, ih, List.map_cons]

theorem place_eq (x y : S) (n : Node S α) :
    place x y n = { n with x := x, y := y, children := placeAll x (y + n.height) n.children } := by
  cases n
  rw [place]

theorem place_x (x y : S) (n : Node S α) : (place x y n).x = x := by rw [place_eq]

mutual

/-- Whoever is in a placed tree has been placed. -/
theorem exists_of_mem_walk_place (x y : S) : (n : Node S α) → ∀ m ∈ (place x y n).walk,
    ∃ k ∈ n.walk, ∃ x y, m = place x y k
  | ⟨payload, width, height, x', y', offset, children⟩ => by
    rw [walk_eq, List.forall_mem_cons, walk_eq]
    refine ⟨⟨_, List.mem_cons_self, x, y, rfl⟩, fun m hm => ?_⟩
    rw [place_eq] at hm
    obtain ⟨k, hk, hm⟩ := exists_of_mem_walkAll_placeAll _ _ children m hm
    exact ⟨k, List.mem_cons_of_mem _ hk, hm⟩

theorem exists_of_mem_walkAll_placeAll (x y : S) : (ns : List (Node S α)) →
    ∀ m ∈ Node.walkAll (placeAll x y ns), ∃ k ∈ Node.walkAll ns, ∃ x y, m = place x y k
  | [] => List.forall_mem_nil _
  | n :: ns => by
    rw [placeAll, Node.walkAll, Node.walkAll, List.forall_mem_append]
    constructor
    · intro m hm
      obtain ⟨k, hk, hm⟩ := exists_of_mem_walk_place _ y n m hm
      exact ⟨k, List.mem_append_left _ hk, hm⟩
    · intro m hm
      obtain ⟨k, hk, hm⟩ := exists_of_mem_walkAll_placeAll x y ns m hm
      exact ⟨k, List.mem_append_right _ hk, hm⟩

end

end Places

mutual

/-- The nodes of a tree with their depths, parents first. -/
def Node.deep (d : Nat) : Node S α → List (Nat × Node S α)
  | ⟨payload, width, height, x, y, offset, children⟩ =>
    (d, ⟨payload, width, height, x, y, offset, children⟩) :: Node.deepAll (d + 1) children

def Node.deepAll (d : Nat) : List (Node S α) → List (Nat × Node S α)
  | [] => []
  | n :: ns => Node.deep d n ++ Node.deepAll d ns

end

/-- The depth of a node and its left and right end. -/
def ends (e : Nat × Node ℚ α) : Nat × ℚ × ℚ :=
  (e.1, e.2.x - e.2.width / 2, e.2.x + e.2.width / 2)

/-- The ends of what stands at a spot, seen from a place below which the spot is. -/
def Spot.ends (d : Nat) (x : ℚ) (s : Spot) : Nat × ℚ × ℚ := (d + s.depth, x + s.left, x + s.right)

mutual

theorem ends_place (d : Nat) (x y : ℚ) : (n : Node ℚ α) →
    ((place x y n).deep d).map ends = (spots n).map (Spot.ends d x)
  | ⟨payload, width, height, x', y', offset, children⟩ => by
    rw [place, Node.deep, spots, List.map_cons, List.map_cons, List.map_map,
      ends_placeAll (d + 1) x _ children]
    congr 1
    · simp [ends, Spot.ends, sub_eq_add_neg]
    · apply List.map_congr_left
      intro s _
      simp [Spot.ends, Spot.below]
      omega

theorem ends_placeAll (d : Nat) (x y : ℚ) : (ns : List (Node ℚ α)) →
    (Node.deepAll d (placeAll x y ns)).map ends = (spotsAll ns).map (Spot.ends d x)
  | [] => rfl
  | n :: ns => by
    rw [placeAll, Node.deepAll, spotsAll, List.map_append, List.map_append, List.map_map,
      ends_place d _ y n, ends_placeAll d x y ns]
    congr 1
    apply List.map_congr_left
    intro s _
    simp only [Spot.ends, Spot.shift, Function.comp_apply, Prod.mk.injEq, true_and]
    constructor <;> ring

end

/-- The left ends of the nodes of some trees at a depth. -/
def leftsAt (ns : List (Node ℚ α)) (d : Nat) : Set ℚ :=
  {q | ∃ m, (d, m) ∈ Node.deepAll 0 ns ∧ m.x - m.width / 2 = q}

def rightsAt (ns : List (Node ℚ α)) (d : Nat) : Set ℚ :=
  {q | ∃ m, (d, m) ∈ Node.deepAll 0 ns ∧ m.x + m.width / 2 = q}

theorem mem_ends_placeAll {x y : ℚ} {ns : List (Node ℚ α)} {d : Nat} {P : ℚ × ℚ → Prop} :
    (∃ m, (d, m) ∈ Node.deepAll 0 (placeAll x y ns) ∧ P (m.x - m.width / 2, m.x + m.width / 2)) ↔
      ∃ s ∈ spotsAll ns, s.depth = d ∧ P (x + s.left, x + s.right) := by
  have h : (∃ e ∈ (Node.deepAll 0 (placeAll x y ns)).map ends, e.1 = d ∧ P e.2) ↔
      ∃ e ∈ (spotsAll ns).map (Spot.ends 0 x), e.1 = d ∧ P e.2 := by
    rw [ends_placeAll]
  simpa [ends, Spot.ends] using h

theorem mem_leftsAt_placeAll {x y q : ℚ} {ns : List (Node ℚ α)} {d : Nat} :
    q ∈ leftsAt (placeAll x y ns) d ↔ ∃ s ∈ spotsAll ns, s.depth = d ∧ x + s.left = q :=
  mem_ends_placeAll (P := fun e => e.1 = q)

theorem mem_rightsAt_placeAll {x y q : ℚ} {ns : List (Node ℚ α)} {d : Nat} :
    q ∈ rightsAt (placeAll x y ns) d ↔ ∃ s ∈ spotsAll ns, s.depth = d ∧ x + s.right = q :=
  mem_ends_placeAll (P := fun e => e.2 = q)

/-- What a tree looks like that is laid out well: nodes of one depth stand apart in their order, a
parent stands over the middle between its first and its last child, children start where their
parent ends, and every sibling but the first touches one before it at some depth. -/
structure Node.Tidied (t : Node ℚ α) : Prop where
  apart : (t.deep 0).Pairwise fun a b =>
    a.1 = b.1 → a.2.x + a.2.width / 2 ≤ b.2.x - b.2.width / 2
  centred : ∀ m ∈ t.walk, ∀ first ∈ m.children.head?, ∀ last ∈ m.children.getLast?,
    m.x = (first.x + last.x) / 2
  joined : ∀ m ∈ t.walk, ∀ c ∈ m.children, c.y = m.y + m.height
  snug : ∀ m ∈ t.walk, ∀ before c after, m.children = before ++ c :: after → before ≠ [] →
    ∃ d q, IsLeast (leftsAt [c] d) q ∧ IsGreatest (rightsAt before d) q

theorem apart_layout (n : Node ℚ α) : (n.layout.deep 0).Pairwise fun a b =>
    a.1 = b.1 → a.2.x + a.2.width / 2 ≤ b.2.x - b.2.width / 2 := by
  have h : ((n.layout.deep 0).map ends).Pairwise fun a b => a.1 = b.1 → a.2.2 ≤ b.2.1 := by
    rw [Node.layout, Exact.scalar_zero, ends_place, List.pairwise_map]
    refine (settled_arrange n).2.imp fun {s t} hst hd => ?_
    simp only [Spot.ends, zero_add] at hd ⊢
    exact hst hd
  exact List.pairwise_map.mp h

theorem centred_place {x y : ℚ} {k : Node ℚ α} (h : Balanced k.children) :
    ∀ first ∈ (place x y k).children.head?, ∀ last ∈ (place x y k).children.getLast?,
      (place x y k).x = (first.x + last.x) / 2 := by
  intro first hfirst last hlast
  rw [place_eq, placeAll_eq_map] at hfirst hlast
  rw [List.head?_map] at hfirst
  rw [List.getLast?_map] at hlast
  obtain ⟨a, ha, rfl⟩ := Option.map_eq_some_iff.mp hfirst
  obtain ⟨b, hb, rfl⟩ := Option.map_eq_some_iff.mp hlast
  have hab := h a ha b hb
  rw [place_eq, place_eq, place_eq]
  dsimp only
  linarith

theorem snug_place {x y : ℚ} {k : Node ℚ α} (h : Snug k.children)
    {before after : List (Node ℚ α)} {c : Node ℚ α}
    (hs : (place x y k).children = before ++ c :: after) (hne : before ≠ []) :
    ∃ d q, IsLeast (leftsAt [c] d) q ∧ IsGreatest (rightsAt before d) q := by
  rw [place_eq, placeAll_eq_map] at hs
  dsimp only at hs
  obtain ⟨before, rest, hk, rfl, hrest⟩ := List.map_eq_append_iff.mp hs
  obtain ⟨c, after, rfl, rfl, -⟩ := List.map_eq_cons_iff.mp hrest
  obtain ⟨u, hu, s, hs, hd, he, hmax, hmin⟩ := h before c after hk (by simpa using hne)
  have hc : [place (x + c.offset) (y + k.height) c] = placeAll x (y + k.height) [c] := by
    rw [placeAll_eq_map, List.map_singleton]
  rw [hc, ← placeAll_eq_map]
  refine ⟨u.depth, x + u.right, ⟨?_, ?_⟩, ?_, ?_⟩
  · exact mem_leftsAt_placeAll.mpr ⟨s, hs, hd.symm, congrArg (x + ·) he.symm⟩
  · intro q hq
    obtain ⟨v, hv, hvd, rfl⟩ := mem_leftsAt_placeAll.mp hq
    exact add_le_add_right (he.le.trans (hmin v hv (hvd.trans hd))) x
  · exact mem_rightsAt_placeAll.mpr ⟨u, hu, rfl, rfl⟩
  · intro q hq
    obtain ⟨v, hv, hvd, rfl⟩ := mem_rightsAt_placeAll.mp hq
    exact add_le_add_right (hmax v hv hvd) x

theorem tidied_layout (n : Node ℚ α) : n.layout.Tidied := by
  have hplaced : ∀ m ∈ n.layout.walk, ∃ k ∈ (arrange n).1.walk, ∃ x y, m = place x y k :=
    exists_of_mem_walk_place _ _ _
  refine ⟨apart_layout n, ?_, ?_, ?_⟩
  · intro m hm
    obtain ⟨k, hk, x, y, rfl⟩ := hplaced m hm
    exact centred_place (arrange_snug n k hk).1
  · intro m hm
    obtain ⟨k, hk, x, y, rfl⟩ := hplaced m hm
    rw [place_eq, placeAll_eq_map]
    dsimp only
    rw [List.forall_mem_map]
    intro c _
    rw [place_eq]
  · intro m hm before c after hs hne
    obtain ⟨k, hk, x, y, rfl⟩ := hplaced m hm
    exact snug_place (arrange_snug n k hk).2 hs hne

/-! ### Single precision -/

mutual

theorem map_map (f : S → T) (g : T → U) : (n : Node S α) → (n.map f).map g = n.map (g ∘ f)
  | ⟨payload, width, height, x, y, offset, children⟩ => by
    rw [Node.map, Node.map, Node.map, mapAll_mapAll f g children]
    rfl

theorem mapAll_mapAll (f : S → T) (g : T → U) : (ns : List (Node S α)) →
    Node.mapAll g (Node.mapAll f ns) = Node.mapAll (g ∘ f) ns
  | [] => rfl
  | n :: ns => by rw [Node.mapAll, Node.mapAll, Node.mapAll, map_map f g n, mapAll_mapAll f g ns]

end

mutual

theorem map_id : (n : Node S α) → n.map id = n
  | ⟨payload, width, height, x, y, offset, children⟩ => by
    rw [Node.map, mapAll_id children]
    rfl

theorem mapAll_id : (ns : List (Node S α)) → Node.mapAll id ns = ns
  | [] => rfl
  | n :: ns => by rw [Node.mapAll, map_id n, mapAll_id ns]

end

mutual

theorem map_congr {f g : S → T} : (n : Node S α) →
    (∀ m ∈ n.walk, ∀ a ∈ [m.width, m.height, m.x, m.y, m.offset], f a = g a) → n.map f = n.map g
  | ⟨payload, width, height, x, y, offset, children⟩, h => by
    rw [walk_eq, List.forall_mem_cons] at h
    have hc := mapAll_congr children h.2
    simp only [List.forall_mem_cons] at h
    obtain ⟨⟨hw, hh, hx, hy, ho, -⟩, -⟩ := h
    rw [Node.map, Node.map, hc, hw, hh, hx, hy, ho]

theorem mapAll_congr {f g : S → T} : (ns : List (Node S α)) →
    (∀ m ∈ Node.walkAll ns, ∀ a ∈ [m.width, m.height, m.x, m.y, m.offset], f a = g a) →
      Node.mapAll f ns = Node.mapAll g ns
  | [], _ => rfl
  | n :: ns, h => by
    rw [Node.walkAll, List.forall_mem_append] at h
    rw [Node.mapAll, Node.mapAll, map_congr n h.1, mapAll_congr ns h.2]

end

/-- No operation rounds while a tree is laid out. -/
def Node.Unrounded (n : Node Binary32 α) : Prop :=
  ∀ m ∈ (n.map Watched.ofSingle).layout.walk,
    m.x.unrounded ∧ m.y.unrounded ∧ m.width.unrounded

instance (n : Node Binary32 α) : Decidable n.Unrounded :=
  inferInstanceAs (Decidable (∀ m ∈ (n.map Watched.ofSingle).layout.walk,
    m.x.unrounded ∧ m.y.unrounded ∧ m.width.unrounded))

theorem Watched.exact_single {a : Watched} (h : a.unrounded) : a.single.exact = a.exact := by
  rw [Binary32.exact, a.sound h]
  rfl

mutual

/-- A place that was not rounded is the sum of two numbers that were not. -/
theorem unrounded_offset_place (x y : Watched) : (n : Node Watched α) →
    ∀ m ∈ Node.walkAll (place x y n).children, m.x.unrounded → m.offset.unrounded
  | ⟨payload, width, height, x', y', offset, children⟩ => by
    rw [place]
    exact unrounded_offset_placeAll x (y + height) children

theorem unrounded_offset_placeAll (x y : Watched) : (ns : List (Node Watched α)) →
    ∀ m ∈ Node.walkAll (placeAll x y ns), m.x.unrounded → m.offset.unrounded
  | [] => List.forall_mem_nil _
  | n :: ns => by
    rw [placeAll, Node.walkAll, walk_eq, List.cons_append, List.forall_mem_cons,
      List.forall_mem_append]
    refine ⟨?_, unrounded_offset_place _ y n, unrounded_offset_placeAll x y ns⟩
    rw [place_eq]
    intro h
    exact (Bool.and_eq_true_iff.mp (Bool.and_eq_true_iff.mp h).1).2

end

theorem exact_single_of_height {n : Node Binary32 α} {m : Node Watched α}
    (hm : m ∈ (n.map Watched.ofSingle).layout.walk) : m.height.single.exact = m.height.exact := by
  have hl : m.label ∈ (n.map Watched.ofSingle).walk.map Node.label := by
    rw [← labels_layout]
    exact List.mem_map_of_mem hm
  rw [walk_map, List.map_map] at hl
  obtain ⟨k, -, hk⟩ := List.mem_map.mp hl
  have hh : m.height = Watched.ofSingle k.height := by
    cases k
    exact (congrArg (·.2.2) hk).symm
  rw [hh]
  rfl

theorem layout_offset (n : Node S α) [Scalar S] : n.layout.offset = n.offset := by
  cases n
  rw [Node.layout, place_eq, arrange]

theorem exact_single_of_offset {n : Node Binary32 α} (hu : n.Unrounded) {m : Node Watched α}
    (hm : m ∈ (n.map Watched.ofSingle).layout.walk) : m.offset.single.exact = m.offset.exact := by
  have hx := (hu m hm).1
  rw [walk_eq] at hm
  obtain rfl | hm := List.mem_cons.mp hm
  · rw [layout_offset, offset_map]
    rfl
  · exact Watched.exact_single (unrounded_offset_place _ _ _ m hm hx)

theorem single_layout (n : Node Binary32 α) :
    (n.map Watched.ofSingle).layout.map Watched.single = n.layout := by
  rw [← layout_map Watched.hom_single, map_map]
  exact congrArg Node.layout (map_id n)

/-- Where nothing rounds, a layout in single precision is the one in exact numbers. -/
theorem layout_exact {n : Node Binary32 α} (hu : n.Unrounded) :
    n.layout.map Binary32.exact = (n.map Binary32.exact).layout := by
  have hexact : (n.map Binary32.exact).layout =
      (n.map Watched.ofSingle).layout.map Watched.exact := by
    rw [← layout_map Watched.hom_exact, map_map]
    rfl
  rw [← single_layout, hexact, map_map]
  refine map_congr _ fun m hm => ?_
  obtain ⟨hx, hy, hw⟩ := hu m hm
  simp only [List.forall_mem_cons, List.not_mem_nil, false_imp_iff, implies_true, and_true]
  exact ⟨Watched.exact_single hw, exact_single_of_height hm, Watched.exact_single hx,
    Watched.exact_single hy, exact_single_of_offset hu hm⟩

theorem finite_of_unrounded {n : Node Binary32 α} (hu : n.Unrounded) :
    ∀ m ∈ n.layout.walk, m.x.toRat?.isSome ∧ m.y.toRat?.isSome ∧ m.width.toRat?.isSome := by
  rw [← single_layout, walk_map, List.forall_mem_map]
  intro m hm
  obtain ⟨hx, hy, hw⟩ := hu m hm
  have hfinite {a : Watched} (ha : a.unrounded) : a.single.toRat?.isSome := by
    rw [a.sound ha]
    rfl
  cases m
  exact ⟨hfinite hx, hfinite hy, hfinite hw⟩

/-- Layouts in exact numbers are tidy, and so are those in single precision that do not round. -/
theorem layout_tidied : (∀ n : Node ℚ α, n.layout.Tidied) ∧
    ∀ n : Node Binary32 α, n.Unrounded →
      (∀ m ∈ n.layout.walk, m.x.toRat?.isSome ∧ m.y.toRat?.isSome ∧ m.width.toRat?.isSome) ∧
        (n.layout.map Binary32.exact).Tidied := by
  refine ⟨tidied_layout, fun n hu => ⟨finite_of_unrounded hu, ?_⟩⟩
  rw [layout_exact hu]
  exact tidied_layout _

/-- Two children, each of whom has one that is wider. -/
def cousins : Node Binary32 Nat :=
  let node (payload width : Nat) := Node.make payload (.ofInt width) (.ofInt 10)
  node 0 10 [node 1 10 [node 3 50 []], node 2 15 [node 4 35 [], node 5 20 []]]

theorem layout_tidied_cousins : cousins.Unrounded ∧
    (cousins.layout.deep 0).map (fun e => (e.1, e.2.payload, Scalar.round e.2.x)) =
      [(0, 0, 0), (1, 1, -28), (2, 3, -28), (1, 2, 28), (2, 4, 14), (2, 5, 42)] ∧
    (cousins.layout.map Binary32.exact).Tidied :=
  have hu : cousins.Unrounded := by decide +kernel
  ⟨hu, by decide +kernel, (layout_tidied.2 cousins hu).2⟩

end Tidy

end Pedigree
