import Pedigree.Proofs.Generations
import Pedigree.Proofs.Singles
import Mathlib.Algebra.Order.Floor.Ring
import Mathlib.Data.Rat.Floor

/-! Layouts in exact numbers. Sizing and tree layout over single precision agree with the same
algorithm over fractions as long as no operation rounds: both are run at once, by numbers that
remember whether any operation they come from has rounded. -/
namespace Pedigree

/-! ### Fractions -/

namespace Exact

/-- The nearest whole number in the 32-bit range; a half goes away from zero. -/
def round (q : ℚ) : Int :=
  Binary32.saturate (if q < 0 then -⌊-q + 1 / 2⌋ else ⌊q + 1 / 2⌋)

def trunc (q : ℚ) : Int := Binary32.saturate (if q < 0 then -⌊-q⌋ else ⌊q⌋)

def greatest : List ℚ → ℚ
  | [] => 0
  | q :: qs => qs.foldl max q

end Exact

instance : Scalar ℚ where
  ofInt n := n
  half q := q / 2
  greatest := Exact.greatest
  round := Exact.round
  trunc := Exact.trunc

namespace Exact

@[simp] theorem scalar_zero : (Scalar.zero : ℚ) = 0 := Int.cast_zero

@[simp] theorem scalar_half (q : ℚ) : Scalar.half q = q / 2 := rfl

@[simp] theorem scalar_double (q : ℚ) : Scalar.double q = q * 2 := rfl

@[simp] theorem scalar_ofInt (n : Int) : (Scalar.ofInt n : ℚ) = n := rfl

theorem saturate_le (n : Int) : Binary32.saturate n ≤ n ∨ Binary32.saturate n = -2147483648 := by
  unfold Binary32.saturate
  omega

theorem le_saturate {k n : Int} (h : k ≤ n) (hk : k ≤ 2147483647) : k ≤ Binary32.saturate n := by
  unfold Binary32.saturate
  omega

/-- Rounding does not pass a whole number. -/
theorem le_round {k : Int} {q : ℚ} (h : (k : ℚ) ≤ q) (hk : k ≤ 2147483647) :
    k ≤ (Scalar.round q : Int) := by
  refine le_saturate ?_ hk
  split
  · have : ⌊-q + 1 / 2⌋ < -k + 1 := by
      rw [Int.floor_lt]
      push_cast
      linarith
    omega
  · exact Int.le_floor.mpr (by linarith)

/-- Rounding up goes no further than a half, unless the number is below the range. -/
theorem round_le (q : ℚ) : ((Scalar.round q : Int) : ℚ) ≤ q + 1 / 2 ∨
    (Scalar.round q : Int) = -2147483648 := by
  refine (saturate_le _).imp_left fun h => ?_
  have hr : (((if q < 0 then -⌊-q + 1 / 2⌋ else ⌊q + 1 / 2⌋ : Int)) : ℚ) ≤ q + 1 / 2 := by
    split
    · have := Int.lt_floor_add_one (-q + 1 / 2)
      push_cast
      linarith
    · exact Int.floor_le _
  exact le_trans (by exact_mod_cast h) hr

theorem le_greatest {q : ℚ} {qs : List ℚ} (h : q ∈ qs) : q ≤ Scalar.greatest qs := by
  have mono (ps : List ℚ) (a : ℚ) : a ≤ ps.foldl max a ∧ ∀ p ∈ ps, p ≤ ps.foldl max a := by
    induction ps generalizing a with
    | nil => simp
    | cons p ps ih =>
      obtain ⟨h₁, h₂⟩ := ih (max a p)
      refine ⟨le_trans (le_max_left _ _) h₁, fun r hr => ?_⟩
      obtain rfl | hr := List.mem_cons.mp hr
      · exact le_trans (le_max_right _ _) h₁
      · exact h₂ r hr
  cases qs with
  | nil => cases h
  | cons p ps =>
    obtain rfl | h := List.mem_cons.mp h
    · exact (mono ps q).1
    · exact (mono ps p).2 q h

end Exact

/-! ### Single precision -/

namespace Binary32

/-- The number, if it is finite. -/
def toRat? : Binary32 → Option ℚ
  | finite s a => some (signed s a / one)
  | _ => none

theorem floor_add_half (u : Nat) :
    ⌊(u : ℚ) / (one : ℚ) + 1 / 2⌋ = (((2 * u + one) / (2 * one) : Nat) : Int) := by
  have hone : (one : ℚ) ≠ 0 := by exact_mod_cast one_pos.ne'
  have hq : (u : ℚ) / (one : ℚ) + 1 / 2 = ((2 * u + one : Nat) : ℚ) / ((2 * one : Nat) : ℚ) := by
    push_cast
    field_simp
  rw [hq, Rat.floor_natCast_div_natCast]
  rfl

/-- A finite number is rounded to the same whole number as a fraction. -/
theorem round_eq {x : Binary32} {q : ℚ} (h : x.toRat? = some q) :
    (Scalar.round x : Int) = Scalar.round q := by
  match x, h with
  | finite s a, h =>
    have hone : (0 : ℚ) < one := by exact_mod_cast one_pos
    have hu : (0 : ℚ) ≤ (a.units : ℚ) / one := by positivity
    obtain rfl : (signed s a : ℚ) / one = q := Option.some.inj h
    change saturate (if s then -(((2 * a.units + one) / (2 * one) : Nat) : Int)
      else ((2 * a.units + one) / (2 * one) : Nat)) = Exact.round _
    rw [Exact.round, ← floor_add_half]
    congr 1
    cases s with
    | false => simp [signed, hu.not_gt]
    | true =>
      obtain hz | hz := hu.eq_or_lt
      · have hd : -(a.units : ℚ) / one = 0 := by rw [neg_div, ← hz, neg_zero]
        simp [signed, hd, ← hz]
        norm_num
      · simp [signed, neg_div, hz.not_ge]

end Binary32

/-- A single precision number and what it would be if nothing had been rounded. -/
structure Watched where
  single : Binary32
  exact : ℚ
  /-- Whether no operation has rounded. -/
  unrounded : Bool
  sound : unrounded → single.toRat? = some exact

namespace Watched

/-- What an operation gives whose operands have been computed without rounding or not. -/
def note (single : Binary32) (exact : ℚ) (before : Bool) : Watched where
  single := single
  exact := exact
  unrounded := before && decide (single.toRat? = some exact)
  sound h := by simpa using (Bool.and_eq_true_iff.mp h).2

/-- A number that is given. -/
def ofSingle (x : Binary32) : Watched := note x (x.toRat?.getD 0) true

instance : Scalar Watched where
  add a b := note (a.single + b.single) (a.exact + b.exact) (a.unrounded && b.unrounded)
  sub a b := note (a.single - b.single) (a.exact - b.exact) (a.unrounded && b.unrounded)
  mul a b := note (a.single * b.single) (a.exact * b.exact) (a.unrounded && b.unrounded)
  neg a := note (-a.single) (-a.exact) a.unrounded
  max a b := note (max a.single b.single) (max a.exact b.exact) (a.unrounded && b.unrounded)
  min a b := note (min a.single b.single) (min a.exact b.exact) (a.unrounded && b.unrounded)
  ofInt n := note (Scalar.ofInt n) n true
  half a := note (Scalar.half a.single) (a.exact / 2) a.unrounded
  greatest as := note (Scalar.greatest (as.map (·.single))) (Scalar.greatest (as.map (·.exact)))
    (as.all (·.unrounded))
  round a := Scalar.round a.single
  trunc a := Scalar.trunc a.single

end Watched

/-! ### Changing numbers -/

/-- A way from some numbers to others that keeps every operation of tree layout. -/
structure Scalar.Hom [Scalar S] [Scalar T] (f : S → T) : Prop where
  add : ∀ a b, f (a + b) = f a + f b
  sub : ∀ a b, f (a - b) = f a - f b
  mul : ∀ a b, f (a * b) = f a * f b
  neg : ∀ a, f (-a) = -f a
  max : ∀ a b, f (max a b) = max (f a) (f b)
  min : ∀ a b, f (min a b) = min (f a) (f b)
  ofInt : ∀ n, f (Scalar.ofInt n) = Scalar.ofInt n
  half : ∀ a, f (Scalar.half a) = Scalar.half (f a)
  greatest : ∀ as, f (Scalar.greatest as) = Scalar.greatest (as.map f)

theorem Watched.hom_single : Scalar.Hom Watched.single :=
  ⟨fun _ _ => rfl, fun _ _ => rfl, fun _ _ => rfl, fun _ => rfl, fun _ _ => rfl, fun _ _ => rfl,
    fun _ => rfl, fun _ => rfl, fun _ => rfl⟩

theorem Watched.hom_exact : Scalar.Hom Watched.exact :=
  ⟨fun _ _ => rfl, fun _ _ => rfl, fun _ _ => rfl, fun _ => rfl, fun _ _ => rfl, fun _ _ => rfl,
    fun _ => rfl, fun _ => rfl, fun _ => rfl⟩

namespace Tidy

mutual

def Node.map (f : S → T) : Node S α → Node T α
  | ⟨payload, width, height, x, y, offset, children⟩ =>
    ⟨payload, f width, f height, f x, f y, f offset, Node.mapAll f children⟩

def Node.mapAll (f : S → T) : List (Node S α) → List (Node T α)
  | [] => []
  | n :: ns => Node.map f n :: Node.mapAll f ns

end

theorem mapAll_eq_map (f : S → T) (ns : List (Node S α)) :
    Node.mapAll f ns = ns.map (Node.map f) := by
  induction ns with
  | nil => rfl
  | cons n ns ih => rw [Node.mapAll, ih, List.map_cons]

theorem map_offset (f : S → T) (n : Node S α) (o : S) :
    Node.map f { n with offset := o } = { Node.map f n with offset := f o } := by
  cases n
  rw [Node.map, Node.map]

theorem offset_map (f : S → T) (n : Node S α) : (n.map f).offset = f n.offset := by
  cases n
  rfl

mutual

theorem walk_map (f : S → T) : (n : Node S α) → (n.map f).walk = n.walk.map (Node.map f)
  | ⟨payload, width, height, x, y, offset, children⟩ => by
    rw [Node.map, Node.walk, Node.walk, walkAll_map f children, List.map_cons, Node.map]

theorem walkAll_map (f : S → T) : (ns : List (Node S α)) →
    Node.walkAll (Node.mapAll f ns) = (Node.walkAll ns).map (Node.map f)
  | [] => rfl
  | n :: ns => by
    rw [Node.mapAll, Node.walkAll, Node.walkAll, walk_map f n, walkAll_map f ns, List.map_append]

end

variable [Scalar S] [Scalar T] {f : S → T}

def Contour.map (f : S → T) (c : Contour S) : Contour T := List.map (Prod.map f f) c

theorem clearance_map (hf : Scalar.Hom f) (others contour : Contour S) :
    f (clearance others contour) = clearance (others.map f) (contour.map f) := by
  have hz : List.zipWith (fun o c => o.2 - c.1) (others.map f) (contour.map f) =
      (List.zipWith (fun o c => o.2 - c.1) others contour).map f := by
    simp [Contour.map, List.zipWith_map, List.map_zipWith, hf.sub]
  unfold clearance
  rw [hz, ← hf.greatest]
  cases others with
  | nil => exact hf.ofInt 0
  | cons => rfl

theorem shift_map (hf : Scalar.Hom f) (by_ : S) (c : Contour S) :
    (Contour.shift by_ c).map f = Contour.shift (f by_) (c.map f) := by
  simp [Contour.shift, Contour.map, hf.add, Function.comp_def]

theorem join_map (hf : Scalar.Hom f) (c d : Contour S) :
    (Contour.join c d).map f = Contour.join (c.map f) (d.map f) := by
  induction c generalizing d with
  | nil => rfl
  | cons e c ih =>
    cases d with
    | nil => rfl
    | cons e' d =>
      have := ih d
      simp only [Contour.map] at this
      simp [Contour.join, Contour.map, this, hf.min, hf.max]

theorem middle_map (hf : Scalar.Hom f) (ns : List (Node S α)) :
    f (middle ns) = middle (ns.map (Node.map f)) := by
  have ho (n : Option (Node S α)) : offsetOf (n.map (Node.map f)) = f (offsetOf n) := by
    cases n with
    | none => exact (hf.ofInt 0).symm
    | some n => exact offset_map f n
  rw [middle, middle, hf.half, hf.add, List.head?_map, List.getLast?_map, ho, ho]

mutual

theorem arrange_map (hf : Scalar.Hom f) : (n : Node S α) →
    arrange (n.map f) = ((arrange n).1.map f, (arrange n).2.map f)
  | ⟨payload, width, height, x, y, offset, children⟩ => by
    have ih : arrangeAll [] (Node.mapAll f children) = _ := arrangeAll_map hf [] children
    rw [Node.map, arrange, arrange, ih]
    generalize arrangeAll [] children = arranged
    obtain ⟨children, merged⟩ := arranged
    dsimp only
    rw [Node.map, mapAll_eq_map, ← middle_map hf]
    simp [Contour.map, Function.comp_def, map_offset, offset_map, hf.sub, hf.neg, hf.half]

theorem arrangeAll_map (hf : Scalar.Hom f) (others : Contour S) : (ns : List (Node S α)) →
    arrangeAll (others.map f) (Node.mapAll f ns) =
      ((arrangeAll others ns).1.map (Node.map f), (arrangeAll others ns).2.map f)
  | [] => by simp [Node.mapAll, arrangeAll]
  | n :: ns => by
    rw [Node.mapAll, arrangeAll, arrangeAll, arrange_map hf n]
    dsimp only
    rw [← clearance_map hf, ← shift_map hf, ← join_map hf, arrangeAll_map hf _ ns, List.map_cons,
      map_offset]

end

mutual

theorem place_map (hf : Scalar.Hom f) (x y : S) : (n : Node S α) →
    place (f x) (f y) (n.map f) = (place x y n).map f
  | ⟨payload, width, height, _, _, offset, children⟩ => by
    rw [Node.map, place, place, Node.map, ← hf.add, placeAll_map hf x _ children]

theorem placeAll_map (hf : Scalar.Hom f) (x y : S) : (ns : List (Node S α)) →
    placeAll (f x) (f y) (Node.mapAll f ns) = Node.mapAll f (placeAll x y ns)
  | [] => rfl
  | n :: ns => by
    rw [Node.mapAll, placeAll, placeAll, Node.mapAll, offset_map, ← hf.add, place_map hf _ _ n,
      placeAll_map hf x y ns]

end

/-- Changing numbers before or after laying out a tree is the same. -/
theorem layout_map (hf : Scalar.Hom f) (n : Node S α) : (n.map f).layout = n.layout.map f := by
  have hz : f Scalar.zero = Scalar.zero := hf.ofInt 0
  rw [Node.layout, Node.layout, arrange_map hf, ← place_map hf, hz]

end Tidy

def Style.map (f : S → T) (s : Style S) : Style T where
  titleSize := f s.titleSize
  padding := s.padding
  gap := s.gap
  nameSize := f s.nameSize
  personHeight := f s.personHeight
  paddingX := f s.paddingX
  marginX := f s.marginX
  arrows := s.arrows
  gridStep := s.gridStep

namespace Subtree

theorem chain_map (f : S → T) (partners below : List (Tidy.Node S Nat)) :
    chain (Tidy.Node.mapAll f partners) (Tidy.Node.mapAll f below) =
      Tidy.Node.mapAll f (chain partners below) := by
  induction partners with
  | nil => rfl
  | cons p ps ih =>
    have hc (q : Tidy.Node T Nat) (qs bs : List (Tidy.Node T Nat)) :
        chain (q :: qs) bs = [q.append (chain qs bs)] := rfl
    have hc' : chain (p :: ps) below = [p.append (chain ps below)] := rfl
    rw [Tidy.Node.mapAll, hc, ih, hc', Tidy.Node.mapAll, Tidy.Node.mapAll]
    cases p
    simp [Tidy.Node.append, Tidy.Node.map, Tidy.mapAll_eq_map]

variable [Scalar S] [Scalar T] {f : S → T}

theorem nodeWidth_map (hf : Scalar.Hom f) (style : Style S) (ratio : S) (chars : Nat) :
    (style.map f).nodeWidth (f ratio) chars = f (style.nodeWidth ratio chars) := by
  simp [Style.nodeWidth, Style.map, Scalar.double, hf.add, hf.mul, hf.ofInt]

theorem nodeHeight_map (hf : Scalar.Hom f) (style : Style S) :
    (style.map f).nodeHeight = f style.nodeHeight := by
  simp [Style.nodeHeight, Style.map, hf.add, hf.ofInt]

mutual

theorem sizing_map (hf : Scalar.Hom f) (style : Style S) (ratio : S) : (b : Branch) →
    sizing (style.map f) (f ratio) b = (sizing style ratio b).map f
  | .node index label _ bonds => by
    have hz : f Scalar.zero = Scalar.zero := hf.ofInt 0
    rw [sizing, sizing, nodeWidth_map hf, nodeHeight_map hf, sizingBonds_map hf style ratio bonds,
      Tidy.Node.make, Tidy.Node.make, Tidy.Node.map, hz]

theorem sizingBonds_map (hf : Scalar.Hom f) (style : Style S) (ratio : S) :
    (bonds : List Bond) → sizingBonds (style.map f) (f ratio) bonds =
      Tidy.Node.mapAll f (sizingBonds style ratio bonds)
  | [] => rfl
  | ⟨partners, children⟩ :: bonds => by
    rw [sizingBonds, sizingBonds, sizingAll_map hf style ratio partners,
      sizingAll_map hf style ratio children, sizingBonds_map hf style ratio bonds, chain_map,
      Tidy.mapAll_eq_map, Tidy.mapAll_eq_map, Tidy.mapAll_eq_map, List.map_append]

theorem sizingAll_map (hf : Scalar.Hom f) (style : Style S) (ratio : S) : (bs : List Branch) →
    sizingAll (style.map f) (f ratio) bs = Tidy.Node.mapAll f (sizingAll style ratio bs)
  | [] => rfl
  | b :: bs => by
    rw [sizingAll, sizingAll, sizing_map hf style ratio b, sizingAll_map hf style ratio bs,
      Tidy.Node.mapAll]

end

theorem nodes_map (hf : Scalar.Hom f) (style : Style S) (ratio : S) (b : Branch) :
    nodes (style.map f) (f ratio) b = (nodes style ratio b).map (Tidy.Node.map f) := by
  rw [nodes, nodes, sizing_map hf, Tidy.layout_map hf, Tidy.walk_map]

/-- The numbers of a node whose box is drawn from it, before they become whole: its left and upper
edge and its width. -/
def edges (style : Style S) (n : Tidy.Node S Nat) : S × S × S :=
  (n.x - Scalar.half n.width + style.marginX, n.y, n.width - Scalar.double style.marginX)

theorem value_boxOf_edges (style : Style S) (n : Tidy.Node S Nat) : (boxOf style n).value =
    ⟨Scalar.round (edges style n).1, Scalar.round (edges style n).2.1,
      max (Scalar.round (edges style n).2.2) 0, Scalar.round style.personHeight⟩ := rfl

theorem edges_map (hf : Scalar.Hom f) (style : Style S) (n : Tidy.Node S Nat) :
    edges (style.map f) (n.map f) = (edges style n).map f (Prod.map f f) := by
  cases n
  simp [edges, Tidy.Node.map, Style.map, Scalar.double, hf.add, hf.sub, hf.mul, hf.half, hf.ofInt]

end Subtree

/-! ### Layouts without rounding -/

/-- The number as a fraction; zero if it is not finite. -/
def Binary32.exact (x : Binary32) : ℚ := x.toRat?.getD 0

namespace Subtree

/-- No operation rounds while a tree is sized and laid out. -/
def Unrounded (style : Style Binary32) (ratio : Binary32) (b : Branch) : Prop :=
  ∀ n ∈ nodes (style.map Watched.ofSingle) (Watched.ofSingle ratio) b,
    (edges (style.map Watched.ofSingle) n).1.unrounded ∧
      (edges (style.map Watched.ofSingle) n).2.1.unrounded ∧
        (edges (style.map Watched.ofSingle) n).2.2.unrounded

instance (style : Style Binary32) (ratio : Binary32) (b : Branch) :
    Decidable (Unrounded style ratio b) :=
  inferInstanceAs (Decidable (∀ n ∈ nodes (style.map Watched.ofSingle) (Watched.ofSingle ratio) b,
    (edges (style.map Watched.ofSingle) n).1.unrounded ∧
      (edges (style.map Watched.ofSingle) n).2.1.unrounded ∧
        (edges (style.map Watched.ofSingle) n).2.2.unrounded))

/-- Where nothing rounds, the boxes of a branch are those of exact numbers. -/
theorem boxes_eq {style : Style Binary32} {ratio : Binary32} {b : Branch}
    (hh : style.personHeight.toRat?.isSome) (hu : Unrounded style ratio b) :
    boxes style ratio b = boxes (style.map Binary32.exact) ratio.exact b := by
  let watched := style.map Watched.ofSingle
  have hsingle : nodes style ratio b = (nodes watched (.ofSingle ratio) b).map (.map _) :=
    nodes_map Watched.hom_single watched (.ofSingle ratio) b
  have hexact : nodes (style.map Binary32.exact) ratio.exact b =
      (nodes watched (.ofSingle ratio) b).map (.map _) :=
    nodes_map Watched.hom_exact watched (.ofSingle ratio) b
  rw [boxes, boxes, hsingle, hexact, List.map_map, List.map_map]
  apply List.map_congr_left
  intro n hn
  obtain ⟨hx, hy, hw⟩ : (edges watched n).1.unrounded ∧ (edges watched n).2.1.unrounded ∧
    (edges watched n).2.2.unrounded := hu n hn
  have round_of {a : Watched} (ha : a.unrounded) :
      (Scalar.round a.single : Int) = Scalar.round a.exact := Binary32.round_eq (a.sound ha)
  have hsizes : (Scalar.round style.personHeight : Int) =
      Scalar.round (style.map Binary32.exact).personHeight := by
    obtain ⟨height, hh⟩ := Option.isSome_iff_exists.mp hh
    simp [Binary32.round_eq hh, Style.map, Binary32.exact, hh]
  have hs : edges style (n.map Watched.single) = _ := edges_map Watched.hom_single watched n
  have he : edges (style.map Binary32.exact) (n.map Watched.exact) = _ :=
    edges_map Watched.hom_exact watched n
  have hbox : (boxOf style (n.map Watched.single)).value =
      (boxOf (style.map Binary32.exact) (n.map Watched.exact)).value := by
    rw [value_boxOf_edges, value_boxOf_edges, hs, he, hsizes]
    simp only [Prod.map_fst, Prod.map_snd, round_of hx, round_of hy, round_of hw]
  have hpayload : (n.map Watched.single).payload = (n.map Watched.exact).payload := by cases n; rfl
  simp [hpayload, hbox]

end Subtree

end Pedigree
