import Pedigree.Proofs.Generations
import Pedigree.Proofs.Rows
import Pedigree.Proofs.Singles

/-! The outline along the edges encloses its block: it keeps the padding to the title and to every
person, on the left, on the right, above and below. -/
namespace Pedigree

open Checked Drawing

namespace Drawing

def Block.boxes (b : Block) : List Rect := b.title.rect :: b.persons.map (·.rect)

namespace Edges

/-- Points that run down on the left of a block and then up on its right, one half each, with the
padding around the title and around every person. -/
structure Encloses (padding : Int) (b : Block) (points : List Pos) : Prop where
  left : ∀ r ∈ b.boxes, (points.take (points.length / 2)).IsChain fun p q =>
    Meets r.y (r.y + r.height) p q → p.x ≤ r.x - padding ∧ q.x ≤ r.x - padding
  right : ∀ r ∈ b.boxes, (points.drop (points.length / 2)).IsChain fun p q =>
    Meets r.y (r.y + r.height) p q →
      r.x + r.width + padding ≤ p.x ∧ r.x + r.width + padding ≤ q.x
  top : (∃ p ∈ points, p.y = b.title.rect.y - padding) ∧
    ∀ p ∈ points, b.title.rect.y - padding ≤ p.y
  bottom : ∃ q ∈ b.persons,
    (∀ p ∈ b.persons, p.rect.y + p.rect.height ≤ q.rect.y + q.rect.height) ∧
    (∃ p ∈ points, p.y = q.rect.y + q.rect.height + padding) ∧
    ∀ p ∈ points, p.y ≤ q.rect.y + q.rect.height + padding

variable {side : Side} {pad arrows height : Int} {title : Rect} {boxes : List Rect}

theorem Stands.clears {r q : Row} {qs : List Row} (hpad : 0 ≤ pad) (ha : 0 ≤ arrows)
    (ht : 0 ≤ title.height) (h : Stands side pad arrows title boxes r q qs) :
    ∀ b ∈ title :: boxes, (path side pad r q qs).IsChain
      (Clears side (side.rank (side.edge b).value - pad) b.y (b.y + b.height)) := by
  have hr : 0 ≤ r.height := by
    rw [h.height]
    omega
  intro b hb
  obtain rfl | hb := List.mem_cons.1 hb
  · refine path_clears hpad hr h.follows List.mem_cons_self (Int.le_of_eq h.y) ?_ ?_
    · rw [Row.bottom, h.y, h.height]
      omega
    · have := h.rank
      omega
  · obtain ⟨s, hs, hy, hbottom, hrank⟩ := h.stands b hb
    exact path_clears hpad hr h.follows (List.mem_cons_of_mem _ hs) hy (Int.le_of_eq hbottom.symm)
      (by omega)

theorem Stands.extent {r q : Row} {qs : List Row} (hpad : 0 ≤ pad) (ha : 0 ≤ arrows)
    (ht : 0 ≤ title.height) (h : Stands side pad arrows title boxes r q qs) :
    (∀ p ∈ path side pad r q qs, title.y - pad ≤ p.y) ∧ ∃ b ∈ boxes,
      (∀ c ∈ boxes, c.y + c.height ≤ b.y + b.height) ∧
      (∀ p ∈ path side pad r q qs, p.y ≤ b.y + b.height + pad) ∧
      ∃ p ∈ path side pad r q qs, p.y = b.y + b.height + pad := by
  have hr : 0 ≤ r.height := by
    rw [h.height]
    omega
  obtain ⟨htop, s, hs, hlow, hle, he⟩ := path_extent side hpad hr h.follows
  obtain ⟨b, hb, hbottom⟩ := h.standsFor s hs
  rw [hbottom] at hlow hle he
  rw [h.y] at htop
  refine ⟨htop, b, hb, fun c hc => ?_, hle, he⟩
  obtain ⟨t, ht, -, hbt, -⟩ := h.stands c hc
  rw [← hbt]
  exact hlow t ht

theorem length_path (side : Side) (pad : Int) (r q : Row) (qs : List Row) :
    (path side pad r q qs).length = 2 * (qs.length + 2) := by
  have hd : (descent side pad q qs).length = 2 * qs.length + 1 := by
    induction qs generalizing q with
    | nil => rfl
    | cons t ts ih =>
      rw [descent, List.length_cons, List.length_cons, List.length_cons, ih]
      omega
  simp only [path, List.length_cons, hd]
  omega

theorem isChain_left {b : Rect} {points : List Pos}
    (h : points.IsChain
      (Clears .left (Side.left.rank (Side.left.edge b).value - pad) b.y (b.y + b.height))) :
    points.IsChain fun p q =>
      Meets b.y (b.y + b.height) p q → p.x ≤ b.x - pad ∧ q.x ≤ b.x - pad :=
  h

theorem isChain_right {b : Rect} {points : List Pos}
    (h : points.IsChain
      (Clears .right (Side.right.rank (Side.right.edge b).value - pad) b.y (b.y + b.height))) :
    points.reverse.IsChain fun p q => Meets b.y (b.y + b.height) p q →
      b.x + b.width + pad ≤ p.x ∧ b.x + b.width + pad ≤ q.x := by
  rw [List.isChain_reverse]
  refine h.imp fun p q hc ⟨hb, hlt, hgt⟩ => ?_
  obtain ⟨hp, hq⟩ := hc ⟨hb, by omega, by omega⟩
  have he : (Side.right.edge b).value = b.x + b.width := rfl
  rw [he] at hp hq
  simp only [Side.rank] at hp hq
  omega

theorem outline_encloses {b : Block} (hpad : 0 ≤ pad) (ha : 0 ≤ arrows) (hh : pad ≤ height)
    (h : Layered arrows height b.title.rect (b.persons.map (·.rect))) (hne : b.persons ≠ []) :
    Encloses pad b (outline pad arrows b).value := by
  have hne' : b.persons.map (·.rect) ≠ [] := by simpa using hne
  obtain ⟨r, q, qs, hl, hls, hln⟩ := trace_spec .left ha h hh hne'
  obtain ⟨r', q', qs', hr, hrs, hrn⟩ := trace_spec .right ha h hh hne'
  have hleft := hls.clears hpad ha h.titleHeight
  have hright := hrs.clears hpad ha h.titleHeight
  have hv : (outline pad arrows b).value =
      path .left pad r q qs ++ (path .right pad r' q' qs').reverse := by
    unfold outline
    simp only [value_bind, value_pure]
    rw [hl, hr]
  have hlen : (path .left pad r q qs).length = (path .right pad r' q' qs').reverse.length := by
    rw [List.length_reverse, length_path, length_path]
    omega
  have hhalf : (path .left pad r q qs ++ (path .right pad r' q' qs').reverse).length / 2 =
      (path .left pad r q qs).length := by
    rw [List.length_append]
    omega
  obtain ⟨htop, c, hc, hlow, hle, p, hp, he⟩ := hls.extent hpad ha h.titleHeight
  obtain ⟨htop', c', hc', hlow', hle', -⟩ := hrs.extent hpad ha h.titleHeight
  have hcc := hlow c' hc'
  obtain ⟨a, ha', rfl⟩ := List.mem_map.1 hc
  rw [hv]
  refine ⟨fun t ht => ?_, fun t ht => ?_, ⟨⟨_, List.mem_append_left _ List.mem_cons_self, ?_⟩,
    fun s hs => ?_⟩, a, ha', fun s hs => hlow _ (List.mem_map_of_mem hs),
    ⟨p, List.mem_append_left _ hp, he⟩, fun s hs => ?_⟩
  · rw [hhalf, List.take_left]
    exact isChain_left (hleft t ht)
  · rw [hhalf, List.drop_left]
    exact isChain_right (hright t ht)
  · rw [outside_y, hls.y]
  · obtain hs | hs := List.mem_append.1 hs
    · exact htop s hs
    · exact htop' s (List.mem_reverse.1 hs)
  · obtain hs | hs := List.mem_append.1 hs
    · exact hle s hs
    · have := hle' s (List.mem_reverse.1 hs)
      omega

end Edges

end Drawing

namespace Layout

theorem outline_of_roots {S : Type} (style : Style S) (kind : OutlineKind) {b : Block}
    (h : b.roots ≠ []) : outline style kind b = match kind with
      | .edges => Edges.outline style.padding style.arrows b
      | .levels => Levels.outline style.padding style.arrows style.gap b := by
  have he : b.roots.isEmpty = false := by
    cases hr : b.roots with
    | nil => exact absurd hr h
    | cons r rs => rfl
  unfold outline
  rw [he]
  rfl

theorem persons_ne_nil {b : Block} (h : b.roots ≠ []) : b.persons ≠ [] := by
  obtain ⟨r, hr⟩ := List.exists_mem_of_ne_nil _ h
  have hm : r.person ∈ r.person.walk := Person.self_mem_walk r.person
  exact List.ne_nil_of_mem (List.mem_flatMap.2 ⟨r, hr, hm⟩)

section

variable {S : Type} [Scalar S] {style : Style S} {ratio : S} {k : Kinship}

theorem height_le_limit (hf : (composed style ratio k).faults = []) :
    (composed style ratio k).value.rect.height ≤ 2147483647 := by
  obtain ⟨-, hf⟩ := faults_bind_eq_nil.1 hf
  unfold Block.compose at hf
  simp only [faults_bind_eq_nil] at hf
  obtain ⟨-, -, -, -, -, hadd, -⟩ := hf
  exact (faults_narrow_eq_nil.1 hadd).2

/-- The title of a block without faults, of a size that is not negative. -/
theorem rect_title (hf : (composed style ratio k).faults = []) : ∃ titleX,
    (composed style ratio k).value.title.rect =
      ⟨titleX, style.padding, style.titleWidth ratio k.label.length, style.titleHeight⟩ ∧
    0 ≤ style.titleWidth ratio k.label.length ∧ 0 ≤ style.titleHeight := by
  obtain ⟨titleX, width, hc⟩ := Block.compose_spec style ratio k.label (roots style ratio k).value
  have hb : (composed style ratio k).value =
    (Block.compose style ratio k.label (roots style ratio k).value).value := rfl
  exact ⟨titleX, by rw [hb, hc],
    Block.titleHeight_nonneg style ratio k.label _ (faults_bind_eq_nil.1 hf).2⟩

theorem padding_le_limit (ha : 0 ≤ style.arrows)
    (hf : (composed style ratio k).faults = []) : style.padding ≤ 2147483647 := by
  have hlimit := height_le_limit hf
  have htitle := (Block.titleHeight_nonneg style ratio k.label _ (faults_bind_eq_nil.1 hf).2).2
  have htop := Block.value_rootsTop style
  obtain ⟨titleX, width, hc⟩ := Block.compose_spec style ratio k.label (roots style ratio k).value
  have hb : (composed style ratio k).value =
    (Block.compose style ratio k.label (roots style ratio k).value).value := rfl
  have hmax := Block.nonneg_foldl_max ((Block.placeRoots style.rootsTop.value style.gap
    style.padding (roots style ratio k).value).value.map (·.rect.height))
  rw [hb, hc] at hlimit
  dsimp only at hlimit
  omega

/-- Boxes whose tops are whole multiples of a row, as far as these stay in range, and that end in
range are in different rows only if there is room for the connectors between them. -/
theorem room_of_multiples {height arrows top y z : Int} {d e : Nat} (hh : 0 ≤ height)
    (ha : 0 ≤ arrows) (htop : arrows ≤ top)
    (hy : y = top + min (d * (height + arrows)) 2147483647)
    (hz : z = top + min (e * (height + arrows)) 2147483647)
    (hend : z + min height 2147483647 ≤ 2147483647) (hlt : y < z) :
    y + min height 2147483647 + arrows ≤ z := by
  have hu : 0 ≤ height + arrows := Int.add_nonneg hh ha
  have hde : d < e := by
    refine Nat.lt_of_not_le fun hle => ?_
    have := Int.mul_le_mul_of_nonneg_right (Int.ofNat_le.2 hle) hu
    omega
  have hstep : ((d + 1 : Nat) : Int) * (height + arrows) ≤ e * (height + arrows) :=
    Int.mul_le_mul_of_nonneg_right (Int.ofNat_le.2 hde) hu
  have hsplit : ((d + 1 : Nat) : Int) * (height + arrows) =
      d * (height + arrows) + (height + arrows) := by
    rw [Int.natCast_add, Int.add_mul]
    omega
  have hd : 0 ≤ (d : Int) * (height + arrows) := Int.mul_nonneg (Int.natCast_nonneg d) hu
  omega

/-- Where rows of nodes stand at whole multiples of their height, boxes stand in layers. -/
theorem composed_layered {height : Nat} (ha : 0 ≤ style.arrows) (hp : 0 ≤ style.padding)
    (hh : Scalar.round style.personHeight = min (height : Int) 2147483647)
    (hy : ∀ t ∈ k.trees, ∀ n ∈ Subtree.nodes style ratio t, ∃ d : Nat,
      Scalar.round n.y = min ((d : Int) * (height + style.arrows)) 2147483647)
    (hf : (composed style ratio k).faults = []) :
    Edges.Layered style.arrows (Scalar.round style.personHeight)
      (composed style ratio k).value.title.rect
      ((composed style ratio k).value.persons.map (·.rect)) := by
  have hlimit := height_le_limit hf
  have htop := Block.value_rootsTop style
  obtain ⟨titleX, ht, -, htitle⟩ := rect_title hf
  refine ⟨?_, fun r hr => ?_, fun r hr => ?_, fun r hr q hq hlt => ?_⟩
  · rw [ht]
    exact htitle
  · obtain ⟨p, hp', rfl⟩ := List.mem_map.1 hr
    obtain ⟨t, -, n, -, hn⟩ := standsAt_of_mem_persons hp'
    exact hn.height
  · obtain ⟨p, hp', rfl⟩ := List.mem_map.1 hr
    obtain ⟨t, htr, n, hn, hs⟩ := standsAt_of_mem_persons hp'
    obtain ⟨d, hd⟩ := hy t htr n hn
    have : 0 ≤ (d : Int) * (height + style.arrows) :=
      Int.mul_nonneg (Int.natCast_nonneg d) (by omega)
    rw [ht, hs.top, hd]
    dsimp only
    omega
  · -- Tops in different rows are a multiple of a row apart, unless both are out of range.
    obtain ⟨p, hp', rfl⟩ := List.mem_map.1 hr
    obtain ⟨p', hp'', rfl⟩ := List.mem_map.1 hq
    obtain ⟨t, htr, n, hn, hs⟩ := standsAt_of_mem_persons hp'
    obtain ⟨t', htr', n', hn', hs'⟩ := standsAt_of_mem_persons hp''
    obtain ⟨d, hd⟩ := hy t htr n hn
    obtain ⟨e, he⟩ := hy t' htr' n' hn'
    have hbottom := hs'.bottom
    rw [hs'.height, hh] at hbottom
    rw [hh]
    exact room_of_multiples (Int.natCast_nonneg height) ha (by omega) (hd ▸ hs.top)
      (he ▸ hs'.top) (by omega) hlt

end

variable {style : Style Binary32} {ratio : Binary32} {k : Kinship}

/-- Persons are a whole number high, and so are the tops of all rows: adding up the heights of
rows rounds nothing. -/
structure ExactRows (style : Style Binary32) (ratio : Binary32) (k : Kinship) (height : Nat) :
    Prop where
  personHeight : style.personHeight.IsWhole height
  tops : ∀ t ∈ k.trees, ∀ n ∈ Subtree.nodes style ratio t,
    ∃ d : Nat, n.y.IsWhole ((d : Int) * (height + style.arrows))

theorem isWhole_nodeHeight {height arrows : Nat} (hh : style.personHeight.IsWhole height)
    (ha : style.arrows = arrows) (h : height + arrows ≤ 16777216) :
    style.nodeHeight.IsWhole (height + arrows : Nat) := by
  refine Binary32.IsWhole.add hh ?_ h
  rw [ha]
  exact Binary32.isWhole_ofInt (by omega)

/-- Persons are a whole number high, and the top of a row is a whole number too, that many times the
height of a row as there are rows above it. -/
structure ExactTops (style : Style Binary32) (ratio : Binary32) (k : Kinship) (height : Nat) :
    Prop where
  personHeight : style.personHeight.IsWhole height
  tops : ∀ t ∈ k.trees, ∀ d < (Subtree.sizing style ratio t).levels,
    (Tidy.topAt style.nodeHeight d).IsWhole ((d : Int) * (height + style.arrows))

theorem ExactTops.exactRows {height : Nat} (h : ExactTops style ratio k height) :
    ExactRows style ratio k height := by
  refine ⟨h.personHeight, fun t ht n hn => ?_⟩
  obtain ⟨d, hd, hy⟩ := Subtree.exists_topAt style ratio hn
  exact ⟨d, hy ▸ h.tops t ht d hd⟩

/-- Tops are exact in trees that are lower than `2 ^ 24`. -/
theorem exactTops_of_le {height : Nat} (hh : style.personHeight.IsWhole height)
    (ha : 0 ≤ style.arrows) (h : ∀ t ∈ k.trees,
      (Subtree.sizing style ratio t).levels * (height + style.arrows) ≤ 16777216) :
    ExactTops style ratio k height := by
  refine ⟨hh, fun t ht d hd => ?_⟩
  obtain ⟨a, ha⟩ := Int.eq_ofNat_of_zero_le ha
  have hle := h t ht
  rw [ha] at hle ⊢
  have hle : (Subtree.sizing style ratio t).levels * (height + a) ≤ 16777216 := by
    refine Int.ofNat_le.1 ?_
    rw [Int.natCast_mul, Int.natCast_add]
    exact hle
  have top (d : Nat) (hd : d * (height + a) ≤ 16777216) :
      (Tidy.topAt style.nodeHeight d).IsWhole (d * (height + a) : Nat) := by
    induction d with
    | zero =>
      rw [Nat.zero_mul]
      exact Binary32.isWhole_ofInt (Nat.zero_le _)
    | succ d ih =>
      rw [Nat.succ_mul] at hd ⊢
      exact (ih (by omega)).add (isWhole_nodeHeight hh ha (by omega)) hd
  have hw := top d (Nat.le_trans (Nat.mul_le_mul_right (height + a) (Nat.le_of_lt hd)) hle)
  rw [Int.natCast_mul, Int.natCast_add] at hw
  exact hw

theorem ExactRows.round_tops {height : Nat} (h : ExactRows style ratio k height)
    (ha : 0 ≤ style.arrows) : ∀ t ∈ k.trees, ∀ n ∈ Subtree.nodes style ratio t, ∃ d : Nat,
      Scalar.round n.y = min ((d : Int) * (height + style.arrows)) 2147483647 := by
  intro t ht n hn
  obtain ⟨d, hd⟩ := h.tops t ht n hn
  obtain ⟨a, ha⟩ := Int.eq_ofNat_of_zero_le ha
  refine ⟨d, ?_⟩
  have hw : (d : Int) * (height + style.arrows) = (d * (height + a) : Nat) := by
    rw [ha]
    push_cast
    rfl
  rw [hw] at hd ⊢
  exact Binary32.round_of_isWhole hd

/-- The outline along the edges encloses the block of any family, as long as its rows are exact. -/
theorem edges_outline_encloses {height : Nat} (hexact : ExactRows style ratio k height)
    (ha : 0 ≤ style.arrows) (hp : 0 ≤ style.padding) (hph : style.padding ≤ height)
    {b : Block} (hb : (composed style ratio k).run = .ok b) (hroots : b.roots ≠ [])
    {points : List Pos} (ho : (outline style .edges b).run = .ok points) :
    Edges.Encloses style.padding b points := by
  obtain ⟨hf, rfl⟩ := run_eq_ok_iff.1 hb
  have hround := Binary32.round_of_isWhole hexact.personHeight
  have hlayered := composed_layered ha hp hround (hexact.round_tops ha) hf
  rw [outline_of_roots style .edges hroots] at ho
  rw [← value_of_run ho]
  have hlimit := padding_le_limit ha hf
  have hle : style.padding ≤ Scalar.round style.personHeight := by
    rw [hround]
    exact Int.le_min.2 ⟨hph, hlimit⟩
  exact Edges.outline_encloses hp ha hle hlayered (persons_ne_nil hroots)

/-- A couple with two sons. -/
def coupleWithSons : Kinship :=
  .ofFamily (fun _ => none)
    ⟨"Smith", [⟨[⟨8, "John"⟩, ⟨15, "Mary"⟩], [⟨22, "Adam"⟩, ⟨29, "Bartholomew"⟩], true⟩]⟩

theorem edges_outline_encloses_coupleWithSons : ∃ b points,
    (composed (default : Style Binary32) (Binary32.ofInt 1) coupleWithSons).run = .ok b ∧
      b.roots ≠ [] ∧ (outline (default : Style Binary32) .edges b).run = .ok points ∧
      points.length = 16 ∧ Edges.Encloses 10 b points := by
  have hh : (default : Style Binary32).personHeight.IsWhole (30 : Nat) :=
    @Binary32.isWhole_ofInt 30 (by decide)
  have hrows : ExactRows (default : Style Binary32) (Binary32.ofInt 1) coupleWithSons 30 :=
    (exactTops_of_le hh (by decide) (by decide +kernel)).exactRows
  have hb := run_eq_ok_value
    (x := composed (default : Style Binary32) (Binary32.ofInt 1) coupleWithSons) (by decide +kernel)
  have ho := run_eq_ok_value (x := outline (default : Style Binary32) .edges
    (composed (default : Style Binary32) (Binary32.ofInt 1) coupleWithSons).value)
    (by decide +kernel)
  have hroots : (composed (default : Style Binary32) (Binary32.ofInt 1)
    coupleWithSons).value.roots.isEmpty = false := by decide +kernel
  have hne := List.isEmpty_eq_false_iff.1 hroots
  exact ⟨_, _, hb, hne, ho, by decide +kernel,
    edges_outline_encloses hrows (by decide) (by decide) (by decide) hb hne ho⟩

end Layout

end Pedigree
