import Pedigree.Proofs.Caches
import Pedigree.Proofs.Generations
import Pedigree.Proofs.Singles
import Pedigree.Proofs.Sorting

/-! Blocks of a drawing share no cell. Stacked blocks do not, as the bands of each stay between its
top and its bottom, and packing keeps it that way. -/
namespace Pedigree

open Checked Drawing

namespace Figure

/-- The padded bands of a block stay inside the block. -/
structure Inside (padding arrows : Int) (b : Block) : Prop where
  height : 0 ≤ b.rect.height
  titleTop : 0 ≤ b.title.rect.y - padding
  titleBottom : b.title.rect.y + (b.title.rect.height + arrows) + padding ≤ b.rect.height
  top : ∀ p ∈ b.persons, 0 ≤ p.rect.y - arrows - padding
  bottom : ∀ p ∈ b.persons, p.rect.y + p.rect.height + padding ≤ b.rect.height

theorem Inside.band {padding arrows : Int} {b : Block} (h : Inside padding arrows b) {band : Rect}
    (hb : band ∈ (bands arrows b).value) :
    0 ≤ band.y - padding ∧ band.y + band.height + padding ≤ b.rect.height := by
  obtain rfl | ⟨y, hband⟩ := mem_bands_iff.1 hb
  · exact ⟨h.titleTop, h.titleBottom⟩
  · obtain ⟨r, hr, hbottom⟩ := hband.bottom.1
    obtain ⟨hmem, hy⟩ := List.mem_filter.1 hr
    obtain ⟨p, hp, rfl⟩ := List.mem_map.1 hmem
    rw [← hbottom, hband.top, ← beq_iff_eq.1 hy]
    exact ⟨h.top p hp, h.bottom p hp⟩

variable {S : Type} {style : Style S}

theorem Inside.row_of_contains {b : Block} (h : Inside style.padding style.arrows b)
    (hs : 0 < style.gridStep) {c : Pos} (hc : (cells style b).value.contains c) :
    (firstCell style.gridStep b.origin.y).value ≤ c.y ∧
      c.y < (firstCell style.gridStep (b.origin.y + b.rect.height)).value := by
  obtain ⟨band, hb, hc⟩ := contains_cells.1 hc
  obtain ⟨ht, hbottom⟩ := h.band hb
  obtain ⟨-, hl, hr⟩ := contains_cellsOf.1 hc
  constructor
  · refine Int.le_trans (firstCell_mono hs ?_) hl
    rw [value_pad]
    dsimp only
    omega
  · refine Int.lt_of_lt_of_le hr (firstCell_mono hs ?_)
    rw [value_pad]
    dsimp only
    omega

end Figure

namespace Drawing.Block

/-- Stacked blocks follow each other downwards. -/
theorem pairwise_stackFrom {bs : List Block} (hb : ∀ b ∈ bs, 0 ≤ b.rect.height) (y : Int) :
    (∀ b ∈ (stackFrom y bs).value, y ≤ b.origin.y) ∧ (stackFrom y bs).value.Pairwise
      fun a b => a.origin.y + a.rect.height ≤ b.origin.y := by
  induction bs generalizing y with
  | nil => exact ⟨by simp [stackFrom], List.Pairwise.nil⟩
  | cons b bs ih =>
    obtain ⟨hy, hp⟩ := ih (fun a ha => hb a (List.mem_cons_of_mem _ ha)) (y + b.rect.height)
    have hh := hb b List.mem_cons_self
    have hv : (stackFrom y (b :: bs)).value =
      b.moveTo ⟨0, y⟩ :: (stackFrom (y + b.rect.height) bs).value := rfl
    rw [hv]
    refine ⟨fun a ha => ?_, List.pairwise_cons.2 ⟨fun a ha => hy a ha, hp⟩⟩
    obtain rfl | ha := List.mem_cons.1 ha
    · exact Int.le_refl y
    · have := hy a ha
      omega

theorem exists_of_mem_stackFrom {bs : List Block} {y : Int} {b : Block}
    (h : b ∈ (stackFrom y bs).value) : ∃ a ∈ bs, ∃ p, b = a.moveTo p := by
  induction bs generalizing y with
  | nil => cases h
  | cons a as ih =>
    obtain rfl | h := List.mem_cons.1 h
    · exact ⟨a, List.mem_cons_self, _, rfl⟩
    · obtain ⟨c, hc, p, hp⟩ := ih h
      exact ⟨c, List.mem_cons_of_mem _ hc, p, hp⟩

end Drawing.Block

namespace Packing

variable {S : Type} {style : Style S}

theorem apart_of_pairwise (hs : 0 < style.gridStep) {blocks : List Block}
    (hi : ∀ b ∈ blocks, Figure.Inside style.padding style.arrows b)
    (hp : blocks.Pairwise fun a b => a.origin.y + a.rect.height ≤ b.origin.y) :
    Apart style blocks := by
  have above (i j : Nat) (b b' : Block) (hij : i < j) (hb : blocks[i]? = some b)
      (hb' : blocks[j]? = some b') (c : Pos) (hc : (Figure.cells style b).value.contains c)
      (hc' : (Figure.cells style b').value.contains c) : False := by
    obtain ⟨hil, rfl⟩ := List.getElem?_eq_some_iff.1 hb
    obtain ⟨hjl, rfl⟩ := List.getElem?_eq_some_iff.1 hb'
    have hle := List.pairwise_iff_getElem.1 hp i j hil hjl hij
    have h₁ := ((hi _ (List.getElem_mem hil)).row_of_contains hs hc).2
    have h₂ := ((hi _ (List.getElem_mem hjl)).row_of_contains hs hc').1
    have h₃ := Figure.firstCell_mono hs hle
    omega
  intro i j b b' hij hb hb' c hc hc'
  obtain h | h := Nat.lt_or_gt_of_ne hij
  · exact above i j b b' h hb hb' c hc hc'
  · exact above j i b' b h hb' hb c hc' hc

end Packing

namespace Layout

section

variable {S : Type} [Scalar S] {style : Style S} {ratio : S} {k : Kinship}

theorem composed_inside_of_tops (hp : 0 ≤ style.padding) (ha : 0 ≤ style.arrows)
    (hy : ∀ t ∈ k.trees, ∀ n ∈ Subtree.nodes style ratio t, 0 ≤ Scalar.round n.y)
    (hf : (composed style ratio k).faults = []) :
    Figure.Inside style.padding style.arrows (composed style ratio k).value := by
  have htop := Block.value_rootsTop style
  have htitle : 0 ≤ style.titleHeight :=
    (Block.titleHeight_nonneg style ratio k.label _ (faults_bind_eq_nil.1 hf).2).2
  obtain ⟨titleX, width, hc⟩ := Block.compose_spec style ratio k.label (roots style ratio k).value
  have hb : (composed style ratio k).value =
    (Block.compose style ratio k.label (roots style ratio k).value).value := rfl
  have hmax := Block.nonneg_foldl_max ((Block.placeRoots style.rootsTop.value style.gap
    style.padding (roots style ratio k).value).value.map (·.rect.height))
  refine ⟨?_, ?_, ?_, fun p hp' => ?_, fun p hp' => ?_⟩
  · rw [hb, hc]
    dsimp only
    omega
  · rw [hb, hc]
    dsimp only
    omega
  · rw [hb, hc]
    dsimp only
    omega
  · obtain ⟨t, ht, n, hn, hstands⟩ := standsAt_of_mem_persons hp'
    have := hy t ht n hn
    rw [hstands.top]
    omega
  · obtain ⟨t, -, n, -, hstands⟩ := standsAt_of_mem_persons hp'
    exact hstands.bottom

theorem block_spec (settings : Settings S) (ratio : S) (k : Kinship) : ∃ o,
    (block settings ratio k).value =
      { (composed settings.style ratio k).value with outline := o } := ⟨_, rfl⟩

theorem composed_faults {settings : Settings S} (h : (block settings ratio k).faults = []) :
    (composed settings.style ratio k).faults = [] := by
  unfold block at h
  obtain ⟨hr, h⟩ := faults_bind_eq_nil.1 h
  obtain ⟨hb, -⟩ := faults_bind_eq_nil.1 h
  exact faults_bind_eq_nil.2 ⟨hr, hb⟩

theorem align_eq_ok {settings : Settings Binary32} {ratio : Binary32} {document : Snapshot}
    {blocks : List Block} (h : align settings ratio document = .ok blocks) :
    0 < settings.style.gridStep ∧ drawn settings ratio document = .ok blocks := by
  unfold align at h
  split at h
  · cases h
  · split at h
    · cases h
    · next hs =>
      cases hd : drawn settings ratio document with
      | error f => rw [hd] at h; cases h
      | ok bs =>
        rw [hd] at h
        cases h
        exact ⟨Int.not_le.1 hs, rfl⟩

/-- Blocks are drawn where they are stacked, unless they are packed. -/
theorem drawn_eq_ok {settings : Settings S} {document : Snapshot} {blocks : List Block}
    (h : drawn settings ratio document = .ok blocks) :
    (stacked settings ratio document).faults = [] ∧
      if settings.pack then ∃ placements,
        Packing.pack settings.style (stacked settings ratio document).value =
          .ok (blocks, placements)
      else blocks = (stacked settings ratio document).value := by
  obtain ⟨hf, hd⟩ := run_bind_eq_ok.1 h
  refine ⟨hf, ?_⟩
  split at hd
  · next hp =>
    rw [if_pos hp]
    obtain ⟨⟨packed, placements⟩, hpack, hd⟩ := exists_of_bind_eq_ok hd
    cases hd
    exact ⟨placements, hpack⟩
  · next hp =>
    rw [if_neg hp]
    cases hd
    rfl

end

variable {settings : Settings Binary32} {style : Style Binary32} {ratio : Binary32} {k : Kinship}
  {document : Snapshot}

theorem notBelow_nodeHeight (ha : 0 ≤ style.arrows) (hh : style.personHeight.NotBelow) :
    style.nodeHeight.NotBelow :=
  Binary32.NotBelow.add hh (Binary32.notBelow_ofInt ha)

theorem composed_inside (hp : 0 ≤ style.padding) (ha : 0 ≤ style.arrows)
    (hh : style.personHeight.NotBelow) (hf : (composed style ratio k).faults = []) :
    Figure.Inside style.padding style.arrows (composed style ratio k).value := by
  refine composed_inside_of_tops hp ha (fun t _ n hn => ?_) hf
  obtain ⟨-, -, hy⟩ := Subtree.top_of_mem_nodes style ratio (P := fun _ => Binary32.NotBelow)
    Binary32.notBelow_scalar_zero (fun _ _ hy => hy.add (notBelow_nodeHeight ha hh)) hn
  exact Binary32.round_nonneg hy

theorem block_inside (hp : 0 ≤ settings.style.padding) (ha : 0 ≤ settings.style.arrows)
    (hh : settings.style.personHeight.NotBelow) (hf : (block settings ratio k).faults = []) :
    Figure.Inside settings.style.padding settings.style.arrows (block settings ratio k).value := by
  obtain ⟨o, ho⟩ := block_spec settings ratio k
  have h := composed_inside hp ha hh (composed_faults hf)
  rw [ho]
  exact ⟨h.height, h.titleTop, h.titleBottom, h.top, h.bottom⟩

theorem stacked_apart (hs : 0 < settings.style.gridStep) (hp : 0 ≤ settings.style.padding)
    (ha : 0 ≤ settings.style.arrows) (hh : settings.style.personHeight.NotBelow)
    (hf : (stacked settings ratio document).faults = []) :
    Packing.Apart settings.style (stacked settings ratio document).value := by
  obtain ⟨hm, hstack⟩ := faults_bind_eq_nil.1 hf
  have hi (b : Block) (hb : b ∈ (document.kinships.mapM (block settings ratio)).value) :
      Figure.Inside settings.style.padding settings.style.arrows b := by
    rw [value_mapM] at hb
    obtain ⟨k, hk, rfl⟩ := List.mem_map.1 hb
    exact block_inside hp ha hh (faults_mapM_eq_nil.1 hm k hk)
  have hv : (stacked settings ratio document).value =
    (Block.stackFrom 0 (document.kinships.mapM (block settings ratio)).value).value := rfl
  rw [hv]
  refine Packing.apart_of_pairwise hs (fun b hb => ?_) ?_
  · obtain ⟨a, ha', p, rfl⟩ := Block.exists_of_mem_stackFrom hb
    have h := hi a ha'
    exact ⟨h.height, h.titleTop, h.titleBottom, h.top, h.bottom⟩
  · exact (Block.pairwise_stackFrom (fun b hb => (hi b hb).height) 0).2

/-- Stacking starts blocks apart and packing keeps them so. -/
theorem drawn_apart {blocks : List Block} (hs : 0 < settings.style.gridStep)
    (hp : 0 ≤ settings.style.padding) (ha : 0 ≤ settings.style.arrows)
    (hh : settings.style.personHeight.NotBelow) (h : drawn settings ratio document = .ok blocks) :
    Packing.Apart settings.style blocks := by
  obtain ⟨hf, hd⟩ := drawn_eq_ok h
  have hst := stacked_apart hs hp ha hh hf
  split at hd
  · obtain ⟨placements, hpack⟩ := hd
    exact hst.pack hs hpack
  · rw [hd]
    exact hst

/-- No two blocks of a drawing share a cell, however often they were moved. -/
theorem align_apart {blocks : List Block} (hp : 0 ≤ settings.style.padding)
    (ha : 0 ≤ settings.style.arrows) (hh : settings.style.personHeight.NotBelow)
    (h : align settings ratio document = .ok blocks) : Packing.Apart settings.style blocks := by
  obtain ⟨hs, hd⟩ := align_eq_ok h
  exact drawn_apart hs hp ha hh hd

/-- A family with a daughter whose own family is drawn below. -/
def daughterBelow : Snapshot :=
  let alice : Id := ⟨"Alice"⟩
  ⟨[⟨"Smith", [⟨[⟨8, "John"⟩], [⟨15, "Alice"⟩], true⟩]⟩,
    ⟨"Jones", [⟨[⟨30, "Carl"⟩], [], true⟩, ⟨[⟨40, "Alice"⟩], [], true⟩]⟩],
    ⟨[(15, alice), (40, alice)]⟩⟩

theorem align_apart_daughterBelow : ∃ blocks,
    align default (Binary32.ofInt 1) daughterBelow = .ok blocks ∧
      blocks.map (·.origin) = [⟨0, 0⟩, ⟨-90, 146⟩] ∧
      Packing.Apart (default : Settings Binary32).style blocks := by
  have hm : ((align default (Binary32.ofInt 1) daughterBelow).map
      (·.map (·.origin))).toOption = some [⟨0, 0⟩, ⟨-90, 146⟩] := by decide +kernel
  obtain ⟨blocks, hb, ho⟩ := eq_ok_of_toOption_map hm
  exact ⟨blocks, hb, ho, align_apart (by decide) (by decide) (by decide +kernel) hb⟩

end Layout

end Pedigree
