import Mathlib
import Pedigree.Identity.Resolver
import Pedigree.Proofs.Disjoint
import Pedigree.Session.Run

/-! What packing does to all links. Each move is made for one link and takes its cells no further
apart, but it may take one of its blocks away from where another link wants it. Then the other link
gets longer, by no more cells than the move has. -/
namespace Pedigree

open Drawing Checked

namespace Packing

/-- The Manhattan length of the way between the linked cells. -/
def linkLength (step : Int) (blocks : List Block) (l : Link) : Nat :=
  (distance step ⟨blocks, [], []⟩ l).value.length

/-- The cells by which a move takes one of the blocks of a link. -/
def detour (step : Int) (l : Link) (p : Placement) : Nat :=
  if p.family = l.anchor ∨ p.family = l.family then (p.offset.cell step).value.length else 0

theorem detour_of_zero {step : Int} {l : Link} {p : Placement}
    (h : p.family = l.anchor ∨ p.family = l.family → p.offset = ⟨0, 0⟩) : detour step l p = 0 := by
  unfold detour
  split
  · next hp => simp [h hp, Pos.length]
  · rfl

theorem length_distance (step : Int) (s : State) (l : Link) :
    (distance step s l).value.length = linkLength step s.blocks l := rfl

namespace State

/-- A move takes the cells of one block along and no others. -/
theorem exists_cells_of_move {step : Int} (hs : 0 < step) (s : State) (i : Nat) (cells : Pos)
    (j : Nat) : ∃ k : Pos, (k = ⟨0, 0⟩ ∨ k = cells ∧ i = j) ∧
      (∀ x, (((s.move step i cells).originOf j).x + x) / step =
        ((s.originOf j).x + x) / step + k.x) ∧
      ∀ y, (((s.move step i cells).originOf j).y + y) / step =
        ((s.originOf j).y + y) / step + k.y := by
  rw [originOf_move]
  split
  · next h =>
    obtain ⟨rfl, -⟩ := h
    exact ⟨cells, .inr ⟨rfl, rfl⟩, fun x => cell_shifted hs .., fun y => cell_shifted hs ..⟩
  · exact ⟨⟨0, 0⟩, .inl rfl, by simp, by simp⟩

/-- A move makes a link no longer than by the cells it takes one of its blocks. -/
theorem linkLength_move_le {step : Int} (hs : 0 < step) (s : State) (i : Nat) (cells : Pos)
    (l : Link) : linkLength step (s.move step i cells).blocks l ≤
      linkLength step s.blocks l + if i = l.anchor ∨ i = l.family then cells.length else 0 := by
  obtain ⟨a, ha, hax, hay⟩ := exists_cells_of_move hs s i cells l.anchor
  obtain ⟨f, hf, hfx, hfy⟩ := exists_cells_of_move hs s i cells l.family
  rw [← length_distance, ← length_distance, value_distance, value_distance, hax, hay, hfx, hfy]
  simp only [Pos.length]
  obtain rfl | ⟨rfl, hi⟩ := ha <;> obtain rfl | ⟨rfl, hi'⟩ := hf
  · simp
  · rw [if_pos (.inr hi')]
    dsimp only
    omega
  · rw [if_pos (.inl hi)]
    dsimp only
    omega
  · rw [if_pos (.inl hi)]
    omega

end State

variable {step : Int} {s t : State} {l k : Link} {p : Placement}

theorem linkLength_follow_le (hs : 0 < step) (h : follow step s k = .ok (t, p)) (l : Link) :
    linkLength step t.blocks l ≤ linkLength step s.blocks l + detour step l p := by
  obtain ⟨rfl, rfl⟩ := follow_eq_ok h
  have hle := s.linkLength_move_le hs k.family (s.target step k) l
  have hne : step ≠ 0 := by omega
  rwa [detour, Pos.value_cell, Int.mul_ediv_cancel _ hne, Int.mul_ediv_cancel _ hne]

/-- A run of moves makes a link no longer than by the cells its moves take one of its blocks. -/
theorem linkLength_followAll_le (hs : 0 < step) {ls : List Link} {ps : List Placement}
    (h : followAll step s ls = .ok (t, ps)) (l : Link) :
    linkLength step t.blocks l ≤ linkLength step s.blocks l + (ps.map (detour step l)).sum := by
  induction ls generalizing s ps with
  | nil => cases h; exact Nat.le_add_right _ _
  | cons k ls ih =>
    obtain ⟨s', p, qs, hk, hls, rfl⟩ := followAll_cons_eq_ok h
    have hfirst := linkLength_follow_le hs hk l
    have hrest := ih hls
    rw [List.map_cons, List.sum_cons]
    omega

variable {S : Type} {style : Style S} {blocks packed : List Block} {placements : List Placement}

/-- Packing makes a link longer only by the moves made for other links. -/
theorem linkLength_pack_le (hs : 0 < style.gridStep)
    (h : pack style blocks = .ok (packed, placements)) {done rest : List Link}
    (hl : Link.find blocks = done ++ l :: rest) :
    ∃ ps p qs, placements = ps ++ p :: qs ∧ ps.length = done.length ∧ p.anchor = l.anchor ∧
      p.family = l.family ∧ linkLength style.gridStep packed l ≤
        linkLength style.gridStep blocks l + ((ps ++ qs).map (detour style.gridStep l)).sum := by
  obtain ⟨hn, -⟩ | ⟨s, s', hstart, hall, rfl⟩ := pack_eq_ok h
  · simp [hn] at hl
  · rw [hl] at hall
    obtain ⟨s₁, ps, rs, hdone, hrest, rfl, hlen⟩ := followAll_append_eq_ok hall
    obtain ⟨s₂, p, qs, hfollow, hlast, rfl⟩ := followAll_cons_eq_ok hrest
    have hb := blocks_start hstart
    have hvalid := Link.valid_of_mem_find (hl ▸ List.mem_append_right done List.mem_cons_self)
    have hlt : l.family < s₁.blocks.length := by
      rw [State.length_blocks_followAll hdone, hb]
      exact hvalid.2
    -- Only before and after its own turn may the link get longer.
    have happ := follow_approaches hs hvalid.1 hlt hfollow
    have hbefore := linkLength_followAll_le hs hdone l
    have hown : linkLength style.gridStep s₂.blocks l ≤ linkLength style.gridStep s₁.blocks l :=
      happ.notFurther
    have hafter := linkLength_followAll_le hs hlast l
    refine ⟨ps, p, qs, rfl, hlen, happ.sides.1, happ.sides.2, ?_⟩
    rw [List.map_append, List.sum_append]
    rw [hb] at hbefore
    omega

end Packing

namespace Layout

open Packing

variable {settings : Settings Binary32} {ratio : Binary32} {document : Snapshot}
  {packed : List Block}

/-- In a drawing with packing no link is longer than between the stacked blocks, but for the cells by
which the moves made for other links take its blocks. Where none of them takes one, it is not longer
at all. -/
theorem align_linkLength_le (hpack : settings.pack) (h : align settings ratio document = .ok packed) :
    ∃ blocks placements, (stacked settings ratio document).run = .ok blocks ∧
      pack settings.style blocks = .ok (packed, placements) ∧
      ∀ done l rest, Link.find blocks = done ++ l :: rest →
        ∃ ps p qs, placements = ps ++ p :: qs ∧ ps.length = done.length ∧ p.anchor = l.anchor ∧
          p.family = l.family ∧
          linkLength settings.style.gridStep packed l ≤ linkLength settings.style.gridStep blocks l +
            ((ps ++ qs).map (detour settings.style.gridStep l)).sum ∧
          ((∀ q ∈ ps ++ qs, q.family = l.anchor ∨ q.family = l.family → q.offset = ⟨0, 0⟩) →
            linkLength settings.style.gridStep packed l ≤
              linkLength settings.style.gridStep blocks l) := by
  obtain ⟨hs, hd⟩ := align_eq_ok h
  obtain ⟨blocks, hb, hd⟩ := exists_of_bind_eq_ok hd
  rw [if_pos hpack] at hd
  obtain ⟨⟨moved, placements⟩, hp, hd⟩ := exists_of_bind_eq_ok hd
  cases hd
  refine ⟨blocks, placements, hb, hp, fun done l rest hl => ?_⟩
  obtain ⟨ps, p, qs, hps, hlen, ha, hf, hle⟩ := linkLength_pack_le hs hp hl
  refine ⟨ps, p, qs, hps, hlen, ha, hf, hle, fun hstay => ?_⟩
  have hz : ((ps ++ qs).map (detour settings.style.gridStep l)).sum = 0 :=
    List.sum_eq_zero (List.forall_mem_map.mpr fun q hq => detour_of_zero (hstay q hq))
  rwa [hz] at hle

/-- A family with two roots, each of whom is a child of another family. -/
def twoHomes : String := "Lee\nA = X Ray\n\nRay\nX =\n\nY =\n\nMoss\nC = Y Ray\n"

/-- Two links to one block. The first one leaves it where it is and the second one moves it. -/
structure TwoLinks (blocks packed : List Block) (l k : Link) : Prop where
  found : Link.find blocks = [l, k]
  before : linkLength 30 blocks l = 3 ∧ linkLength 30 blocks k = 7
  after : linkLength 30 packed l = 10 ∧ linkLength 30 packed k = 4
  moves : pack (default : Style Binary32) blocks =
    .ok (packed, [⟨0, 1, ⟨0, 0⟩⟩, ⟨2, 1, ⟨60, 150⟩⟩])

theorem align_eq_ok_of_pack {blocks : List Block} {placements : List Placement}
    (hr : ratio.isPositive) (hs : 0 < settings.style.gridStep) (hp : settings.pack)
    (hb : (stacked settings ratio document).run = .ok blocks)
    (h : pack settings.style blocks = .ok (packed, placements)) :
    align settings ratio document = .ok packed := by
  rw [align, if_neg (by simp [hr]), if_neg (Int.not_le.mpr hs), drawn, hb]
  simp [bind, Except.bind, hp, h, pure, Except.pure, Except.mapError]

theorem exists_twoLinks_twoHomes : ∃ s blocks packed l k,
    (Snapshot.parse twoHomes).map (·.1) = .ok s ∧
      (stacked default (Binary32.ofInt 1) s).run = .ok blocks ∧
      align default (Binary32.ofInt 1) s = .ok packed ∧ TwoLinks blocks packed l k := by
  have hp : ((Snapshot.parse twoHomes).map fun s =>
      ((stacked default (Binary32.ofInt 1) s.1).run.map fun blocks =>
        ((Link.find blocks).map (linkLength 30 blocks),
          ((pack (default : Style Binary32) blocks).map fun r =>
            (r.2, (Link.find blocks).map (linkLength 30 r.1))).toOption)).toOption).toOption =
      some (some ([3, 7], some ([⟨0, 1, ⟨0, 0⟩⟩, ⟨2, 1, ⟨60, 150⟩⟩], [10, 4]))) := by decide +kernel
  obtain ⟨s, hs, hp⟩ := eq_ok_of_toOption_map hp
  obtain ⟨blocks, hb, hp⟩ := eq_ok_of_toOption_map hp
  obtain ⟨hbefore, hp⟩ := Prod.mk.inj hp
  obtain ⟨⟨packed, placements⟩, hpack, hp⟩ := eq_ok_of_toOption_map hp
  obtain ⟨rfl, hafter⟩ := Prod.mk.inj hp
  obtain ⟨l, ls, hfound, hl, hls⟩ := List.map_eq_cons_iff.mp hbefore
  obtain ⟨k, ks, rfl, hk, hks⟩ := List.map_eq_cons_iff.mp hls
  obtain rfl := List.map_eq_nil_iff.mp hks
  simp only [hfound, List.map_cons, List.map_nil, List.cons.injEq, and_true] at hafter
  refine ⟨s.1, blocks, packed, l, k, by rw [hs]; rfl, hb, ?_, hfound, ⟨hl, hk⟩, hafter, hpack⟩
  exact align_eq_ok_of_pack (by decide +kernel) (by decide) rfl hb hpack

/-- The first link moved nothing, so the second one is not longer than before. -/
theorem align_linkLength_le_twoHomes : ∃ s blocks packed l k,
    align default (Binary32.ofInt 1) s = .ok packed ∧ TwoLinks blocks packed l k ∧
      linkLength 30 packed k ≤ linkLength 30 blocks k := by
  obtain ⟨s, blocks, packed, l, k, -, hb, ha, ht⟩ := exists_twoLinks_twoHomes
  obtain ⟨blocks', placements, hb', hp, hall⟩ := align_linkLength_le rfl ha
  obtain rfl : blocks = blocks' := Except.ok.inj (hb.symm.trans hb')
  obtain ⟨ps, p, qs, hps, hlen, -, -, -, hle⟩ := hall [l] k [] ht.found
  obtain rfl := (Prod.mk.inj (Except.ok.inj (ht.moves.symm.trans hp))).2
  refine ⟨s, blocks, packed, l, k, ha, ht, hle fun q hq _ => ?_⟩
  obtain ⟨q', rfl⟩ := List.length_eq_one_iff.mp hlen
  cases hps
  obtain rfl := List.mem_singleton.mp hq
  rfl

/-- The second link moves the block away from where the first one has it. -/
theorem align_longer_twoHomes :
    (Session.validated "").toOption = some default ∧ (default : Settings Binary32).pack ∧
      ∃ s blocks packed l, (Snapshot.parse twoHomes).map (·.1) = .ok s ∧
        (stacked default (Binary32.ofInt 1) s).run = .ok blocks ∧
        align default (Binary32.ofInt 1) s = .ok packed ∧ l ∈ Link.find blocks ∧
        linkLength 30 blocks l = 3 ∧ linkLength 30 packed l = 10 ∧
        ¬linkLength 30 packed l ≤ linkLength 30 blocks l := by
  obtain ⟨s, blocks, packed, l, k, hs, hb, ha, ht⟩ := exists_twoLinks_twoHomes
  refine ⟨by decide +kernel, rfl, s, blocks, packed, l, hs, hb, ha, ?_, ht.before.1, ht.after.1, ?_⟩
  · exact ht.found ▸ List.mem_cons_self
  · rw [ht.before.1, ht.after.1]
    decide

end Layout

end Pedigree
