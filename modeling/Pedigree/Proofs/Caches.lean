import Pedigree.Packing.Placement
import Pedigree.Proofs.Cells
import Pedigree.Proofs.Faultless
import Pedigree.Proofs.Linked
import Pedigree.Proofs.OffsetSearch

/-! What packing remembers is true after every move: which cells each block takes, and that no two
blocks take the same one. So staying is always possible, and a block only moves to come closer. -/
namespace Pedigree

open Drawing Checked

namespace Packing

/-- The blocks take different cells. -/
def Apart {S : Type} (style : Style S) (blocks : List Block) : Prop :=
  ∀ (i j : Nat) (b b' : Block), i ≠ j → blocks[i]? = some b → blocks[j]? = some b' →
    ∀ c, (Figure.cells style b).value.contains c → ¬(Figure.cells style b').value.contains c

namespace State

/-- What is remembered is what the blocks take. -/
structure Exact {S : Type} (style : Style S) (s : State) : Prop where
  length : s.own.length = s.blocks.length
  own : ∀ i b, s.blocks[i]? = some b →
    ∀ c, (s.cellsOf i).contains c = (Figure.cells style b).value.contains c
  occupied : ∀ c, s.occupied.contains c ↔ ∃ i, (s.cellsOf i).contains c
  apart : ∀ i j c, i ≠ j → (s.cellsOf i).contains c → ¬(s.cellsOf j).contains c

def others (s : State) (i : Nat) : Region := Region.diff s.occupied (s.cellsOf i)

def move (step : Int) (s : State) (i : Nat) (cells : Pos) : State where
  blocks := s.blocks.modify i
    (·.moveTo ⟨(s.originOf i).x + cells.x * step, (s.originOf i).y + cells.y * step⟩)
  own := s.own.set i ((s.cellsOf i).shift cells)
  occupied := (s.cellsOf i).shift cells ++ s.others i

theorem cellsOf_of_length_le {s : State} {i : Nat} (h : s.own.length ≤ i) : s.cellsOf i = [] := by
  rw [cellsOf, List.getElem?_eq_none h, Option.getD_none]

theorem cellsOf_move (step : Int) (s : State) (i j : Nat) (cells : Pos) :
    (s.move step i cells).cellsOf j =
      if i = j then (s.cellsOf i).shift cells else s.cellsOf j := by
  unfold move
  rw [cellsOf, List.getElem?_set]
  split
  · next h =>
    subst h
    by_cases hi : i < s.own.length
    · simp [hi]
    · rw [cellsOf_of_length_le (Nat.le_of_not_lt hi)]
      simp [hi, Region.shift]
  · rfl

theorem originOf_move (step : Int) (s : State) (i j : Nat) (cells : Pos) :
    (s.move step i cells).originOf j = if i = j ∧ i < s.blocks.length then
      ⟨(s.originOf i).x + cells.x * step, (s.originOf i).y + cells.y * step⟩
    else s.originOf j := by
  unfold move originOf
  rw [List.getElem?_modify]
  by_cases hij : i = j
  · subst hij
    by_cases hi : i < s.blocks.length
    · simp [hi, Block.origin, Block.moveTo, Rect.origin, Rect.withOrigin]
    · simp [hi]
  · simp [hij]

variable {S : Type} {style : Style S}

theorem not_contains_others {s : State} {i : Nat} {c : Pos}
    (hc : (s.cellsOf i).contains c) : ¬(s.others i).contains c := by
  rw [others, Region.contains_diff]
  exact fun ⟨_, hn⟩ => hn hc

theorem Exact.contains_others {s : State} (h : s.Exact style) {i : Nat} {c : Pos} :
    (s.others i).contains c ↔ ∃ j, j ≠ i ∧ (s.cellsOf j).contains c := by
  rw [others, Region.contains_diff, h.occupied]
  constructor
  · rintro ⟨⟨j, hj⟩, hn⟩
    refine ⟨j, ?_, hj⟩
    rintro rfl
    exact hn hj
  · rintro ⟨j, hne, hj⟩
    exact ⟨⟨j, hj⟩, h.apart j i c hne hj⟩

/-- Every block can stay where it is. -/
theorem fits_zero (s : State) (i : Nat) : fits (s.others i) (s.cellsOf i) ⟨0, 0⟩ :=
  fits_zero_iff.2 fun _ hc => not_contains_others hc

theorem Exact.move_own {s : State} (h : s.Exact style) (hs : 0 < style.gridStep) (i : Nat)
    (cells : Pos) (j : Nat) (b : Block)
    (hb : (s.move style.gridStep i cells).blocks[j]? = some b) (c : Pos) :
    ((s.move style.gridStep i cells).cellsOf j).contains c =
      (Figure.cells style b).value.contains c := by
  rw [cellsOf_move]
  unfold move at hb
  rw [List.getElem?_modify] at hb
  split at hb
  · next hij =>
    subst hij
    obtain ⟨a, ha, rfl⟩ := Option.map_eq_some_iff.1 hb
    have ho : s.originOf i = a.origin := by simp [originOf, ha]
    rw [if_pos rfl, Region.contains_shift, h.own i a ha, ho]
    exact (Figure.contains_cells_moveTo hs a cells c).symm
  · next hij =>
    obtain ⟨a, ha, rfl⟩ := Option.map_eq_some_iff.1 hb
    rw [if_neg hij]
    exact h.own j a ha c

/-- A move to cells that the others leave free keeps everything true. -/
theorem Exact.move {s : State} (h : s.Exact style) (hs : 0 < style.gridStep) {i : Nat}
    {cells : Pos} (hf : fits (s.others i) (s.cellsOf i) cells) :
    (s.move style.gridStep i cells).Exact style := by
  have free (c : Pos) (hc : ((s.cellsOf i).shift cells).contains c) (j : Nat) (hj : i ≠ j) :
      ¬(s.cellsOf j).contains c := by
    rw [Region.contains_shift] at hc
    intro hn
    exact fits_iff.1 hf c hc (h.contains_others.2 ⟨j, hj.symm, hn⟩)
  refine ⟨?_, h.move_own hs i cells, fun c => ?_, fun j k c hjk hj => ?_⟩
  · simp [State.move, h.length]
  · -- The taken cells are made anew: those of the others and the moved ones.
    have split : (s.move style.gridStep i cells).occupied.contains c ↔
        ((s.cellsOf i).shift cells).contains c ∨ ∃ j, j ≠ i ∧ (s.cellsOf j).contains c := by
      rw [State.move, Region.contains_append, Bool.or_eq_true, h.contains_others]
    rw [split]
    constructor
    · rintro (hc | ⟨j, hj, hc⟩)
      · exact ⟨i, by rwa [cellsOf_move, if_pos rfl]⟩
      · exact ⟨j, by rwa [cellsOf_move, if_neg hj.symm]⟩
    · rintro ⟨j, hc⟩
      rw [cellsOf_move] at hc
      split at hc
      · exact Or.inl hc
      · next hj => exact Or.inr ⟨j, Ne.symm hj, hc⟩
  · rw [cellsOf_move] at hj ⊢
    split at hj
    · next hij =>
      subst hij
      rw [if_neg hjk]
      exact free c hj k hjk
    · next hij =>
      split
      · exact fun hc => free c hc j hij hj
      · exact h.apart j k c hjk hj

/-- The cells by which the dependent block of a link moves. -/
def target (step : Int) (s : State) (l : Link) : Pos :=
  searchOffset (s.others l.family) (s.cellsOf l.family) (distance step s l).value

/-- The search never leaves the diamond of the offsets that are no longer than the way. -/
theorem bestWithin_eq_target (step : Int) (s : State) (l : Link) :
    bestWithin (s.others l.family) (s.cellsOf l.family) (distance step s l).value =
        some (s.target step l) ∧
      fits (s.others l.family) (s.cellsOf l.family) (s.target step l) ∧
      (s.target step l = ⟨0, 0⟩ ∨
        left (distance step s l).value (s.target step l) < (distance step s l).value.length) := by
  obtain ⟨offset, hb, hf, hc⟩ := bestWithin_of_fits_zero (distance step s l).value
    (s.fits_zero l.family)
  have ht : s.target step l = offset := searchOffset_of_bestWithin hb
  rw [ht]
  exact ⟨hb, hf, hc⟩

theorem value_distance (step : Int) (s : State) (l : Link) :
    (distance step s l).value =
      ⟨((s.originOf l.anchor).x + (l.person.x + l.person.width.tdiv 2)) / step -
          ((s.originOf l.family).x + (l.root.x + l.root.width.tdiv 2)) / step,
        ((s.originOf l.anchor).y + l.person.y) / step -
          ((s.originOf l.family).y + l.root.y) / step⟩ := by
  simp [distance, Figure.anchorCell, Rect.corner]

theorem cell_shifted {step : Int} (hs : 0 < step) (a k b : Int) :
    (a + k * step + b) / step = (a + b) / step + k := by
  rw [Int.add_right_comm]
  exact Int.add_mul_ediv_right _ _ (by omega)

/-- A move shortens the way between the linked cells by just as many cells. -/
theorem distance_move {step : Int} (hs : 0 < step) (s : State) {l : Link}
    (hne : l.anchor ≠ l.family) (hl : l.family < s.blocks.length) (cells : Pos) :
    (distance step (s.move step l.family cells) l).value.length =
      left (distance step s l).value cells := by
  rw [value_distance, value_distance, originOf_move, originOf_move, if_neg (fun h => hne h.1.symm),
    if_pos ⟨rfl, hl⟩, cell_shifted hs, cell_shifted hs, left]
  congr 2
  · exact (Int.sub_sub _ _ _).symm
  · exact (Int.sub_sub _ _ _).symm

end State

theorem follow_eq_ok {step : Int} {s s' : State} {l : Link} {p : Placement}
    (h : follow step s l = .ok (s', p)) : s' = s.move step l.family (s.target step l) ∧
      p = ⟨l.anchor, l.family, ⟨(s.target step l).x * step, (s.target step l).y * step⟩⟩ := by
  unfold follow at h
  obtain ⟨-, h⟩ := run_bind_eq_ok.1 h
  obtain ⟨-, h⟩ := run_bind_eq_ok.1 h
  obtain ⟨-, h⟩ := run_bind_eq_ok.1 h
  obtain ⟨-, h⟩ := run_bind_eq_ok.1 h
  cases h
  exact ⟨rfl, rfl⟩

theorem followAll_cons_eq_ok {step : Int} {s t : State} {l : Link} {ls : List Link}
    {rs : List Placement} (h : followAll step s (l :: ls) = .ok (t, rs)) :
    ∃ s' p ps, follow step s l = .ok (s', p) ∧ followAll step s' ls = .ok (t, ps) ∧
      rs = p :: ps := by
  rw [followAll] at h
  obtain ⟨⟨s', p⟩, hl, h⟩ := exists_of_bind_eq_ok h
  obtain ⟨⟨t', ps⟩, hls, h⟩ := exists_of_bind_eq_ok h
  cases h
  exact ⟨s', p, ps, hl, hls, rfl⟩

theorem followAll_append_eq_ok {step : Int} {s t : State} {ks ls : List Link}
    {rs : List Placement} (h : followAll step s (ks ++ ls) = .ok (t, rs)) :
    ∃ s' ps qs, followAll step s ks = .ok (s', ps) ∧ followAll step s' ls = .ok (t, qs) ∧
      rs = ps ++ qs ∧ ps.length = ks.length := by
  induction ks generalizing s rs with
  | nil => exact ⟨s, [], rs, rfl, h, rfl, rfl⟩
  | cons k ks ih =>
    obtain ⟨s₁, p, ps₁, hk, hks, rfl⟩ := followAll_cons_eq_ok h
    obtain ⟨s', ps, qs, hps, hqs, rfl, hl⟩ := ih hks
    refine ⟨s', p :: ps, qs, ?_, hqs, rfl, by rw [List.length_cons, hl, List.length_cons]⟩
    rw [followAll, hk]
    simp [bind, Except.bind, hps, pure, Except.pure]

variable {S : Type} {style : Style S}

namespace State

theorem Exact.follow {s s' : State} (h : s.Exact style) (hs : 0 < style.gridStep) {l : Link}
    {p : Placement} (hf : follow style.gridStep s l = .ok (s', p)) : s'.Exact style := by
  obtain ⟨rfl, -⟩ := follow_eq_ok hf
  exact h.move hs (s.bestWithin_eq_target style.gridStep l).2.1

theorem Exact.followAll {s s' : State} (h : s.Exact style) (hs : 0 < style.gridStep)
    {ls : List Link} {ps : List Placement}
    (hf : followAll style.gridStep s ls = .ok (s', ps)) : s'.Exact style := by
  induction ls generalizing s ps with
  | nil => cases hf; exact h
  | cons l ls ih =>
    obtain ⟨t, p, qs, hl, hls, -⟩ := followAll_cons_eq_ok hf
    exact ih (h.follow hs hl) hls

theorem length_blocks_followAll {step : Int} {s s' : State} {ls : List Link} {ps : List Placement}
    (hf : Packing.followAll step s ls = .ok (s', ps)) : s'.blocks.length = s.blocks.length := by
  induction ls generalizing s ps with
  | nil => cases hf; rfl
  | cons l ls ih =>
    obtain ⟨t, p, qs, hl, hls, -⟩ := followAll_cons_eq_ok hf
    obtain ⟨rfl, -⟩ := follow_eq_ok hl
    rw [ih hls, move, List.length_modify]

theorem Exact.blocks_apart {s : State} (h : s.Exact style) : Apart style s.blocks := by
  intro i j b b' hij hb hb' c hc
  rw [← h.own i b hb] at hc
  rw [← h.own j b' hb']
  exact h.apart i j c hij hc

end State

theorem blocks_start {blocks : List Block} {s : State} (h : start style blocks = .ok s) :
    s.blocks = blocks := by
  obtain ⟨-, h⟩ := run_bind_eq_ok.1 h
  cases h
  rfl

theorem start_exact {blocks : List Block} {s : State} (ha : Apart style blocks)
    (h : start style blocks = .ok s) : s.Exact style ∧ s.blocks = blocks := by
  obtain ⟨-, h⟩ := run_bind_eq_ok.1 h
  cases h
  have own (i : Nat) (c : Pos) :
      (State.cellsOf ⟨blocks, (blocks.mapM (Figure.cells style)).value,
        (blocks.mapM (Figure.cells style)).value.flatten⟩ i).contains c ↔
      ∃ b, blocks[i]? = some b ∧ (Figure.cells style b).value.contains c := by
    rw [State.cellsOf, value_mapM, List.getElem?_map]
    cases blocks[i]? <;> simp [Region.contains]
  refine ⟨⟨by simp, fun i b hb c => ?_, fun c => ?_, fun i j c hij hi hj => ?_⟩, rfl⟩
  · rw [Bool.eq_iff_iff, own]
    simp [hb]
  · simp only [own]
    simp only [value_mapM, Region.contains_iff, List.mem_flatten, List.mem_map]
    constructor
    · rintro ⟨t, ⟨r, ⟨b, hb, rfl⟩, ht⟩, hc⟩
      obtain ⟨i, hi⟩ := List.getElem?_of_mem hb
      exact ⟨i, b, hi, t, ht, hc⟩
    · rintro ⟨i, b, hb, t, ht, hc⟩
      exact ⟨t, ⟨_, ⟨b, List.mem_of_getElem? hb, rfl⟩, ht⟩, hc⟩
  · obtain ⟨b, hb, hc⟩ := (own i c).1 hi
    obtain ⟨b', hb', hc'⟩ := (own j c).1 hj
    exact ha i j b b' hij hb hb' c hc hc'

theorem pack_eq_ok {blocks packed : List Block} {placements : List Placement}
    (h : pack style blocks = .ok (packed, placements)) :
    (Link.find blocks = [] ∧ packed = blocks ∧ placements = []) ∨
      ∃ s s', start style blocks = .ok s ∧
        followAll style.gridStep s (Link.find blocks) = .ok (s', placements) ∧
        packed = s'.blocks := by
  unfold pack at h
  split at h
  · next hl => cases h; exact Or.inl ⟨hl, rfl, rfl⟩
  · obtain ⟨s, hs, h⟩ := exists_of_bind_eq_ok h
    obtain ⟨⟨s', ps⟩, hf, h⟩ := exists_of_bind_eq_ok h
    cases h
    exact Or.inr ⟨s, s', hs, hf, rfl⟩

theorem Apart.pack {blocks packed : List Block} {placements : List Placement}
    (ha : Apart style blocks) (hs : 0 < style.gridStep)
    (h : pack style blocks = .ok (packed, placements)) : Apart style packed := by
  obtain ⟨-, rfl, -⟩ | ⟨s, s', hstart, hall, rfl⟩ := pack_eq_ok h
  · exact ha
  · exact ((start_exact ha hstart).1.followAll hs hall).blocks_apart

/-- A move on the grid, of the block and of its remembered cells, that never takes the linked cells
further apart. -/
structure Approaches (step : Int) (s s' : State) (l : Link) (p : Placement) : Prop where
  sides : p.anchor = l.anchor ∧ p.family = l.family
  origin : s'.originOf l.family =
    ⟨(s.originOf l.family).x + p.offset.x, (s.originOf l.family).y + p.offset.y⟩
  onGrid : ∃ cells : Pos, p.offset = ⟨cells.x * step, cells.y * step⟩ ∧
    s'.cellsOf l.family = (s.cellsOf l.family).shift cells
  notFurther : (distance step s' l).value.length ≤ (distance step s l).value.length
  closer : p.offset ≠ ⟨0, 0⟩ →
    (distance step s' l).value.length < (distance step s l).value.length

theorem follow_approaches {step : Int} (hs : 0 < step) {s s' : State} {l : Link} {p : Placement}
    (hne : l.anchor ≠ l.family) (hl : l.family < s.blocks.length)
    (h : follow step s l = .ok (s', p)) : Approaches step s s' l p := by
  obtain ⟨rfl, rfl⟩ := follow_eq_ok h
  obtain ⟨-, -, hc⟩ := s.bestWithin_eq_target step l
  have moved := s.distance_move hs hne hl (s.target step l)
  refine ⟨⟨rfl, rfl⟩, ?_, ⟨_, rfl, ?_⟩, ?_, fun hp => ?_⟩
  · rw [State.originOf_move, if_pos ⟨rfl, hl⟩]
  · rw [State.cellsOf_move, if_pos rfl]
  · rw [moved]
    obtain hz | hc := hc
    · exact Nat.le_of_eq (by rw [hz, left_zero])
    · exact Nat.le_of_lt hc
  · rw [moved]
    obtain hz | hc := hc
    · rw [hz] at hp
      exact absurd (by simp) hp
    · exact hc

/-- After every link the caches are true: each block takes the cells remembered for it, the taken
cells are those of all blocks, and no two blocks share one. On the way to it, staying was possible,
the search ended within the diamond, and the block moved on the grid to come closer or stayed. -/
theorem pack_exact_after_every_link (hs : 0 < style.gridStep) {blocks packed : List Block}
    {placements : List Placement} (ha : Apart style blocks)
    (h : pack style blocks = .ok (packed, placements)) {done rest : List Link} {l : Link}
    (hl : Link.find blocks = done ++ l :: rest) :
    ∃ s₀ s s' ps p qs, start style blocks = .ok s₀ ∧
      followAll style.gridStep s₀ done = .ok (s, ps) ∧
      follow style.gridStep s l = .ok (s', p) ∧ placements = ps ++ p :: qs ∧
      (rest = [] → packed = s'.blocks) ∧ s₀.Exact style ∧ s.Exact style ∧ s'.Exact style ∧
      fits (s.others l.family) (s.cellsOf l.family) ⟨0, 0⟩ ∧
      (bestWithin (s.others l.family) (s.cellsOf l.family)
        (distance style.gridStep s l).value).isSome ∧
      Approaches style.gridStep s s' l p := by
  obtain ⟨hn, -⟩ | ⟨s₀, t, hstart, hall, rfl⟩ := pack_eq_ok h
  · rw [hn] at hl
    exact absurd hl.symm (by simp)
  · rw [hl] at hall
    obtain ⟨s, ps, rs, hdone, hrest, rfl, -⟩ := followAll_append_eq_ok hall
    obtain ⟨s', p, qs, hfollow, hlast, rfl⟩ := followAll_cons_eq_ok hrest
    obtain ⟨he, hb⟩ := start_exact ha hstart
    have hmem : l ∈ Link.find blocks := by rw [hl]; simp
    have hvalid := Link.valid_of_mem_find hmem
    have hlt : l.family < s.blocks.length := by
      rw [State.length_blocks_followAll hdone, hb]
      exact hvalid.2
    refine ⟨s₀, s, s', ps, p, qs, hstart, hdone, hfollow, rfl, fun hr => ?_, he,
      he.followAll hs hdone, (he.followAll hs hdone).follow hs hfollow, s.fits_zero l.family, ?_,
      follow_approaches hs hvalid.1 hlt hfollow⟩
    · subst hr
      cases hlast
      rfl
    · rw [(s.bestWithin_eq_target style.gridStep l).1]
      rfl

theorem apart_pair {a b : Block}
    (h : Region.meets (Figure.cells style a).value (Figure.cells style b).value = false) :
    Apart style [a, b] := by
  have miss (c : Pos) (ha : (Figure.cells style a).value.contains c)
      (hb : (Figure.cells style b).value.contains c) : False := by
    rw [Region.meets_iff.2 ⟨c, ha, hb⟩] at h
    cases h
  intro i j x y hij hx hy c hc hc'
  match i, j with
  | 0, 0 => exact hij rfl
  | 0, 1 => cases hx; cases hy; exact miss c hc hc'
  | 1, 0 => cases hx; cases hy; exact miss c hc' hc
  | 1, 1 => exact hij rfl
  | i + 2, _ => cases hx
  | 0, j + 2 | 1, j + 2 => cases hy

/-- A child of the first block is the right one of the two roots of the second, which stands
below. -/
def childBelow : List Block :=
  let root (x : Int) (name : String) (children : List Person) : Root :=
    ⟨⟨x, 51, 88, 85⟩, ⟨⟨x, 51, 88, 30⟩, name, false, some ⟨name⟩, children⟩⟩
  [⟨⟨0, 0, 108, 146⟩, ⟨⟨14, 10, 80, 16⟩, "Smith"⟩,
      [root 10 "John" [⟨⟨10, 106, 88, 30⟩, "Alice", false, some ⟨"Alice"⟩, []⟩]], []⟩,
    ⟨⟨0, 146, 211, 91⟩, ⟨⟨65, 10, 80, 16⟩, "Jones"⟩, [root 10 "Carl" [], root 113 "Alice" []], []⟩]

theorem pack_exact_after_link_of_childBelow :
    Apart (default : Style Binary32) childBelow ∧ ∃ packed l,
      pack (default : Style Binary32) childBelow = .ok (packed, [⟨0, 1, ⟨-120, 0⟩⟩]) ∧
      Link.find childBelow = [l] ∧ ∃ s s' p, follow 30 s l = .ok (s', p) ∧
        p.offset = ⟨-120, 0⟩ ∧ s'.Exact (default : Style Binary32) ∧ Approaches 30 s s' l p := by
  have ha : Apart (default : Style Binary32) childBelow := apart_pair (by decide +kernel)
  have hp : ((pack (default : Style Binary32) childBelow).map (·.2)).toOption =
      some [⟨0, 1, ⟨-120, 0⟩⟩] := by decide +kernel
  have hl : ∃ l, Link.find childBelow = [l] :=
    ⟨⟨0, 1, ⟨10, 106, 88, 30⟩, ⟨113, 51, 88, 30⟩⟩, by decide +kernel⟩
  obtain ⟨l, hl⟩ := hl
  cases h : pack (default : Style Binary32) childBelow with
  | error f => rw [h] at hp; cases hp
  | ok r =>
    obtain ⟨packed, placements⟩ := r
    rw [h] at hp
    cases hp
    obtain ⟨s₀, s, s', ps, p, qs, -, hd, hf, hps, -, -, -, he, -, -, hm⟩ :=
      @pack_exact_after_every_link _ default (by decide) _ _ _ ha h [] [] _ hl
    cases hd
    cases hps
    exact ⟨ha, packed, l, rfl, hl, _, s', _, hf, rfl, he, hm⟩

end Packing

end Pedigree
