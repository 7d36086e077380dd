import Mathlib
import Pedigree.Proofs.Contours

/-! How often a line of points crosses a row, counted downwards, on one side of a place. The border
of bands that hang together crosses each row once down on the left of whatever stands in a bar, and
once up on its right. -/
namespace Pedigree

open Checked

namespace Drawing

/-- One step across a row of units: `1` downwards, `-1` upwards. -/
def crossing (y : Int) (p q : Pos) : Int :=
  if p.y ≤ y ∧ y < q.y then 1 else if q.y ≤ y ∧ y < p.y then -1 else 0

/-- All steps from point to point across a row, of those that stay where they are counted. -/
def crossings (keep : Int → Bool) (y : Int) : List Pos → Int
  | p :: q :: rest =>
    (if keep p.x && keep q.x then crossing y p q else 0) + crossings keep y (q :: rest)
  | _ => 0

theorem crossing_of_level {y : Int} {p q : Pos} (h : p.y = q.y) : crossing y p q = 0 := by
  unfold crossing
  rw [h, if_neg (by omega), if_neg (by omega)]

section

variable {keep : Int → Bool} {y : Int}

theorem crossings_cons_of_level {p q : Pos} {rest : List Pos} (h : p.y = q.y) :
    crossings keep y (p :: q :: rest) = crossings keep y (q :: rest) := by
  rw [crossings, crossing_of_level h]
  split <;> omega

theorem crossings_eraseReps (ps : List Pos) :
    crossings keep y ps.eraseReps = crossings keep y ps := by
  induction ps with
  | nil => rfl
  | cons p ps ih =>
    cases ps with
    | nil => rfl
    | cons q qs =>
      rw [eraseReps_cons_cons]
      split
      · next h => rw [ih, crossings_cons_of_level (congrArg Pos.y h)]
      · obtain ⟨rs, hrs⟩ := head_eraseReps q qs
        rw [hrs] at ih ⊢
        rw [crossings, crossings, ih]

/-- Where one line of points ends as high as the next one starts, their crossings add up. -/
theorem crossings_append {ps qs : List Pos}
    (h : ∀ p ∈ ps.getLast?, ∀ q ∈ qs.head?, p.y = q.y) :
    crossings keep y (ps ++ qs) = crossings keep y ps + crossings keep y qs := by
  induction ps with
  | nil => simp [crossings]
  | cons p ps ih =>
    cases ps with
    | nil =>
      cases qs with
      | nil => rfl
      | cons q qs =>
        have hz : crossings keep y [p] = 0 := rfl
        rw [List.singleton_append, crossings_cons_of_level (h p rfl q rfl), hz, Int.zero_add]
    | cons p' ps =>
      have ih := ih fun a ha => h a (by rw [List.getLast?_cons_cons]; exact ha)
      rw [List.cons_append, List.cons_append, crossings, crossings, ← List.cons_append, ih]
      omega

/-- What the two sides of a bar count for. -/
def sideSum (keep : Int → Bool) (b : Bar) : Int :=
  (if keep b.x then 1 else 0) - if keep b.stop then 1 else 0

namespace Border

def Band.Has (B : Band) (y : Int) : Prop := B.y ≤ y ∧ y < B.bottom

instance (B : Band) (y : Int) : Decidable (B.Has y) := inferInstanceAs (Decidable (_ ∧ _))

/-- What bars of a band count for in a row. -/
def tally (keep : Int → Bool) (y : Int) (B : Band) (bs : List (Bar × Nat)) : Int :=
  if B.Has y then (bs.map fun b => sideSum keep b.1).sum else 0

/-- What bars of a band and everything that hangs there count for in a row. -/
def tallies (keep : Int → Bool) (y : Int) (B : Band) (bs : List (Bar × Nat)) : List Band → Int
  | [] => tally keep y B bs
  | C :: rest => tally keep y B bs + tallies keep y C (bs.flatMap (hanging C.bars)) rest

theorem tally_append (B : Band) (bs cs : List (Bar × Nat)) :
    tally keep y B (bs ++ cs) = tally keep y B bs + tally keep y B cs := by
  unfold tally
  split
  · rw [List.map_append, List.sum_append]
  · rfl

theorem tallies_append (keep : Int → Bool) (y : Int) (B : Band) (bs cs : List (Bar × Nat))
    (rest : List Band) :
    tallies keep y B (bs ++ cs) rest = tallies keep y B bs rest + tallies keep y B cs rest := by
  induction rest generalizing B bs cs with
  | nil => exact tally_append B bs cs
  | cons C rest ih =>
    rw [tallies, tallies, tallies, List.flatMap_append, ih, tally_append]
    omega

theorem tallies_nil (B : Band) (rest : List Band) : tallies keep y B [] rest = 0 := by
  have h := tallies_append keep y B [] [] rest
  rw [List.append_nil] at h
  omega

/-- Bands in one piece: each starts where the one above ends. -/
def Stacked (bands : List Band) : Prop :=
  (∀ B ∈ bands, B.y ≤ B.bottom) ∧ bands.IsChain fun B C => B.bottom = C.y

theorem crossing_down {B : Band} (hB : B.y ≤ B.bottom) (b : Bar × Nat) :
    crossing y (B.corner .topLeft b).pos (B.corner .bottomLeft b).pos =
      if B.Has y then 1 else 0 := by
  have ht : (B.corner .topLeft b).pos.y = B.y := rfl
  have hb : (B.corner .bottomLeft b).pos.y = B.bottom := rfl
  rw [crossing, ht, hb]
  by_cases h : B.Has y
  · rw [if_pos h]
    exact if_pos h
  · have hy : ¬(B.y ≤ y ∧ y < B.bottom) := h
    rw [if_neg h, if_neg hy, if_neg (by omega)]

theorem crossing_up {B : Band} (hB : B.y ≤ B.bottom) (b : Bar × Nat) :
    crossing y (B.corner .bottomRight b).pos (B.corner .topRight b).pos =
      if B.Has y then -1 else 0 := by
  have ht : (B.corner .topRight b).pos.y = B.y := rfl
  have hb : (B.corner .bottomRight b).pos.y = B.bottom := rfl
  rw [crossing, ht, hb, if_neg (by omega)]
  by_cases h : B.Has y
  · rw [if_pos h]
    exact if_pos h
  · rw [if_neg h]
    exact if_neg h

theorem crossings_bar {B : Band} (hB : B.y ≤ B.bottom) (b : Bar × Nat) {inner : List Vertex}
    (hh : ∀ v ∈ inner.head?, v.pos.y = B.bottom) (hl : ∀ v ∈ inner.getLast?, v.pos.y = B.bottom) :
    crossings keep y ((B.corner .topLeft b :: B.corner .bottomLeft b ::
      (inner ++ [B.corner .bottomRight b, B.corner .topRight b])).map (·.pos)) =
        tally keep y B [b] + crossings keep y (inner.map (·.pos)) := by
  have hlast : crossings keep y
      ([B.corner .bottomRight b, B.corner .topRight b].map (·.pos)) =
        (if keep b.1.stop then if B.Has y then -1 else 0 else 0) := by
    rw [List.map_cons, List.map_cons, crossings, crossing_up hB]
    have hx : (B.corner .bottomRight b).pos.x = b.1.stop := rfl
    have hx' : (B.corner .topRight b).pos.x = b.1.stop := rfl
    rw [hx, hx', Bool.and_self]
    exact Int.add_zero _
  have hinner : crossings keep y
      ((inner ++ [B.corner .bottomRight b, B.corner .topRight b]).map (·.pos)) =
        crossings keep y (inner.map (·.pos)) +
          (if keep b.1.stop then if B.Has y then -1 else 0 else 0) := by
    rw [List.map_append, crossings_append, hlast]
    intro p hp q hq
    rw [List.getLast?_map] at hp
    obtain ⟨v, hv, rfl⟩ := Option.map_eq_some_iff.1 hp
    cases hq
    exact hl v hv
  -- Along the lower side nothing is crossed, whatever hangs there.
  have hbl : crossings keep y ((B.corner .bottomLeft b ::
      (inner ++ [B.corner .bottomRight b, B.corner .topRight b])).map (·.pos)) =
        crossings keep y
          ((inner ++ [B.corner .bottomRight b, B.corner .topRight b]).map (·.pos)) := by
    cases inner with
    | nil => exact crossings_cons_of_level rfl
    | cons v vs => exact crossings_cons_of_level (hh v rfl).symm
  rw [List.map_cons, List.map_cons, crossings, ← List.map_cons, hbl, hinner, crossing_down hB]
  have hx : (B.corner .topLeft b).pos.x = b.1.x := rfl
  have hx' : (B.corner .bottomLeft b).pos.x = b.1.x := rfl
  rw [hx, hx', Bool.and_self]
  unfold tally sideSum
  simp only [List.map_cons, List.map_nil, List.sum_cons, List.sum_nil]
  split <;> split <;> split <;> omega

theorem Stacked.of_cons {B : Band} {rest : List Band} (h : Stacked (B :: rest)) : Stacked rest :=
  ⟨fun C hC => h.1 C (List.mem_cons_of_mem _ hC), h.2.of_cons⟩

theorem y_of_mem_head?_contours (B : Band) (bs : List (Bar × Nat)) (rest : List Band) :
    ∀ v ∈ (contours B bs rest).head?, v.pos.y = B.y := by
  intro v hv
  cases bs with
  | nil =>
    rw [contours_nil] at hv
    cases hv
  | cons b bs =>
    rw [head?_contours] at hv
    cases hv
    rfl

theorem y_of_mem_getLast?_contours (B : Band) (bs : List (Bar × Nat)) (rest : List Band) :
    ∀ v ∈ (contours B bs rest).getLast?, v.pos.y = B.y := by
  intro v hv
  by_cases h : bs = []
  · rw [h, contours_nil] at hv
    cases hv
  · rw [getLast?_contours B rest h] at hv
    cases hv
    rfl

/-- Going around bars one after the other, the crossings of each of them and of what is below it
count. -/
theorem crossings_around {B : Band} (hB : B.y ≤ B.bottom) (inner : Bar × Nat → List Vertex)
    (hh : ∀ b, ∀ v ∈ (inner b).head?, v.pos.y = B.bottom)
    (hl : ∀ b, ∀ v ∈ (inner b).getLast?, v.pos.y = B.bottom) (bs : List (Bar × Nat)) :
    crossings keep y ((around B inner bs).map (·.pos)) = tally keep y B bs +
      (bs.map fun b => crossings keep y ((inner b).map (·.pos))).sum := by
  induction bs with
  | nil =>
    unfold tally
    split <;> rfl
  | cons b bs ih =>
    have he : around B inner (b :: bs) = (B.corner .topLeft b :: B.corner .bottomLeft b ::
        (inner b ++ [B.corner .bottomRight b, B.corner .topRight b])) ++ around B inner bs :=
      List.flatMap_cons
    rw [he, List.map_append, crossings_append, crossings_bar hB b (hh b) (hl b), ih,
      List.map_cons, List.sum_cons]
    · have := @tally_append keep y B [b] bs
      rw [List.singleton_append] at this
      omega
    · intro p hp q hq
      have hp : p = (B.corner .topRight b).pos := by
        simpa [List.getLast?_cons] using hp.symm
      cases bs with
      | nil => cases hq
      | cons c cs =>
        cases hq
        rw [hp]
        rfl

theorem crossings_contours {B : Band} {rest : List Band} (h : Stacked (B :: rest))
    (bs : List (Bar × Nat)) :
    crossings keep y ((contours B bs rest).map (·.pos)) = tallies keep y B bs rest := by
  induction rest generalizing B bs with
  | nil =>
    have hz : (bs.map fun _ => crossings keep y (([] : List Vertex).map (·.pos))).sum = 0 :=
      List.sum_eq_zero fun n hn => by
        obtain ⟨b, -, rfl⟩ := List.mem_map.1 hn
        rfl
    rw [contours, tallies, crossings_around (h.1 B List.mem_cons_self) _
      (fun _ _ hv => by cases hv) (fun _ _ hv => by cases hv), hz, Int.add_zero]
  | cons C rest ih =>
    have hC : B.bottom = C.y := (List.isChain_cons_cons.1 h.2).1
    rw [contours, tallies, crossings_around (h.1 B List.mem_cons_self) _
      (fun b => hC ▸ y_of_mem_head?_contours C _ rest)
      (fun b => hC ▸ y_of_mem_getLast?_contours C _ rest)]
    congr 1
    induction bs with
    | nil => rw [List.flatMap_nil, tallies_nil, List.map_nil, List.sum_nil]
    | cons b bs ihb =>
      rw [List.map_cons, List.sum_cons, ihb, ih h.of_cons, List.flatMap_cons, tallies_append]

theorem tallies_bars {B : Band} {rest : List Band}
    (h : (B :: rest).IsChain fun B C => Fits B.bars C.bars ∧ Linked B.bars C.bars) :
    tallies keep y B B.bars rest =
      ((B :: rest).map fun C => tally keep y C C.bars).sum := by
  induction rest generalizing B with
  | nil =>
    rw [tallies, List.map_cons, List.map_nil, List.sum_cons, List.sum_nil, Int.add_zero]
  | cons C rest ih =>
    obtain ⟨⟨hf, hl⟩, hrest⟩ := List.isChain_cons_cons.1 h
    rw [tallies, flatMap_hanging hf hl, ih hrest]
    exact List.sum_cons.symm

theorem Stacked.le_of_mem {B C : Band} {rest : List Band} (h : Stacked (B :: rest))
    (hC : C ∈ rest) : B.bottom ≤ C.y := by
  induction rest generalizing B with
  | nil => cases hC
  | cons D rest ih =>
    have hD : B.bottom = D.y := (List.isChain_cons_cons.1 h.2).1
    obtain rfl | hC := List.mem_cons.1 hC
    · exact Int.le_of_eq hD
    · have := ih h.of_cons hC
      have := h.1 D (List.mem_cons_of_mem _ List.mem_cons_self)
      omega

theorem tally_of_not_has {B : Band} (h : ¬B.Has y) (bs : List (Bar × Nat)) :
    tally keep y B bs = 0 :=
  if_neg h

theorem sum_tally {bands : List Band} (h : Stacked bands) {B : Band} (hB : B ∈ bands)
    (hy : B.Has y) : (bands.map fun C => tally keep y C C.bars).sum =
      (B.bars.map fun b => sideSum keep b.1).sum := by
  induction bands with
  | nil => cases hB
  | cons C rest ih =>
    rw [List.map_cons, List.sum_cons]
    obtain rfl | hB := List.mem_cons.1 hB
    · have hrest : (rest.map fun C => tally keep y C C.bars).sum = 0 := by
        refine List.sum_eq_zero fun n hn => ?_
        obtain ⟨C, hC, rfl⟩ := List.mem_map.1 hn
        refine tally_of_not_has (fun hCy => ?_) _
        have hle := h.le_of_mem hC
        have hlt := hy.2
        have hge := hCy.1
        omega
      rw [hrest, Int.add_zero]
      exact if_pos hy
    · have hC : tally keep y C C.bars = 0 := by
        refine tally_of_not_has (fun hCy => ?_) _
        have hle := h.le_of_mem hB
        have hlt := hCy.2
        have hge := hy.1
        omega
      rw [hC, ih h.of_cons hB, Int.zero_add]

/-- The border of bands that hang together crosses each row of a band once for each side of its
bars. -/
theorem crossings_bands {B : Band} {rest : List Band} (hs : Stacked (B :: rest))
    (h : (B :: rest).IsChain fun B C => Fits B.bars C.bars ∧ Linked B.bars C.bars)
    {C : Band} (hC : C ∈ B :: rest) (hy : C.Has y) :
    crossings keep y ((contours B B.bars rest).map (·.pos)) =
      (C.bars.map fun b => sideSum keep b.1).sum := by
  rw [crossings_contours hs, tallies_bars h, sum_tally hs hC hy]

/-- Bars that are left of a place or right of it count nothing there. -/
theorem sum_sideSum_eq_zero {bs : List (Bar × Nat)}
    (h : ∀ b ∈ bs, keep b.1.x = keep b.1.stop) :
    (bs.map fun b => sideSum keep b.1).sum = 0 := by
  refine List.sum_eq_zero fun n hn => ?_
  obtain ⟨b, hb, rfl⟩ := List.mem_map.1 hn
  rw [sideSum, h b hb, Int.sub_self]

theorem sum_sideSum {bs : List (Bar × Nat)} (hs : Spread bs) {b : Bar × Nat} (hb : b ∈ bs)
    (h : ∀ c ∈ bs, c.1.stop < b.1.x ∨ b.1.stop < c.1.x → keep c.1.x = keep c.1.stop) :
    (bs.map fun b => sideSum keep b.1).sum = sideSum keep b.1 := by
  obtain ⟨ls, rs, rfl⟩ := List.append_of_mem hb
  have hapart := List.pairwise_append.1 hs.apart
  have hleft : (ls.map fun b => sideSum keep b.1).sum = 0 := by
    refine sum_sideSum_eq_zero fun c hc => h c (List.mem_append_left _ hc) (Or.inl ?_)
    exact hapart.2.2 c hc b List.mem_cons_self
  have hright : (rs.map fun b => sideSum keep b.1).sum = 0 := by
    refine sum_sideSum_eq_zero fun c hc => h c
      (List.mem_append_right _ (List.mem_cons_of_mem _ hc)) (Or.inr ?_)
    exact (List.pairwise_cons.1 hapart.2.1).1 c hc
  rw [List.map_append, List.sum_append, List.map_cons, List.sum_cons, hleft, hright]
  omega

theorem sum_sideSum_left {bs : List (Bar × Nat)} (hs : Spread bs) {b : Bar × Nat} (hb : b ∈ bs)
    {x : Int} (h₁ : b.1.x ≤ x) (h₂ : x < b.1.stop) :
    (bs.map fun b => sideSum (· ≤ x) b.1).sum = 1 := by
  rw [sum_sideSum hs hb]
  · simp only [sideSum, decide_eq_true_eq]
    rw [if_pos h₁, if_neg (by omega)]
    rfl
  · intro c hc h
    have := hs.wide c hc
    rw [decide_eq_decide]
    omega

theorem sum_sideSum_right {bs : List (Bar × Nat)} (hs : Spread bs) {b : Bar × Nat} (hb : b ∈ bs)
    {x : Int} (h₁ : b.1.x < x) (h₂ : x ≤ b.1.stop) :
    (bs.map fun b => sideSum (x ≤ ·) b.1).sum = -1 := by
  rw [sum_sideSum hs hb]
  · simp only [sideSum, decide_eq_true_eq]
    rw [if_neg (by omega), if_pos h₂]
    rfl
  · intro c hc h
    have := hs.wide c hc
    rw [decide_eq_decide]
    omega

end Border

end

end Drawing

end Pedigree
