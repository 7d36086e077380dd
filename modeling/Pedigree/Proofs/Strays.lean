import Mathlib.Logic.Function.Iterate
import Pedigree.Proofs.Steps

/-! Bars that hang nowhere, and what their border misses. No step leads to a bar that is left of all
bars above. From a bar that is right of all bars above no step leads back, so a walk that gets there
never closes. -/
namespace Pedigree

open Checked

namespace Drawing

namespace Border

theorem Stacked.pairwise {bands : List Band} (h : Stacked bands) :
    bands.Pairwise fun B C => B.bottom ≤ C.y := by
  induction bands with
  | nil => exact List.Pairwise.nil
  | cons B rest ih => exact List.pairwise_cons.2 ⟨fun C hC => h.le_of_mem hC, ih h.of_cons⟩

theorem eq_of_has {bands : List Band} (h : Stacked bands) {B C : Band} (hB : B ∈ bands)
    (hC : C ∈ bands) {y : Int} (hBy : B.Has y) (hCy : C.Has y) : B = C := by
  obtain he | hle | hle := rel_of_mem h.pairwise hB hC
  · exact he
  · have := hBy.2
    have := hCy.1
    omega
  · have := hCy.2
    have := hBy.1
    omega

theorem Distinct.eq_of_mem {lines : List (List Vertex)} (h : Distinct lines)
    {l m : List Vertex} (hl : l ∈ lines) (hm : m ∈ lines) {v : Vertex} (hv : v ∈ l)
    (hv' : v ∈ m) : l = m := by
  have hn : lines.flatten.Nodup := List.Nodup.of_map _ h
  obtain he | hd | hd := rel_of_mem (List.nodup_flatten.1 hn).2 hl hm
  · exact he
  · exact absurd hv' (hd hv)
  · exact absurd hv (hd hv')

theorem eq_or_exists_of_mem_walk {lines : List (List Vertex)} {s v : Vertex} {n : Nat}
    (hv : v ∈ walk lines n s) : v = s ∨ ∃ u ∈ walk lines n s, advance lines u = v := by
  induction n generalizing s with
  | zero => cases hv
  | succ n ih =>
    obtain rfl | hv := List.mem_cons.1 hv
    · exact Or.inl rfl
    · obtain rfl | ⟨u, hu, he⟩ := ih hv
      · exact Or.inr ⟨s, List.mem_cons_self, rfl⟩
      · exact Or.inr ⟨u, List.mem_cons_of_mem _ hu, he⟩

section missed

variable {bands : List Band} {s : Vertex} {n : Nat} {B : Band} {b : Bar × Nat} {x y : Int}

/-- Whatever is in the first bar of a band has nothing on its left, if the left side of that bar is
never passed. -/
theorem crossings_left_eq_zero (h : Tidy bands) (hs : s ∈ (linesOf .outside bands).flatten)
    (hB : B ∈ bands) (hy : B.Has y) (hfirst : ∀ c ∈ B.bars, c = b ∨ b.1.stop < c.1.x)
    (hv : B.corner .topLeft b ∉ walk (linesOf .outside bands) n s) (hx : x < b.1.stop) :
    crossings (· ≤ x) y ((walk (linesOf .outside bands) n s).map (·.pos)) = 0 := by
  apply crossings_walk_eq_zero
  intro v hm hk _
  refine Decidable.of_not_not fun hne => ?_
  obtain ⟨C, hC, hCy, c, hc, he⟩ :=
    exists_of_crossing_ne_zero h (mem_lines_of_mem_walk h hs hm) hne
  obtain rfl := eq_of_has h.stacked hB hC hy hCy
  have hcw := (h.spread B hB).wide c hc
  rw [decide_eq_true_eq] at hk
  obtain rfl | rfl := he
  · have hpos : (B.corner .topLeft c).pos.x = c.1.x := rfl
    obtain rfl | hlt := hfirst c hc
    · exact hv hm
    · omega
  · have hpos : (B.corner .bottomRight c).pos.x = c.1.stop := rfl
    obtain rfl | hlt := hfirst c hc <;> omega

/-- Whatever is in the last bar of a band has nothing on its right, if the right side of that bar is
never passed. -/
theorem crossings_right_eq_zero (h : Tidy bands) (hs : s ∈ (linesOf .outside bands).flatten)
    (hB : B ∈ bands) (hy : B.Has y) (hlast : ∀ c ∈ B.bars, c = b ∨ c.1.stop < b.1.x)
    (hv : B.corner .bottomRight b ∉ walk (linesOf .outside bands) n s) (hx : b.1.x < x) :
    crossings (x ≤ ·) y ((walk (linesOf .outside bands) n s).map (·.pos)) = 0 := by
  apply crossings_walk_eq_zero
  intro v hm hk _
  refine Decidable.of_not_not fun hne => ?_
  obtain ⟨C, hC, hCy, c, hc, he⟩ :=
    exists_of_crossing_ne_zero h (mem_lines_of_mem_walk h hs hm) hne
  obtain rfl := eq_of_has h.stacked hB hC hy hCy
  have hcw := (h.spread B hB).wide c hc
  rw [decide_eq_true_eq] at hk
  obtain rfl | rfl := he
  · have hpos : (B.corner .topLeft c).pos.x = c.1.x := rfl
    obtain rfl | hlt := hlast c hc <;> omega
  · have hpos : (B.corner .bottomRight c).pos.x = c.1.stop := rfl
    obtain rfl | hlt := hlast c hc
    · exact hv hm
    · omega

end missed

theorem eq_bottomLeft_of_mem {B C : Band} {v : Vertex} (hv : v ∈ lineBetween B C)
    (hk : v.kind = .bottomLeft) : ∃ b ∈ B.bars, v = B.corner .bottomLeft b := by
  obtain ⟨b, hb, rfl | rfl⟩ | ⟨c, -, rfl | rfl⟩ := mem_lineBetween.1 hv
  · exact ⟨b, hb, rfl⟩
  · cases hk
  · cases hk
  · cases hk

theorem eq_topRight_of_mem {B C : Band} {v : Vertex} (hv : v ∈ lineBetween B C)
    (hk : v.kind = .topRight) : ∃ c ∈ C.bars, v = C.corner .topRight c := by
  obtain ⟨b, -, rfl | rfl⟩ | ⟨c, hc, rfl | rfl⟩ := mem_lineBetween.1 hv
  · cases hk
  · cases hk
  · cases hk
  · exact ⟨c, hc, rfl⟩

section left

variable {bands : List Band} {B C : Band} {b w : Bar × Nat}

theorem advance_bottomLeft_ne_of_left (h : Tidy bands)
    (hline : lineBetween B C ∈ linesOf .outside bands) (hm : Meet B C) (hw : w ∈ C.bars)
    (hleft : ∀ b ∈ B.bars, w.1.stop ≤ b.1.x) (hb : b ∈ B.bars) :
    advance (linesOf .outside bands) (B.corner .bottomLeft b) ≠ C.corner .topLeft w := by
  intro he
  have hbw := hm.above.wide b hb
  have hww := hm.below.wide w hw
  have hx := hleft b hb
  obtain ⟨-, hadj⟩ := hm.advance_bottomLeft h.distinct hline hb
  rw [he] at hadj
  obtain ⟨-, -, hc⟩ | ⟨hlt, -⟩ := hadj
  · have hr := hc _ (top_mem_lineBetween B hw).2
    simp only [key_topLeft, key_topRight, key_bottomLeft] at hr
    omega
  · simp only [key_topLeft, key_bottomLeft] at hlt
    omega

theorem advance_topRight_ne_of_left (h : Tidy bands)
    (hline : lineBetween B C ∈ linesOf .outside bands) (hm : Meet B C) (hb : b ∈ B.bars)
    (hleft : w.1.stop ≤ b.1.x) (hw : w ∈ C.bars)
    (hfirst : ∀ c ∈ C.bars, c = w ∨ w.1.stop < c.1.x) {c : Bar × Nat} (hc : c ∈ C.bars) :
    advance (linesOf .outside bands) (C.corner .topRight c) ≠ C.corner .topLeft w := by
  intro he
  have hcw := hm.below.wide c hc
  have hww := hm.below.wide w hw
  have hbl := (bottom_mem_lineBetween C hb).1
  obtain ⟨-, hadj⟩ := hm.advance_topRight h.distinct hline hc
  rw [he] at hadj
  obtain ⟨hlt, -⟩ | ⟨hall, -, hcov⟩ := hadj
  · simp only [key_topLeft, key_topRight] at hlt
    obtain rfl | hlt' := hfirst c hc <;> omega
  · have h₁ := hall _ hbl
    have h₂ := hcov _ hbl
    simp only [key_topLeft, key_topRight, key_bottomLeft] at h₁ h₂
    omega

/-- No step leads to the first bar of a band if that is left of all bars above. -/
theorem advance_ne_of_left (h : Tidy bands) (hline : lineBetween B C ∈ linesOf .outside bands)
    (hm : Meet B C) (hb : b ∈ B.bars) (hw : w ∈ C.bars) (hleft : ∀ b ∈ B.bars, w.1.stop ≤ b.1.x)
    (hfirst : ∀ c ∈ C.bars, c = w ∨ w.1.stop < c.1.x) {v : Vertex}
    (hv : v ∈ (linesOf .outside bands).flatten) :
    advance (linesOf .outside bands) v ≠ C.corner .topLeft w := by
  intro he
  have hwl := (top_mem_lineBetween B hw).1
  obtain ⟨D, hD, d, hd, k, rfl⟩ := mem_flatten_linesOf.1 hv
  obtain ⟨-, ha⟩ | ⟨-, ha⟩ | ⟨rfl, E, hl, -, ha⟩ | ⟨rfl, E, hl, -, ha⟩ := advance_cases h hD hd k
  · cases congrArg Vertex.kind (ha.symm.trans he)
  · cases congrArg Vertex.kind (ha.symm.trans he)
  · have hvl := (bottom_mem_lineBetween E hd).1
    rw [h.distinct.eq_of_mem hl hline (he ▸ ha) hwl] at hvl
    obtain ⟨b', hb', hbl⟩ := eq_bottomLeft_of_mem hvl rfl
    rw [hbl] at he
    exact advance_bottomLeft_ne_of_left h hline hm hw hleft hb' he
  · have hvl := (top_mem_lineBetween E hd).2
    rw [h.distinct.eq_of_mem hl hline (he ▸ ha) hwl] at hvl
    obtain ⟨c, hc, hcr⟩ := eq_topRight_of_mem hvl rfl
    rw [hcr] at he
    exact advance_topRight_ne_of_left h hline hm hb (hleft b hb) hw hfirst hc he

end left

section neighbours

variable {B C : Band} {b c : Bar × Nat} {u : Vertex}

/-- Beside a lower left corner: a corner of a bar as far right, or of one that reaches further
below it. -/
theorem of_adjacent_bottomLeft (hm : Meet B C) (hb : b ∈ B.bars) (hu : u ∈ lineBetween B C)
    (h : u.kind = .topLeft ∧ Adjacent (lineBetween B C) u (B.corner .bottomLeft b) ∨
      Adjacent (lineBetween B C) (B.corner .bottomLeft b) u) :
    (∃ c ∈ B.bars, b.1.stop ≤ c.1.stop ∧ ∃ k, u = B.corner k c) ∨
      ∃ c ∈ C.bars, b.1.x < c.1.stop ∧ ∃ k, u = C.corner k c := by
  have hbw := hm.above.wide b hb
  obtain ⟨c, hc, hu⟩ | ⟨c, hc, hu⟩ := mem_lineBetween.1 hu
  · have hcw := hm.above.wide c hc
    have hlt : b.1.x ≤ c.1.stop := by
      obtain rfl | rfl := hu
      · obtain ⟨hk, -⟩ | ⟨hlt, -⟩ := h
        · cases hk
        · simp only [key_bottomLeft] at hlt
          omega
      · obtain ⟨hk, -⟩ | ⟨hlt, -⟩ := h
        · cases hk
        · simp only [key_bottomLeft, key_bottomRight] at hlt
          omega
    refine Or.inl ⟨c, hc, ?_, hu.elim (fun he => ⟨_, he⟩) fun he => ⟨_, he⟩⟩
    obtain rfl | hlt' | hlt' := hm.above.cases hb hc <;> omega
  · have hcw := hm.below.wide c hc
    refine Or.inr ⟨c, hc, ?_, hu.elim (fun he => ⟨_, he⟩) fun he => ⟨_, he⟩⟩
    obtain rfl | rfl := hu
    · obtain ⟨-, -, hcov⟩ | ⟨hlt, -⟩ := h
      · have hr := hcov _ (top_mem_lineBetween B hc).2
        simp only [key_topLeft, key_topRight, key_bottomLeft] at hr
        omega
      · simp only [key_topLeft, key_bottomLeft] at hlt
        omega
    · obtain ⟨hk, -⟩ | ⟨hlt, -⟩ := h
      · cases hk
      · simp only [key_topRight, key_bottomLeft] at hlt
        omega

theorem of_adjacent_topRight (hm : Meet B C) (hb : b ∈ B.bars) (hbc : b.1.x < c.1.stop)
    (hu : u ∈ lineBetween B C) (h : Adjacent (lineBetween B C) (C.corner .topRight c) u ∨
      (∀ t ∈ lineBetween B C, t.key ≤ (C.corner .topRight c).key) ∧
        Adjacent (lineBetween B C) u (C.corner .topRight c)) :
    (∃ c ∈ B.bars, b.1.stop ≤ c.1.stop ∧ ∃ k, u = B.corner k c) ∨
      ∃ c ∈ C.bars, b.1.x < c.1.stop ∧ ∃ k, u = C.corner k c := by
  have hbw := hm.above.wide b hb
  have hbr := (bottom_mem_lineBetween C hb).2
  -- Either way the corner is no further left than the bar above ends, or than this bar does.
  have hfar : 4 * c.1.stop + 1 < u.key ∨ 4 * b.1.stop + 3 ≤ u.key := by
    obtain ⟨hlt, -⟩ | ⟨hall, hlt, hcov⟩ := h
    · exact Or.inl hlt
    · have h₁ := hall _ hbr
      have h₂ := hcov _ hbr
      simp only [key_topRight, key_bottomRight] at h₁ h₂
      omega
  obtain ⟨d, hd, hu⟩ | ⟨d, hd, hu⟩ := mem_lineBetween.1 hu
  · have hdw := hm.above.wide d hd
    have hlt : b.1.x ≤ d.1.stop := by
      obtain rfl | rfl := hu
      · rw [key_bottomLeft] at hfar
        omega
      · rw [key_bottomRight] at hfar
        omega
    refine Or.inl ⟨d, hd, ?_, hu.elim (fun he => ⟨_, he⟩) fun he => ⟨_, he⟩⟩
    obtain rfl | hlt' | hlt' := hm.above.cases hb hd <;> omega
  · have hdw := hm.below.wide d hd
    refine Or.inr ⟨d, hd, ?_, hu.elim (fun he => ⟨_, he⟩) fun he => ⟨_, he⟩⟩
    obtain rfl | rfl := hu
    · rw [key_topLeft] at hfar
      omega
    · rw [key_topRight] at hfar
      omega

theorem advance_corner {lines : List (List Vertex)} (hd : Distinct lines)
    (hline : lineBetween B C ∈ lines) (hm : Meet B C) (hb : b ∈ B.bars)
    (hmem : ∀ k, B.corner k b ∈ lines.flatten) {P : Vertex → Prop}
    (hB : ∀ c ∈ B.bars, b.1.stop ≤ c.1.stop → ∀ k, P (B.corner k c))
    (hC : ∀ c ∈ C.bars, b.1.x < c.1.stop → ∀ k, P (C.corner k c))
    (hright : P (advance lines (B.corner .topRight b))) (k : Kind) :
    P (advance lines (B.corner k b)) := by
  have hself (l : Kind) : P (B.corner l b) := hB b hb (Int.le_refl _) l
  cases k with
  | topLeft =>
    rw [advance_topLeft hd (hmem .bottomLeft)]
    exact hself .bottomLeft
  | topRight => exact hright
  | bottomRight =>
    rw [advance_bottomRight hd (hmem .topRight)]
    exact hself .topRight
  | bottomLeft =>
    obtain ⟨hu, hadj⟩ := hm.advance_bottomLeft hd hline hb
    obtain ⟨c, hc, hle, k, he⟩ | ⟨c, hc, hlt, k, he⟩ := of_adjacent_bottomLeft hm hb hu hadj
    · rw [he]
      exact hB c hc hle k
    · rw [he]
      exact hC c hc hlt k

end neighbours

/-- The corners of the bars of a band that end right of a place, and of the bars below that end
right of where one of them starts. -/
def Caught (v : Vertex) : Int → List Band → Prop
  | _, [] => False
  | x, B :: rest => ∃ b ∈ B.bars, x < b.1.stop ∧ ((∃ k, v = B.corner k b) ∨ Caught v b.1.x rest)

/-- No step leads out of there, unless from an upper right corner of the first band. -/
theorem advance_of_caught {lines : List (List Vertex)} (hd : Distinct lines) {P : Vertex → Prop}
    {rest : List Band} {B : Band} {x : Int} (h : Tidy (B :: rest))
    (hlines : ∀ line ∈ linesOf B rest, line ∈ lines)
    (hmem : ∀ C ∈ B :: rest, ∀ c ∈ C.bars, ∀ k, C.corner k c ∈ lines.flatten)
    (hP : ∀ v, Caught v x (B :: rest) → P v)
    (hright : ∀ b ∈ B.bars, x < b.1.stop → P (advance lines (B.corner .topRight b))) :
    ∀ v, Caught v x (B :: rest) → P (advance lines v) := by
  -- Only the corners of `B` are new: those below form such a set, right of the bar above them.
  induction rest generalizing B x with
  | nil =>
    rintro v ⟨b, hb, hx, ⟨k, rfl⟩ | hv⟩
    · have hm : Meet B .outside :=
        ⟨h.spread B List.mem_cons_self, spread_outside, Or.inr (Or.inl rfl)⟩
      apply advance_corner hd (hlines _ List.mem_cons_self) hm hb
        (hmem B List.mem_cons_self b hb) _ _ (hright b hb hx)
      · intro c hc hle k
        exact hP _ ⟨c, hc, Int.lt_of_lt_of_le hx hle, Or.inl ⟨k, rfl⟩⟩
      · intro c hc
        cases hc
    · cases hv
  | cons C rest ih =>
    have hline := hlines _ List.mem_cons_self
    have hm : Meet B C := ⟨h.spread B List.mem_cons_self,
      h.spread C (List.mem_cons_of_mem _ List.mem_cons_self),
      Or.inr (Or.inr (List.isChain_cons_cons.1 h.stacked.2).1)⟩
    rintro v ⟨b, hb, hx, hv⟩
    have hB (c : Bar × Nat) (hc : c ∈ B.bars) (hle : b.1.stop ≤ c.1.stop) (k : Kind) :
        P (B.corner k c) := hP _ ⟨c, hc, Int.lt_of_lt_of_le hx hle, Or.inl ⟨k, rfl⟩⟩
    have hC (c : Bar × Nat) (hc : c ∈ C.bars) (hlt : b.1.x < c.1.stop) (k : Kind) :
        P (C.corner k c) := hP _ ⟨b, hb, hx, Or.inr ⟨c, hc, hlt, Or.inl ⟨k, rfl⟩⟩⟩
    obtain ⟨k, rfl⟩ | hv := hv
    · exact advance_corner hd hline hm hb (hmem B List.mem_cons_self b hb) hB hC (hright b hb hx) k
    · apply ih h.of_cons (fun line hl => hlines line (List.mem_cons_of_mem _ hl))
        (fun D hD => hmem D (List.mem_cons_of_mem _ hD))
        (fun u hu => hP u ⟨b, hb, hx, Or.inr hu⟩) _ v hv
      intro c hc hlt
      obtain ⟨hu, hadj⟩ := hm.advance_topRight hd hline hc
      obtain ⟨d, hd', hle, k, he⟩ | ⟨d, hd', hlt, k, he⟩ := of_adjacent_topRight hm hb hlt hu hadj
      · rw [he]
        exact hB d hd' hle k
      · rw [he]
        exact hC d hd' hlt k

theorem mem_of_eq_singleton {α : Type} {a : α} {l : List α} (h : l = [a]) : a ∈ l :=
  h ▸ List.mem_singleton_self a

theorem mem_of_eq_append {bands pre post : List Band} {B C : Band}
    (h : bands = pre ++ B :: C :: post) : C ∈ bands :=
  h ▸ List.mem_append_right _ (List.mem_cons_of_mem _ List.mem_cons_self)

theorem mem_linesOf_append {A B : Band} {pre post : List Band} {line : List Vertex}
    (h : line ∈ linesOf B post) : line ∈ linesOf A (pre ++ B :: post) := by
  induction pre generalizing A with
  | nil => exact List.mem_cons_of_mem _ h
  | cons C pre ih => exact List.mem_cons_of_mem _ ih

theorem Tidy.of_append {pre rest : List Band} (h : Tidy (pre ++ rest)) : Tidy rest := by
  induction pre with
  | nil => exact h
  | cons C pre ih => exact ih h.of_cons

theorem meet_of_append {pre post : List Band} {B C : Band} (h : Tidy (pre ++ B :: C :: post)) :
    Meet B C :=
  ⟨h.of_append.spread B List.mem_cons_self,
    h.of_append.spread C (List.mem_cons_of_mem _ List.mem_cons_self),
    Or.inr (Or.inr (List.isChain_cons_cons.1 h.of_append.stacked.2).1)⟩

theorem number_of_caught {v : Vertex} {x : Int} {bands : List Band} (h : Caught v x bands) :
    v.bar ∈ bands.flatMap Band.numbers := by
  induction bands generalizing x with
  | nil => cases h
  | cons B rest ih =>
    obtain ⟨b, hb, -, ⟨k, rfl⟩ | hv⟩ := h
    · exact List.mem_append_left _ (List.mem_map_of_mem (f := (·.2)) hb)
    · exact List.mem_append_right _ (ih hv)

section right

variable {pre post : List Band} {B C : Band} {w : Bar × Nat}

/-- From the last bar of a band that is right of all bars above, the step leads back along the
bar. -/
theorem Meet.advance_topRight_of_right {lines : List (List Vertex)} (hm : Meet B C)
    (hd : Distinct lines) (hline : lineBetween B C ∈ lines) (hw : w ∈ C.bars)
    (hright : ∀ b ∈ B.bars, b.1.stop < w.1.x) (hlast : ∀ c ∈ C.bars, c = w ∨ c.1.stop < w.1.x) :
    advance lines (C.corner .topRight w) = C.corner .topLeft w := by
  obtain ⟨hu, hadj⟩ := hm.advance_topRight hd hline hw
  -- All other corners of the line are further left.
  have hkey : (C.corner .topLeft w).key ≤ (advance lines (C.corner .topRight w)).key ∧
      (advance lines (C.corner .topRight w)).key ≠ (C.corner .topRight w).key := by
    have hww := hm.below.wide w hw
    rw [key_topLeft]
    obtain ⟨hlt, -⟩ | ⟨-, hlt, hcov⟩ := hadj
    · rw [key_topRight] at hlt ⊢
      omega
    · have := hcov _ (top_mem_lineBetween B hw).1
      rw [key_topLeft] at this
      rw [key_topRight] at this hlt ⊢
      omega
  obtain ⟨b, hb, he | he⟩ | ⟨c, hc, he | he⟩ := mem_lineBetween.1 hu
  · have := hm.above.wide b hb
    have := hright b hb
    rw [he, key_topLeft, key_bottomLeft] at hkey
    omega
  · have := hright b hb
    rw [he, key_topLeft, key_bottomRight] at hkey
    omega
  · have := hm.below.wide c hc
    rw [he, key_topLeft, key_topLeft] at hkey
    obtain rfl | hlt := hlast c hc
    · exact he
    · omega
  · rw [he, key_topLeft, key_topRight, key_topRight] at hkey
    obtain rfl | hlt := hlast c hc
    · exact absurd rfl hkey.2
    · omega

/-- From the last bar of a band that is right of all bars above, no step leads back up. -/
theorem caught_advance (h : Tidy (pre ++ B :: C :: post)) (hw : w ∈ C.bars)
    (hright : ∀ b ∈ B.bars, b.1.stop < w.1.x) (hlast : ∀ c ∈ C.bars, c = w ∨ c.1.stop < w.1.x)
    {v : Vertex} (hv : Caught v w.1.x (C :: post)) :
    Caught (advance (linesOf .outside (pre ++ B :: C :: post)) v) w.1.x (C :: post) := by
  have hBC := h.of_append
  have hline : lineBetween B C ∈ linesOf .outside (pre ++ B :: C :: post) :=
    mem_linesOf_append List.mem_cons_self
  have hm := meet_of_append h
  have hww := hm.below.wide w hw
  refine advance_of_caught h.distinct hBC.of_cons
    (fun line hl => mem_linesOf_append (List.mem_cons_of_mem _ hl)) (fun D hD c hc k => ?_)
    (fun v hv => hv) (fun c hc hlt => ?_) v hv
  · exact mem_flatten_linesOf.2
      ⟨D, List.mem_append_right _ (List.mem_cons_of_mem _ hD), c, hc, k, rfl⟩
  · obtain rfl | hlt' := hlast c hc
    · rw [hm.advance_topRight_of_right h.distinct hline hc hright hlast]
      exact ⟨c, hc, hww, Or.inl ⟨_, rfl⟩⟩
    · omega

end right

/-- From the upper right corner of a single first bar a step leads to its upper left one. -/
theorem advance_topRight_of_single {T : Band} {rest : List Band} (h : Tidy (T :: rest))
    {t : Bar × Nat} (ht : T.bars = [t]) :
    advance (linesOf .outside (T :: rest)) (T.corner .topRight t) = T.corner .topLeft t := by
  have hm : Meet .outside T := ⟨spread_outside, h.spread T List.mem_cons_self, Or.inl rfl⟩
  refine hm.advance_topRight_of_right h.distinct List.mem_cons_self (mem_of_eq_singleton ht)
    (fun b hb => ?_) fun c hc => ?_
  · cases hb
  · rw [ht] at hc
    exact Or.inl (List.mem_singleton.1 hc)

/-- A step function that comes back to where it started never enters a set that it does not
leave. -/
theorem not_of_iterate {α : Type} {f : α → α} {P : α → Prop} (hP : ∀ a, P a → P (f a)) {s : α}
    (hs : ¬P s) {m : Nat} (hm : f^[m + 1] s = s) (k : Nat) : ¬P (f^[k] s) := by
  intro hk
  have hstay (j : Nat) : P (f^[j + k] s) := by
    induction j with
    | zero =>
      rw [Nat.zero_add]
      exact hk
    | succ j ih =>
      rw [Nat.add_right_comm, Function.iterate_succ_apply']
      exact hP _ ih
  have hback : f^[m * k + k] s = s := by
    rw [← Nat.succ_mul, Function.iterate_mul]
    exact Function.iterate_fixed hm k
  exact hs (hback ▸ hstay (m * k))

/-- The bars of the first band are numbered apart from all below the second one. -/
theorem not_caught_of_first {T : Band} {pre post rest : List Band} {B C : Band}
    (hr : T :: rest = pre ++ B :: C :: post) (h : Tidy (T :: rest)) {t : Bar × Nat}
    (ht : t ∈ T.bars) (k : Kind) (x : Int) : ¬Caught (T.corner k t) x (C :: post) := by
  intro hc
  obtain ⟨E, hE, hnum⟩ := List.mem_flatMap.1 (number_of_caught hc)
  have hrest : E ∈ rest := by
    cases pre with
    | nil =>
      obtain ⟨-, rfl⟩ := List.cons.inj hr
      exact hE
    | cons D pre =>
      obtain ⟨-, rfl⟩ := List.cons.inj hr
      exact List.mem_append_right pre (List.mem_cons_of_mem B hE)
  have hn := h.numbers
  rw [List.flatMap_cons, List.nodup_append] at hn
  exact hn.2.2 _ (List.mem_map_of_mem (f := (·.2)) ht) _ (List.mem_flatMap.2 ⟨E, hrest, hnum⟩) rfl

/-- A walk passes the right side of the first bar, or of a bar that is right of all bars above,
but not both. -/
theorem not_mem_walk_of_right {T : Band} {pre post : List Band} {B C : Band}
    {rest : List Band} (hr : T :: rest = pre ++ B :: C :: post) (h : Tidy (T :: rest))
    {t w : Bar × Nat} (ht : T.bars = [t]) (hw : w ∈ C.bars)
    (hright : ∀ b ∈ B.bars, b.1.stop < w.1.x) (hlast : ∀ c ∈ C.bars, c = w ∨ c.1.stop < w.1.x)
    {n : Nat} (hm : T.corner .bottomRight t ∈
      walk (linesOf .outside (T :: rest)) n (T.corner .topLeft t)) :
    C.corner .bottomRight w ∉ walk (linesOf .outside (T :: rest)) n (T.corner .topLeft t) := by
  intro hv
  have htm := mem_of_eq_singleton ht
  -- Whoever enters the set right of `w` stays there, but the walk comes back to where it starts.
  have hclosed (v : Vertex) (hv : Caught v w.1.x (C :: post)) :
      Caught (advance (linesOf .outside (T :: rest)) v) w.1.x (C :: post) := by
    rw [hr] at h ⊢
    exact caught_advance h hw hright hlast hv
  have hstart := not_caught_of_first hr h htm .topLeft w.1.x
  obtain ⟨a, ha⟩ := exists_iterate_of_mem_walk hm
  obtain ⟨k, hk⟩ := exists_iterate_of_mem_walk hv
  have hback : (advance (linesOf .outside (T :: rest)))^[a + 1 + 1] (T.corner .topLeft t) =
      T.corner .topLeft t := by
    have hmem : T.corner .topRight t ∈ (linesOf .outside (T :: rest)).flatten :=
      mem_flatten_linesOf.2 ⟨T, List.mem_cons_self, t, htm, _, rfl⟩
    rw [Function.iterate_succ_apply', Function.iterate_succ_apply', ← ha,
      advance_bottomRight h.distinct hmem, advance_topRight_of_single h ht]
  refine not_of_iterate hclosed hstart hback k ?_
  rw [← hk]
  exact ⟨w, hw, (h.spread C (mem_of_eq_append hr)).wide w hw, Or.inl ⟨_, rfl⟩⟩

theorem exists_first {bs : List (Bar × Nat)} (hs : Spread bs) {c : Bar × Nat} (hc : c ∈ bs) :
    ∃ w ∈ bs, w.1.stop ≤ c.1.stop ∧ ∀ d ∈ bs, d = w ∨ w.1.stop < d.1.x := by
  cases bs with
  | nil => cases hc
  | cons w ws =>
    have hp := (List.pairwise_cons.1 hs.apart).1
    have hfirst : ∀ d ∈ w :: ws, d = w ∨ w.1.stop < d.1.x := by
      intro d hd
      obtain rfl | hd := List.mem_cons.1 hd
      · exact Or.inl rfl
      · exact Or.inr (hp d hd)
    refine ⟨w, List.mem_cons_self, ?_, hfirst⟩
    have hcw := hs.wide c hc
    obtain rfl | hlt := hfirst c hc <;> omega

theorem exists_last {bs : List (Bar × Nat)} (hs : Spread bs) {c : Bar × Nat} (hc : c ∈ bs) :
    ∃ w ∈ bs, c.1.x ≤ w.1.x ∧ ∀ d ∈ bs, d = w ∨ d.1.stop < w.1.x := by
  have hlast := eq_last_or_rel hs.apart (List.ne_nil_of_mem hc)
  refine ⟨_, List.getLast_mem (List.ne_nil_of_mem hc), ?_, hlast⟩
  have hcw := hs.wide c hc
  obtain he | hlt := hlast c hc
  · exact Int.le_of_eq (congrArg (·.1.x) he)
  · omega

section missed

variable {T : Band} {pre post : List Band} {B C : Band} {rest : List Band} {t b c : Bar × Nat}

/-- The border has nothing on the left in the first bar of a band that is left of all bars
above. -/
theorem exists_missed_left (hr : T :: rest = pre ++ B :: C :: post) (h : Tidy (T :: rest))
    (ht : T.bars = [t]) (hb : b ∈ B.bars) (hc : c ∈ C.bars)
    (hleft : ∀ b ∈ B.bars, c.1.stop ≤ b.1.x) (n : Nat) :
    ∃ d ∈ C.bars, ∀ y, C.Has y → ∀ x < d.1.stop, crossings (· ≤ x) y
      ((walk (linesOf .outside (T :: rest)) n (T.corner .topLeft t)).map (·.pos)) = 0 := by
  have htm := mem_of_eq_singleton ht
  have hcorner (k : Kind) : T.corner k t ∈ (linesOf .outside (T :: rest)).flatten :=
    mem_flatten_linesOf.2 ⟨T, List.mem_cons_self, t, htm, k, rfl⟩
  have hC := mem_of_eq_append hr
  have hline : lineBetween B C ∈ linesOf .outside (T :: rest) := by
    rw [hr]
    exact mem_linesOf_append List.mem_cons_self
  have hm : Meet B C := meet_of_append (hr ▸ h)
  obtain ⟨w, hw, hle, hfirst⟩ := exists_first hm.below hc
  have hwleft : ∀ b ∈ B.bars, w.1.stop ≤ b.1.x := fun b hb => Int.le_trans hle (hleft b hb)
  refine ⟨w, hw, fun y hy x hx => ?_⟩
  refine crossings_left_eq_zero h (hcorner .topLeft) hC hy hfirst (fun hv => ?_) hx
  obtain he | ⟨u, hu, he⟩ := eq_or_exists_of_mem_walk hv
  · refine advance_ne_of_left h hline hm hb hw hwleft hfirst (hcorner .topRight) ?_
    rw [he, advance_topRight_of_single h ht]
  · exact advance_ne_of_left h hline hm hb hw hwleft hfirst
      (mem_lines_of_mem_walk h (hcorner .topLeft) hu) he

/-- The border has nothing on the right in the last bar of a band that is right of all bars above,
or in the first bar of all. -/
theorem exists_missed_right (hr : T :: rest = pre ++ B :: C :: post) (h : Tidy (T :: rest))
    (ht : T.bars = [t]) (hc : c ∈ C.bars) (hright : ∀ b ∈ B.bars, b.1.stop < c.1.x) (n : Nat) :
    ∃ D ∈ T :: rest, ∃ d ∈ D.bars, ∀ y, D.Has y → ∀ x > d.1.x, crossings (x ≤ ·) y
      ((walk (linesOf .outside (T :: rest)) n (T.corner .topLeft t)).map (·.pos)) = 0 := by
  have htm := mem_of_eq_singleton ht
  have hstart : T.corner .topLeft t ∈ (linesOf .outside (T :: rest)).flatten :=
    mem_flatten_linesOf.2 ⟨T, List.mem_cons_self, t, htm, _, rfl⟩
  have hC := mem_of_eq_append hr
  obtain ⟨w, hw, hle, hlast⟩ := exists_last (h.spread C hC) hc
  have hwright : ∀ b ∈ B.bars, b.1.stop < w.1.x := fun b hb =>
    Int.lt_of_lt_of_le (hright b hb) hle
  by_cases hv : T.corner .bottomRight t ∈
      walk (linesOf .outside (T :: rest)) n (T.corner .topLeft t)
  · refine ⟨C, hC, w, hw, fun y hy x hx => ?_⟩
    exact crossings_right_eq_zero h hstart hC hy hlast
      (not_mem_walk_of_right hr h ht hw hwright hlast hv) hx
  · refine ⟨T, List.mem_cons_self, t, htm, fun y hy x hx => ?_⟩
    refine crossings_right_eq_zero h hstart List.mem_cons_self hy (fun d hd => ?_) hv hx
    rw [ht] at hd
    exact Or.inl (List.mem_singleton.1 hd)

end missed

end Border

end Drawing

end Pedigree
