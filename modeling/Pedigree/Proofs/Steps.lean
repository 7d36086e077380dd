import Pedigree.Proofs.Crossings

/-! Single steps of a walk along any lines, whether bars hang together or not. A step leads down a
left side, up a right side, or to a neighbour on the same line; so a row is crossed at the sides of
bars only. -/
namespace Pedigree

open Checked

namespace Drawing

namespace Border

/-- Two corners of a line with none between them. -/
def Adjacent (line : List Vertex) (v w : Vertex) : Prop :=
  v.key < w.key ∧ ∀ u ∈ line, u.key ≤ v.key ∨ w.key ≤ u.key

section line

variable {lines : List (List Vertex)} {line : List Vertex} {v w : Vertex}

theorem of_next?_eq_none (hd : Distinct lines) (hline : line ∈ lines)
    (hs : line.Pairwise (·.key < ·.key)) (hv : v ∈ line) (h : next? lines v = none) :
    ∀ u ∈ line, u.key ≤ v.key := by
  rw [hd.next?_eq hline hv] at h
  exact of_after?_eq_none Vertex.key hs hv (hd.eq_of_label_of_mem hline hv) h

theorem of_previous?_eq_none (hd : Distinct lines) (hline : line ∈ lines)
    (hs : line.Pairwise (·.key < ·.key)) (hv : v ∈ line) (h : previous? lines v = none) :
    ∀ u ∈ line, v.key ≤ u.key := by
  rw [hd.previous?_eq hline hv] at h
  intro u hu
  have hle := of_after?_eq_none (fun u => -u.key) (pairwise_reverse hs) (List.mem_reverse.2 hv)
    (fun u hu => hd.eq_of_label_of_mem hline hv u (List.mem_reverse.1 hu)) h u
    (List.mem_reverse.2 hu)
  omega

/-- From a lower left corner a step leads to its neighbour on the right, unless an upper left
corner stands right before it. -/
theorem advance_bottomLeft_cases (hd : Distinct lines) (hline : line ∈ lines)
    (hs : line.Pairwise (·.key < ·.key)) (hv : v ∈ line) (hk : v.kind = .bottomLeft)
    (hright : ∃ u ∈ line, v.key < u.key) : advance lines v ∈ line ∧
      ((advance lines v).kind = .topLeft ∧ Adjacent line (advance lines v) v ∨
        Adjacent line v (advance lines v)) := by
  by_cases hp : ∃ u, previous? lines v = some u ∧ u.kind = .topLeft
  · obtain ⟨u, hu, huk⟩ := hp
    rw [advance_bottomLeft_of_previous hk hu huk]
    obtain ⟨hm, hlt, hc⟩ := of_previous?_eq_some hd hline hs hv hu
    exact ⟨hm, Or.inl ⟨huk, hlt, fun t ht => (hc t ht).symm⟩⟩
  · cases hn : next? lines v with
    | none =>
      obtain ⟨u, hu, hlt⟩ := hright
      have := of_next?_eq_none hd hline hs hv hn u hu
      omega
    | some u =>
      rw [advance_bottomLeft_of_next hk (fun t ht htk => hp ⟨t, ht, htk⟩) hn]
      obtain ⟨hm, hlt, hc⟩ := of_next?_eq_some hd hline hs hv hn
      exact ⟨hm, Or.inr ⟨hlt, hc⟩⟩

/-- From an upper right corner a step leads to its neighbour on the right; from the last corner of
a line it leads back. -/
theorem advance_topRight_cases (hd : Distinct lines) (hline : line ∈ lines)
    (hs : line.Pairwise (·.key < ·.key)) (hv : v ∈ line) (hk : v.kind = .topRight)
    (hleft : ∃ u ∈ line, u.key < v.key) : advance lines v ∈ line ∧
      (Adjacent line v (advance lines v) ∨
        (∀ u ∈ line, u.key ≤ v.key) ∧ Adjacent line (advance lines v) v) := by
  cases hn : next? lines v with
  | some u =>
    rw [advance_topRight_of_next hk hn]
    obtain ⟨hm, hlt, hc⟩ := of_next?_eq_some hd hline hs hv hn
    exact ⟨hm, Or.inl ⟨hlt, hc⟩⟩
  | none =>
    have hall := of_next?_eq_none hd hline hs hv hn
    cases hp : previous? lines v with
    | none =>
      obtain ⟨u, hu, hlt⟩ := hleft
      have := of_previous?_eq_none hd hline hs hv hp u hu
      omega
    | some u =>
      rw [advance_topRight_of_previous hk hn hp]
      obtain ⟨hm, hlt, hc⟩ := of_previous?_eq_some hd hline hs hv hp
      exact ⟨hm, Or.inr ⟨hall, hlt, fun t ht => (hc t ht).symm⟩⟩

end line

/-- Bands in one piece, of numbered bars that are spread out. -/
structure Tidy (bands : List Band) : Prop where
  spread : ∀ B ∈ bands, Spread B.bars
  numbers : (bands.flatMap Band.numbers).Nodup
  stacked : Stacked bands

theorem mem_flatten_linesOf {bands : List Band} {v : Vertex} :
    v ∈ (linesOf .outside bands).flatten ↔ ∃ B ∈ bands, ∃ b ∈ B.bars, ∃ k, v = B.corner k b := by
  rw [(perm_flatten_linesOf .outside bands).mem_iff, List.mem_append, List.mem_flatMap]
  constructor
  · rintro (hv | ⟨B, hB, hv⟩)
    · cases hv
    · rw [List.mem_append, Band.mem_tops, Band.mem_bottoms] at hv
      obtain ⟨b, hb, rfl | rfl⟩ | ⟨b, hb, rfl | rfl⟩ := hv <;> exact ⟨B, hB, b, hb, _, rfl⟩
  · rintro ⟨B, hB, b, hb, k, rfl⟩
    refine Or.inr ⟨B, hB, ?_⟩
    rw [List.mem_append, Band.mem_tops, Band.mem_bottoms]
    cases k
    · exact Or.inl ⟨b, hb, Or.inl rfl⟩
    · exact Or.inl ⟨b, hb, Or.inr rfl⟩
    · exact Or.inr ⟨b, hb, Or.inl rfl⟩
    · exact Or.inr ⟨b, hb, Or.inr rfl⟩

structure Meet (A B : Band) : Prop where
  above : Spread A.bars
  below : Spread B.bars
  level : A.bars = [] ∨ B.bars = [] ∨ A.bottom = B.y

theorem Meet.y_eq {A B : Band} (h : Meet A B) {v w : Vertex} (hv : v ∈ lineBetween A B)
    (hw : w ∈ lineBetween A B) : v.pos.y = w.pos.y := by
  have hl := h.level
  have hbottom (k : Kind) (hk : k.isTop = false) (b : Bar × Nat) :
      (A.corner k b).pos.y = A.bottom := if_neg (by rw [hk]; exact Bool.false_ne_true)
  have htop (k : Kind) (hk : k.isTop = true) (b : Bar × Nat) :
      (B.corner k b).pos.y = B.y := if_pos hk
  have hne {C : Band} {b : Bar × Nat} (hb : b ∈ C.bars) : C.bars ≠ [] := List.ne_nil_of_mem hb
  obtain ⟨b, hb, rfl | rfl⟩ | ⟨c, hc, rfl | rfl⟩ := mem_lineBetween.1 hv <;>
    obtain ⟨b', hb', rfl | rfl⟩ | ⟨c', hc', rfl | rfl⟩ := mem_lineBetween.1 hw <;>
    first
    | rfl
    | exact (hl.resolve_left (hne hb)).resolve_left (hne hc')
    | exact ((hl.resolve_left (hne hb')).resolve_left (hne hc)).symm

section meet

variable {B C : Band} {lines : List (List Vertex)}

/-- The step from a lower left corner, along the line below its band. -/
theorem Meet.advance_bottomLeft (h : Meet B C) (hd : Distinct lines)
    (hline : lineBetween B C ∈ lines) {b : Bar × Nat} (hb : b ∈ B.bars) :
    advance lines (B.corner .bottomLeft b) ∈ lineBetween B C ∧
      ((advance lines (B.corner .bottomLeft b)).kind = .topLeft ∧
          Adjacent (lineBetween B C) (advance lines (B.corner .bottomLeft b))
            (B.corner .bottomLeft b) ∨
        Adjacent (lineBetween B C) (B.corner .bottomLeft b)
          (advance lines (B.corner .bottomLeft b))) := by
  obtain ⟨hv, hw⟩ := bottom_mem_lineBetween C hb
  have hbw := h.above.wide b hb
  have hlt : (B.corner .bottomLeft b).key < (B.corner .bottomRight b).key := by
    rw [key_bottomLeft, key_bottomRight]
    omega
  exact advance_bottomLeft_cases hd hline (pairwise_lineBetween hd hline h.above h.below) hv rfl
    ⟨_, hw, hlt⟩

/-- The step from an upper right corner, along the line above its band. -/
theorem Meet.advance_topRight (h : Meet B C) (hd : Distinct lines)
    (hline : lineBetween B C ∈ lines) {c : Bar × Nat} (hc : c ∈ C.bars) :
    advance lines (C.corner .topRight c) ∈ lineBetween B C ∧
      (Adjacent (lineBetween B C) (C.corner .topRight c) (advance lines (C.corner .topRight c)) ∨
        (∀ u ∈ lineBetween B C, u.key ≤ (C.corner .topRight c).key) ∧
          Adjacent (lineBetween B C) (advance lines (C.corner .topRight c))
            (C.corner .topRight c)) := by
  obtain ⟨hw, hv⟩ := top_mem_lineBetween B hc
  have hcw := h.below.wide c hc
  have hlt : (C.corner .topLeft c).key < (C.corner .topRight c).key := by
    rw [key_topLeft, key_topRight]
    omega
  exact advance_topRight_cases hd hline (pairwise_lineBetween hd hline h.above h.below) hv rfl
    ⟨_, hw, hlt⟩

end meet

theorem Tidy.of_cons {B : Band} {rest : List Band} (h : Tidy (B :: rest)) : Tidy rest := by
  have hn := h.numbers
  rw [List.flatMap_cons, List.nodup_append] at hn
  exact ⟨fun C hC => h.spread C (List.mem_cons_of_mem _ hC), hn.2.1, h.stacked.of_cons⟩

theorem exists_line_below {bands : List Band} (A : Band) (h : Tidy bands) {B : Band}
    (hB : B ∈ bands) : ∃ C, lineBetween B C ∈ linesOf A bands ∧ Meet B C := by
  induction bands generalizing A with
  | nil => cases hB
  | cons D rest ih =>
    obtain rfl | hB := List.mem_cons.1 hB
    · have hs := h.spread B List.mem_cons_self
      cases rest with
      | nil =>
        exact ⟨.outside, List.mem_cons_of_mem _ List.mem_cons_self, hs, spread_outside,
          Or.inr (Or.inl rfl)⟩
      | cons C rest =>
        refine ⟨C, List.mem_cons_of_mem _ List.mem_cons_self, hs, ?_, Or.inr (Or.inr ?_)⟩
        · exact h.spread C (List.mem_cons_of_mem _ List.mem_cons_self)
        · exact (List.isChain_cons_cons.1 h.stacked.2).1
    · obtain ⟨C, hl, hm⟩ := ih D h.of_cons hB
      exact ⟨C, List.mem_cons_of_mem _ hl, hm⟩

theorem exists_line_above {bands : List Band} {A : Band} (hA : ∀ D ∈ bands.head?, Meet A D)
    (h : Tidy bands) {B : Band} (hB : B ∈ bands) :
    ∃ C, lineBetween C B ∈ linesOf A bands ∧ Meet C B := by
  induction bands generalizing A with
  | nil => cases hB
  | cons D rest ih =>
    obtain rfl | hB := List.mem_cons.1 hB
    · exact ⟨A, List.mem_cons_self, hA B rfl⟩
    · have hm : ∀ E ∈ rest.head?, Meet D E := by
        intro E hE
        cases rest with
        | nil => cases hE
        | cons F rest =>
          cases hE
          refine ⟨h.spread D List.mem_cons_self, ?_, Or.inr (Or.inr ?_)⟩
          · exact h.spread E (List.mem_cons_of_mem _ List.mem_cons_self)
          · exact (List.isChain_cons_cons.1 h.stacked.2).1
      obtain ⟨C, hl, hm⟩ := ih hm h.of_cons hB
      exact ⟨C, List.mem_cons_of_mem _ hl, hm⟩

theorem Tidy.distinct {bands : List Band} (h : Tidy bands) :
    Distinct (linesOf .outside bands) :=
  distinct_linesOf h.numbers

theorem Tidy.line_below {bands : List Band} (h : Tidy bands) {B : Band} (hB : B ∈ bands) :
    ∃ C, lineBetween B C ∈ linesOf .outside bands ∧ Meet B C :=
  exists_line_below .outside h hB

theorem Tidy.line_above {bands : List Band} (h : Tidy bands) {B : Band} (hB : B ∈ bands) :
    ∃ C, lineBetween C B ∈ linesOf .outside bands ∧ Meet C B := by
  refine exists_line_above (fun D hD => ⟨spread_outside, ?_, Or.inl rfl⟩) h hB
  exact h.spread D (List.mem_of_mem_head? hD)

section steps

variable {bands : List Band} {v : Vertex}

/-- Where a step leads to: across a bar, or along the line of the corner. -/
theorem advance_cases (h : Tidy bands) {B : Band} (hB : B ∈ bands) {b : Bar × Nat}
    (hb : b ∈ B.bars) (k : Kind) :
    (k = .topLeft ∧ advance (linesOf .outside bands) (B.corner k b) = B.corner .bottomLeft b) ∨
    (k = .bottomRight ∧ advance (linesOf .outside bands) (B.corner k b) = B.corner .topRight b) ∨
    (k = .bottomLeft ∧ ∃ C, lineBetween B C ∈ linesOf .outside bands ∧ Meet B C ∧
      advance (linesOf .outside bands) (B.corner k b) ∈ lineBetween B C) ∨
    (k = .topRight ∧ ∃ C, lineBetween C B ∈ linesOf .outside bands ∧ Meet C B ∧
      advance (linesOf .outside bands) (B.corner k b) ∈ lineBetween C B) := by
  have hmem (l : Kind) : B.corner l b ∈ (linesOf .outside bands).flatten :=
    mem_flatten_linesOf.2 ⟨B, hB, b, hb, l, rfl⟩
  cases k with
  | topLeft => exact Or.inl ⟨rfl, advance_topLeft h.distinct (hmem .bottomLeft)⟩
  | bottomRight => exact Or.inr (Or.inl ⟨rfl, advance_bottomRight h.distinct (hmem .topRight)⟩)
  | bottomLeft =>
    obtain ⟨C, hl, hm⟩ := h.line_below hB
    exact Or.inr (Or.inr (Or.inl ⟨rfl, C, hl, hm, (hm.advance_bottomLeft h.distinct hl hb).1⟩))
  | topRight =>
    obtain ⟨C, hl, hm⟩ := h.line_above hB
    exact Or.inr (Or.inr (Or.inr ⟨rfl, C, hl, hm, (hm.advance_topRight h.distinct hl hb).1⟩))

theorem advance_mem (h : Tidy bands) (hv : v ∈ (linesOf .outside bands).flatten) :
    advance (linesOf .outside bands) v ∈ (linesOf .outside bands).flatten := by
  obtain ⟨B, hB, b, hb, k, rfl⟩ := mem_flatten_linesOf.1 hv
  obtain ⟨-, he⟩ | ⟨-, he⟩ | ⟨-, C, hl, -, hm⟩ | ⟨-, C, hl, -, hm⟩ := advance_cases h hB hb k
  · rw [he]
    exact mem_flatten_linesOf.2 ⟨B, hB, b, hb, _, rfl⟩
  · rw [he]
    exact mem_flatten_linesOf.2 ⟨B, hB, b, hb, _, rfl⟩
  · exact List.mem_flatten_of_mem hl hm
  · exact List.mem_flatten_of_mem hl hm

/-- A row is crossed at the sides of bars only. -/
theorem exists_of_crossing_ne_zero (h : Tidy bands) {y : Int}
    (hv : v ∈ (linesOf .outside bands).flatten)
    (hy : crossing y v.pos (advance (linesOf .outside bands) v).pos ≠ 0) :
    ∃ B ∈ bands, B.Has y ∧ ∃ b ∈ B.bars,
      v = B.corner .topLeft b ∨ v = B.corner .bottomRight b := by
  obtain ⟨B, hB, b, hb, k, rfl⟩ := mem_flatten_linesOf.1 hv
  have hle := h.stacked.1 B hB
  obtain ⟨rfl, he⟩ | ⟨rfl, he⟩ | ⟨rfl, C, -, hm, ha⟩ | ⟨rfl, C, -, hm, ha⟩ :=
    advance_cases h hB hb k
  · refine ⟨B, hB, ?_, b, hb, Or.inl rfl⟩
    rw [he, crossing_down hle] at hy
    exact Decidable.of_not_not fun hn => hy (if_neg hn)
  · refine ⟨B, hB, ?_, b, hb, Or.inr rfl⟩
    rw [he, crossing_up hle] at hy
    exact Decidable.of_not_not fun hn => hy (if_neg hn)
  · exact absurd (crossing_of_level (hm.y_eq (bottom_mem_lineBetween C hb).1 ha)) hy
  · exact absurd (crossing_of_level (hm.y_eq (top_mem_lineBetween C hb).2 ha)) hy

end steps

section walk

variable {lines : List (List Vertex)} {s v : Vertex}

theorem crossings_walk_eq_zero {keep : Int → Bool} {y : Int} {n : Nat}
    (h : ∀ v ∈ walk lines n s, keep v.pos.x → keep (advance lines v).pos.x →
      crossing y v.pos (advance lines v).pos = 0) :
    crossings keep y ((walk lines n s).map (·.pos)) = 0 := by
  induction n generalizing s with
  | zero => rfl
  | succ n ih =>
    cases n with
    | zero => rfl
    | succ n =>
      have hrest := ih fun v hv => h v (List.mem_cons_of_mem _ hv)
      rw [walk, walk, List.map_cons, List.map_cons, crossings, ← List.map_cons]
      rw [walk] at hrest
      rw [hrest, Int.add_zero]
      split
      · next hk =>
        rw [Bool.and_eq_true] at hk
        exact h s List.mem_cons_self hk.1 hk.2
      · rfl

theorem exists_iterate_of_mem_walk {n : Nat} (hv : v ∈ walk lines n s) :
    ∃ k, v = (advance lines)^[k] s := by
  induction n generalizing s with
  | zero => cases hv
  | succ n ih =>
    obtain rfl | hv := List.mem_cons.1 hv
    · exact ⟨0, rfl⟩
    · obtain ⟨k, hk⟩ := ih hv
      exact ⟨k + 1, hk⟩

end walk

theorem mem_lines_of_mem_walk {bands : List Band} (h : Tidy bands) {s v : Vertex} {n : Nat}
    (hs : s ∈ (linesOf .outside bands).flatten) (hv : v ∈ walk (linesOf .outside bands) n s) :
    v ∈ (linesOf .outside bands).flatten := by
  induction n generalizing s with
  | zero => cases hv
  | succ n ih =>
    obtain rfl | hv := List.mem_cons.1 hv
    · exact hs
    · exact ih (advance_mem h hs) hv

end Border

end Drawing

end Pedigree
