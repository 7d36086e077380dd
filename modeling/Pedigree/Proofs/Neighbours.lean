import Pedigree.Proofs.Lines

/-! Where a border goes from a corner. On the line between two bands the corners of a bar's lower
side enclose the upper corners of the bars that hang there, so the walk goes down a left side, along
the bars that hang below and up the right side. -/
namespace Pedigree

open Checked

namespace Drawing

/-- The second bar, below the first, hangs at it: it reaches under it or touches its right end. -/
def Bar.Hangs (b c : Bar) : Prop := b.x < c.stop ∧ c.x ≤ b.stop

instance (b c : Bar) : Decidable (b.Hangs c) := inferInstanceAs (Decidable (_ ∧ _))

namespace Border

/-- Bars of a positive width, from left to right with gaps between them. -/
structure Spread (bs : List (Bar × Nat)) : Prop where
  wide : ∀ b ∈ bs, b.1.x < b.1.stop
  apart : bs.Pairwise fun b c => b.1.stop < c.1.x

theorem spread_outside : Spread Band.outside.bars :=
  ⟨fun _ hb => (by cases hb), List.Pairwise.nil⟩

/-- Bars above others: no lower bar reaches into a gap. -/
structure Fits (bs cs : List (Bar × Nat)) : Prop where
  above : Spread bs
  below : Spread cs
  gapStart : bs.Pairwise fun b _ => ∀ c ∈ cs, c.1.stop ≤ b.1.stop ∨ b.1.stop < c.1.x
  gapStop : bs.Pairwise fun _ b => ∀ c ∈ cs, c.1.stop < b.1.x ∨ b.1.x ≤ c.1.x

def Linked (bs cs : List (Bar × Nat)) : Prop := ∀ c ∈ cs, ∃ b ∈ bs, b.1.Hangs c.1

theorem Spread.cases {bs : List (Bar × Nat)} (h : Spread bs) {b c : Bar × Nat} (hb : b ∈ bs)
    (hc : c ∈ bs) : b = c ∨ b.1.stop < c.1.x ∨ c.1.stop < b.1.x :=
  rel_of_mem h.apart hb hc

theorem Fits.cases {bs cs : List (Bar × Nat)} (h : Fits bs cs) {b b' c : Bar × Nat} (hb : b ∈ bs)
    (hb' : b' ∈ bs) (hc : c ∈ cs) : b = b' ∨
      b.1.stop < b'.1.x ∧ (c.1.stop ≤ b.1.stop ∨ b.1.stop < c.1.x) ∧
        (c.1.stop < b'.1.x ∨ b'.1.x ≤ c.1.x) ∨
      b'.1.stop < b.1.x ∧ (c.1.stop ≤ b'.1.stop ∨ b'.1.stop < c.1.x) ∧
        (c.1.stop < b.1.x ∨ b.1.x ≤ c.1.x) := by
  have hall := (h.above.apart.and h.gapStart).and h.gapStop
  obtain he | ⟨⟨ha, hs⟩, ht⟩ | ⟨⟨ha, hs⟩, ht⟩ := rel_of_mem hall hb hb'
  · exact Or.inl he
  · exact Or.inr (Or.inl ⟨ha, hs c hc, ht c hc⟩)
  · exact Or.inr (Or.inr ⟨ha, hs c hc, ht c hc⟩)

theorem key_topLeft (B : Band) (b : Bar × Nat) : (B.corner .topLeft b).key = 4 * b.1.x + 0 := rfl

theorem key_topRight (B : Band) (b : Bar × Nat) :
    (B.corner .topRight b).key = 4 * b.1.stop + 1 := rfl

theorem key_bottomLeft (B : Band) (b : Bar × Nat) :
    (B.corner .bottomLeft b).key = 4 * b.1.x + 2 := rfl

theorem key_bottomRight (B : Band) (b : Bar × Nat) :
    (B.corner .bottomRight b).key = 4 * b.1.stop + 3 := rfl

theorem mem_lineBetween {B C : Band} {v : Vertex} : v ∈ lineBetween B C ↔
    (∃ b ∈ B.bars, v = B.corner .bottomLeft b ∨ v = B.corner .bottomRight b) ∨
      ∃ c ∈ C.bars, v = C.corner .topLeft c ∨ v = C.corner .topRight c := by
  rw [lineBetween, mem_sortLine, List.mem_append, Band.mem_bottoms, Band.mem_tops]

theorem forall_lineBetween {B C : Band} {P : Vertex → Prop}
    (hb : ∀ b ∈ B.bars, P (B.corner .bottomLeft b) ∧ P (B.corner .bottomRight b))
    (hc : ∀ c ∈ C.bars, P (C.corner .topLeft c) ∧ P (C.corner .topRight c)) :
    ∀ v ∈ lineBetween B C, P v := by
  intro v hv
  obtain ⟨b, hm, rfl | rfl⟩ | ⟨c, hm, rfl | rfl⟩ := mem_lineBetween.1 hv
  · exact (hb b hm).1
  · exact (hb b hm).2
  · exact (hc c hm).1
  · exact (hc c hm).2

/-- Corners on a line are told apart by their place. -/
theorem eq_of_key {B C : Band} (hB : Spread B.bars) (hC : Spread C.bars) {v w : Vertex}
    (hv : v ∈ lineBetween B C) (hw : w ∈ lineBetween B C) (h : v.key = w.key) : v = w := by
  have same {bs : List (Bar × Nat)} (hs : Spread bs) {b c : Bar × Nat} (hb : b ∈ bs)
      (hc : c ∈ bs) (h : b.1.x = c.1.x ∨ b.1.stop = c.1.stop) : b = c := by
    have hbw := hs.wide b hb
    have hcw := hs.wide c hc
    obtain he | hlt | hlt := hs.cases hb hc
    · exact he
    · omega
    · omega
  obtain ⟨b, hb, rfl | rfl⟩ | ⟨c, hc, rfl | rfl⟩ := mem_lineBetween.1 hv <;>
    obtain ⟨b', hb', rfl | rfl⟩ | ⟨c', hc', rfl | rfl⟩ := mem_lineBetween.1 hw <;>
    simp only [key_topLeft, key_topRight, key_bottomLeft, key_bottomRight] at h <;>
    try omega
  · rw [same hB hb hb' (Or.inl (by omega))]
  · rw [same hB hb hb' (Or.inr (by omega))]
  · rw [same hC hc hc' (Or.inl (by omega))]
  · rw [same hC hc hc' (Or.inr (by omega))]

theorem pairwise_lineBetween {B C : Band} {lines : List (List Vertex)} (hd : Distinct lines)
    (hline : lineBetween B C ∈ lines) (hB : Spread B.bars) (hC : Spread C.bars) :
    (lineBetween B C).Pairwise (·.key < ·.key) := by
  have hnodup : (lineBetween B C).Nodup :=
    ((List.sublist_flatten_of_mem hline).nodup (List.Nodup.of_map _ hd))
  refine ((pairwise_sortLine _).and hnodup).imp_of_mem fun {v w} hv hw ⟨hle, hne⟩ => ?_
  obtain hlt | he := Int.lt_or_eq_of_le hle
  · exact hlt
  · exact absurd (eq_of_key hB hC hv hw he) hne

section line

variable {lines : List (List Vertex)} {line : List Vertex} {v w : Vertex}

theorem next?_eq_some (hd : Distinct lines) (hline : line ∈ lines)
    (hs : line.Pairwise (·.key < ·.key)) (hv : v ∈ line) (hw : w ∈ line) (hlt : v.key < w.key)
    (hc : ∀ u ∈ line, u.key ≤ v.key ∨ w.key ≤ u.key) : next? lines v = some w := by
  rw [hd.next?_eq hline hv]
  exact after?_eq_some Vertex.key hs hv hw (hd.eq_of_label_of_mem hline hv) hlt hc

theorem next?_eq_none (hd : Distinct lines) (hline : line ∈ lines)
    (hs : line.Pairwise (·.key < ·.key)) (hv : v ∈ line) (hc : ∀ u ∈ line, u.key ≤ v.key) :
    next? lines v = none := by
  rw [hd.next?_eq hline hv]
  exact after?_eq_none Vertex.key hs hv (hd.eq_of_label_of_mem hline hv) hc

theorem of_next?_eq_some (hd : Distinct lines) (hline : line ∈ lines)
    (hs : line.Pairwise (·.key < ·.key)) (hv : v ∈ line) (h : next? lines v = some w) :
    w ∈ line ∧ v.key < w.key ∧ ∀ u ∈ line, u.key ≤ v.key ∨ w.key ≤ u.key := by
  rw [hd.next?_eq hline hv] at h
  exact of_after?_eq_some Vertex.key hs hv (hd.eq_of_label_of_mem hline hv) h

theorem pairwise_reverse (hs : line.Pairwise (·.key < ·.key)) :
    line.reverse.Pairwise fun v w => -v.key < -w.key :=
  List.pairwise_reverse.2 (hs.imp fun h => by omega)

theorem previous?_eq_some (hd : Distinct lines) (hline : line ∈ lines)
    (hs : line.Pairwise (·.key < ·.key)) (hv : v ∈ line) (hw : w ∈ line) (hlt : w.key < v.key)
    (hc : ∀ u ∈ line, v.key ≤ u.key ∨ u.key ≤ w.key) : previous? lines v = some w := by
  rw [hd.previous?_eq hline hv]
  refine after?_eq_some (fun u => -u.key) (pairwise_reverse hs) (List.mem_reverse.2 hv)
    (List.mem_reverse.2 hw) (fun u hu => ?_) (by omega) fun u hu => ?_
  · exact hd.eq_of_label_of_mem hline hv u (List.mem_reverse.1 hu)
  · have := hc u (List.mem_reverse.1 hu)
    omega

theorem of_previous?_eq_some (hd : Distinct lines) (hline : line ∈ lines)
    (hs : line.Pairwise (·.key < ·.key)) (hv : v ∈ line) (h : previous? lines v = some w) :
    w ∈ line ∧ w.key < v.key ∧ ∀ u ∈ line, v.key ≤ u.key ∨ u.key ≤ w.key := by
  rw [hd.previous?_eq hline hv] at h
  obtain ⟨hw, hlt, hc⟩ := of_after?_eq_some (fun u => -u.key) (pairwise_reverse hs)
    (List.mem_reverse.2 hv) (fun u hu => hd.eq_of_label_of_mem hline hv u (List.mem_reverse.1 hu)) h
  refine ⟨List.mem_reverse.1 hw, by omega, fun u hu => ?_⟩
  have := hc u (List.mem_reverse.2 hu)
  omega

theorem advance_bottomLeft_of_previous (hk : v.kind = .bottomLeft)
    (h : previous? lines v = some w) (hw : w.kind = .topLeft) : advance lines v = w := by
  unfold advance
  rw [hk]
  dsimp only
  rw [h]
  exact if_pos hw

theorem advance_bottomLeft_of_next (hk : v.kind = .bottomLeft)
    (h : ∀ u, previous? lines v = some u → u.kind ≠ .topLeft) (hw : next? lines v = some w) :
    advance lines v = w := by
  unfold advance
  rw [hk, hw]
  dsimp only
  cases hp : previous? lines v with
  | none => rfl
  | some u => exact if_neg (h u hp)

theorem advance_topRight_of_next (hk : v.kind = .topRight) (hw : next? lines v = some w) :
    advance lines v = w := by
  unfold advance
  rw [hk, hw]
  rfl

theorem advance_topRight_of_previous (hk : v.kind = .topRight) (hn : next? lines v = none)
    (hw : previous? lines v = some w) : advance lines v = w := by
  unfold advance
  rw [hk, hn, hw]
  rfl

end line

section between

variable {lines : List (List Vertex)} {B C : Band} {b c d : Bar × Nat}

theorem bottom_mem_lineBetween (C : Band) (hb : b ∈ B.bars) :
    B.corner .bottomLeft b ∈ lineBetween B C ∧ B.corner .bottomRight b ∈ lineBetween B C :=
  ⟨mem_lineBetween.2 (Or.inl ⟨b, hb, Or.inl rfl⟩), mem_lineBetween.2 (Or.inl ⟨b, hb, Or.inr rfl⟩)⟩

theorem top_mem_lineBetween (B : Band) (hc : c ∈ C.bars) :
    C.corner .topLeft c ∈ lineBetween B C ∧ C.corner .topRight c ∈ lineBetween B C :=
  ⟨mem_lineBetween.2 (Or.inr ⟨c, hc, Or.inl rfl⟩), mem_lineBetween.2 (Or.inr ⟨c, hc, Or.inr rfl⟩)⟩

/-- The upper left corner right before a lower left one is of a bar that hangs there. -/
theorem hangs_of_previous (hf : Fits B.bars C.bars) (hb : b ∈ B.bars) {u : Vertex}
    (hu : u ∈ lineBetween B C) (hk : u.kind = .topLeft) (hlt : u.key < (B.corner .bottomLeft b).key)
    (hc : ∀ v ∈ lineBetween B C, (B.corner .bottomLeft b).key ≤ v.key ∨ v.key ≤ u.key) :
    ∃ c ∈ C.bars, b.1.Hangs c.1 ∧ c.1.x ≤ b.1.x := by
  obtain ⟨b', -, rfl | rfl⟩ | ⟨c, hcm, rfl | rfl⟩ := mem_lineBetween.1 hu
  · cases hk
  · cases hk
  · have hr := hc _ (top_mem_lineBetween B hcm).2
    have hbw := hf.above.wide b hb
    have hcw := hf.below.wide c hcm
    simp only [key_topLeft, key_topRight, key_bottomLeft] at hr hlt
    refine ⟨c, hcm, ⟨?_, ?_⟩, ?_⟩ <;> omega
  · cases hk

theorem advance_bottomLeft_of_free (hd : Distinct lines) (hline : lineBetween B C ∈ lines)
    (hf : Fits B.bars C.bars) (hb : b ∈ B.bars) (hfree : ∀ c ∈ C.bars, ¬b.1.Hangs c.1) :
    advance lines (B.corner .bottomLeft b) = B.corner .bottomRight b := by
  have hs := pairwise_lineBetween hd hline hf.above hf.below
  obtain ⟨hv, hw⟩ := bottom_mem_lineBetween C hb
  have hbw := hf.above.wide b hb
  apply advance_bottomLeft_of_next rfl
  · intro u hu hk
    obtain ⟨hul, hlt, hc⟩ := of_previous?_eq_some hd hline hs hv hu
    obtain ⟨c, hcm, hh, -⟩ := hangs_of_previous hf hb hul hk hlt hc
    exact hfree c hcm hh
  · apply next?_eq_some hd hline hs hv hw
    · simp only [key_bottomLeft, key_bottomRight]
      omega
    · apply forall_lineBetween
      · intro b' hb'
        simp only [key_bottomLeft, key_bottomRight]
        have hb'w := hf.above.wide b' hb'
        obtain rfl | h | h := hf.above.cases hb hb' <;> omega
      · intro c hc
        have hcw := hf.below.wide c hc
        have hn := hfree c hc
        unfold Bar.Hangs at hn
        simp only [key_bottomLeft, key_bottomRight, key_topLeft, key_topRight]
        omega

/-- A bar that hangs below and starts no further right has its corner right before the lower left
one. -/
theorem advance_bottomLeft_of_first_within (hd : Distinct lines) (hline : lineBetween B C ∈ lines)
    (hf : Fits B.bars C.bars) (hb : b ∈ B.bars) (hc : c ∈ C.bars) (hh : b.1.Hangs c.1)
    (hle : c.1.x ≤ b.1.x) : advance lines (B.corner .bottomLeft b) = C.corner .topLeft c := by
  have hs := pairwise_lineBetween hd hline hf.above hf.below
  have hv := (bottom_mem_lineBetween C hb).1
  have hw := (top_mem_lineBetween B hc).1
  have hbw := hf.above.wide b hb
  obtain ⟨hh₁, hh₂⟩ := hh
  apply advance_bottomLeft_of_previous rfl _ rfl
  apply previous?_eq_some hd hline hs hv hw
  · simp only [key_bottomLeft, key_topLeft]
    omega
  · apply forall_lineBetween
    · intro b' hb'
      have hb'w := hf.above.wide b' hb'
      simp only [key_bottomLeft, key_bottomRight, key_topLeft]
      obtain rfl | h | h := hf.cases hb hb' hc <;> omega
    · intro d hd'
      have hdw := hf.below.wide d hd'
      simp only [key_bottomLeft, key_topRight, key_topLeft]
      obtain rfl | h | h := hf.below.cases hc hd' <;> omega

/-- Where the first bar that hangs below starts further right, its corner is the next one. -/
theorem advance_bottomLeft_of_first_beyond (hd : Distinct lines) (hline : lineBetween B C ∈ lines)
    (hf : Fits B.bars C.bars) (hb : b ∈ B.bars) (hc : c ∈ C.bars) (hh : b.1.Hangs c.1)
    (hfirst : ∀ d ∈ C.bars, b.1.Hangs d.1 → d = c ∨ c.1.stop < d.1.x) (hlt : b.1.x < c.1.x) :
    advance lines (B.corner .bottomLeft b) = C.corner .topLeft c := by
  have hs := pairwise_lineBetween hd hline hf.above hf.below
  have hv := (bottom_mem_lineBetween C hb).1
  have hw := (top_mem_lineBetween B hc).1
  have hcw := hf.below.wide c hc
  have hright := hh.2
  apply advance_bottomLeft_of_next rfl
  · intro u hu hk
    obtain ⟨hul, hult, hcov⟩ := of_previous?_eq_some hd hline hs hv hu
    obtain ⟨d, hdm, hdh, hdx⟩ := hangs_of_previous hf hb hul hk hult hcov
    obtain rfl | h := hfirst d hdm hdh <;> omega
  · apply next?_eq_some hd hline hs hv hw
    · simp only [key_bottomLeft, key_topLeft]
      omega
    · apply forall_lineBetween
      · intro b' hb'
        have hb'w := hf.above.wide b' hb'
        simp only [key_bottomLeft, key_bottomRight, key_topLeft]
        obtain rfl | h | h := hf.above.cases hb hb' <;> omega
      · intro d hd'
        have hdw := hf.below.wide d hd'
        have hfd := hfirst d hd'
        unfold Bar.Hangs at hfd
        simp only [key_bottomLeft, key_topRight, key_topLeft]
        obtain rfl | h | h := hf.below.cases hc hd'
        · omega
        · omega
        · have hn : ¬(b.1.x < d.1.stop ∧ d.1.x ≤ b.1.stop) := fun hh => by
            obtain rfl | h' := hfd hh <;> omega
          omega

/-- The walk goes on to the first bar that hangs below. -/
theorem advance_bottomLeft_of_first (hd : Distinct lines) (hline : lineBetween B C ∈ lines)
    (hf : Fits B.bars C.bars) (hb : b ∈ B.bars) (hc : c ∈ C.bars) (hh : b.1.Hangs c.1)
    (hfirst : ∀ d ∈ C.bars, b.1.Hangs d.1 → d = c ∨ c.1.stop < d.1.x) :
    advance lines (B.corner .bottomLeft b) = C.corner .topLeft c := by
  by_cases hle : c.1.x ≤ b.1.x
  · exact advance_bottomLeft_of_first_within hd hline hf hb hc hh hle
  · exact advance_bottomLeft_of_first_beyond hd hline hf hb hc hh hfirst (Int.not_le.1 hle)

/-- From a bar the walk goes on to the next one, unless a corner from above stands between. -/
theorem advance_topRight_of_next_bar (hd : Distinct lines) (hline : lineBetween B C ∈ lines)
    (hB : Spread B.bars) (hC : Spread C.bars) (hc : c ∈ C.bars) (hd' : d ∈ C.bars)
    (hlt : c.1.stop < d.1.x)
    (hnext : ∀ e ∈ C.bars, e = c ∨ e.1.stop < c.1.x ∨ e = d ∨ d.1.stop < e.1.x)
    (hfree : ∀ b ∈ B.bars, (b.1.x < c.1.stop ∨ d.1.x ≤ b.1.x) ∧
      (b.1.stop < c.1.stop ∨ d.1.x ≤ b.1.stop)) :
    advance lines (C.corner .topRight c) = C.corner .topLeft d := by
  have hs := pairwise_lineBetween hd hline hB hC
  have hv := (top_mem_lineBetween B hc).2
  have hw := (top_mem_lineBetween B hd').1
  have hcw := hC.wide c hc
  have hdw := hC.wide d hd'
  apply advance_topRight_of_next rfl
  apply next?_eq_some hd hline hs hv hw
  · simp only [key_topRight, key_topLeft]
    omega
  · apply forall_lineBetween
    · intro b hb
      have hbw := hB.wide b hb
      have hfb := hfree b hb
      simp only [key_bottomLeft, key_bottomRight, key_topRight, key_topLeft]
      omega
    · intro e he
      have hew := hC.wide e he
      simp only [key_topRight, key_topLeft]
      obtain rfl | h | rfl | h := hnext e he <;> omega

/-- From the last bar that hangs below and reaches no further, the walk goes up the right side. -/
theorem advance_topRight_of_last_within (hd : Distinct lines) (hline : lineBetween B C ∈ lines)
    (hf : Fits B.bars C.bars) (hb : b ∈ B.bars) (hc : c ∈ C.bars) (hh : b.1.Hangs c.1)
    (hlast : ∀ d ∈ C.bars, b.1.Hangs d.1 → d = c ∨ d.1.stop < c.1.x) (hle : c.1.stop ≤ b.1.stop) :
    advance lines (C.corner .topRight c) = B.corner .bottomRight b := by
  have hs := pairwise_lineBetween hd hline hf.above hf.below
  have hw := (bottom_mem_lineBetween C hb).2
  have hv := (top_mem_lineBetween B hc).2
  have hbw := hf.above.wide b hb
  have hcw := hf.below.wide c hc
  obtain ⟨hh₁, hh₂⟩ := hh
  apply advance_topRight_of_next rfl
  apply next?_eq_some hd hline hs hv hw
  · simp only [key_bottomRight, key_topRight]
    omega
  · apply forall_lineBetween
    · intro b' hb'
      have hb'w := hf.above.wide b' hb'
      simp only [key_bottomLeft, key_bottomRight, key_topRight]
      obtain rfl | h | h := hf.above.cases hb hb' <;> omega
    · intro d hd'
      have hdw := hf.below.wide d hd'
      have hld := hlast d hd'
      unfold Bar.Hangs at hld
      simp only [key_bottomRight, key_topRight, key_topLeft]
      obtain rfl | h | h := hf.below.cases hc hd'
      · omega
      · have hn : ¬(b.1.x < d.1.stop ∧ d.1.x ≤ b.1.stop) := fun hh => by
          obtain rfl | h' := hld hh <;> omega
        omega
      · omega

/-- Where a bar reaches further than the one it hangs at, nothing stands right of it. -/
theorem last_of_beyond (hf : Fits B.bars C.bars) (hl : Linked B.bars C.bars) (hb : b ∈ B.bars)
    (hc : c ∈ C.bars) (hh : b.1.Hangs c.1) (hlt : b.1.stop < c.1.stop) :
    (∀ b' ∈ B.bars, b'.1.stop ≤ b.1.stop) ∧ ∀ d ∈ C.bars, d = c ∨ d.1.stop < c.1.x := by
  have hbw := hf.above.wide b hb
  have hcw := hf.below.wide c hc
  obtain ⟨hh₁, hh₂⟩ := hh
  have hfar : ∀ b' ∈ B.bars, b'.1.stop ≤ b.1.stop := by
    intro b' hb'
    have hb'w := hf.above.wide b' hb'
    obtain rfl | h | h := hf.cases hb hb' hc <;> omega
  refine ⟨hfar, fun d hd' => ?_⟩
  obtain ⟨b', hb', hd₁, hd₂⟩ := hl d hd'
  have := hfar b' hb'
  obtain rfl | h | h := hf.below.cases hc hd'
  · exact Or.inl rfl
  · omega
  · exact Or.inr h

/-- From the last bar that hangs below, the walk goes up the right side, also where that bar
reaches further. -/
theorem advance_topRight_of_last (hd : Distinct lines) (hline : lineBetween B C ∈ lines)
    (hf : Fits B.bars C.bars) (hl : Linked B.bars C.bars) (hb : b ∈ B.bars) (hc : c ∈ C.bars)
    (hh : b.1.Hangs c.1) (hlast : ∀ d ∈ C.bars, b.1.Hangs d.1 → d = c ∨ d.1.stop < c.1.x) :
    advance lines (C.corner .topRight c) = B.corner .bottomRight b := by
  by_cases hle : c.1.stop ≤ b.1.stop
  · exact advance_topRight_of_last_within hd hline hf hb hc hh hlast hle
  · obtain ⟨hfar, hend⟩ := last_of_beyond hf hl hb hc hh (by omega)
    -- The bar ends its line, so the walk turns back to the corner before it.
    have hs := pairwise_lineBetween hd hline hf.above hf.below
    have hw := (bottom_mem_lineBetween C hb).2
    have hv := (top_mem_lineBetween B hc).2
    have hbw := hf.above.wide b hb
    have hcw := hf.below.wide c hc
    have hright := hh.2
    apply advance_topRight_of_previous rfl
    · apply next?_eq_none hd hline hs hv
      apply forall_lineBetween
      · intro b' hb'
        have hb'w := hf.above.wide b' hb'
        have := hfar b' hb'
        simp only [key_bottomLeft, key_bottomRight, key_topRight]
        omega
      · intro d hd'
        have hdw := hf.below.wide d hd'
        simp only [key_topLeft, key_topRight]
        obtain rfl | h := hend d hd' <;> omega
    · apply previous?_eq_some hd hline hs hv hw
      · simp only [key_bottomRight, key_topRight]
        omega
      · apply forall_lineBetween
        · intro b' hb'
          have hb'w := hf.above.wide b' hb'
          have := hfar b' hb'
          simp only [key_bottomLeft, key_bottomRight, key_topRight]
          omega
        · intro d hd'
          have hdw := hf.below.wide d hd'
          simp only [key_topLeft, key_topRight, key_bottomRight]
          obtain rfl | h := hend d hd' <;> omega

end between

end Border

end Drawing

end Pedigree
