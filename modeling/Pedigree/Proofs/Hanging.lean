import Pedigree.Proofs.Merging
import Pedigree.Proofs.Strays

/-! The border of merged levels encloses all their bars exactly if every bar hangs at one of the
level above. -/
namespace Pedigree

open Checked

namespace Drawing

namespace Level

/-- Every bar below hangs at a bar above. -/
def Hangs (l m : Level) : Prop := ∀ c ∈ m.bars, ∃ b ∈ l.bars, b.Hangs c

instance (l m : Level) : Decidable (l.Hangs m) :=
  inferInstanceAs (Decidable (∀ c ∈ m.bars, ∃ b ∈ l.bars, b.Hangs c))

/-- Levels in one piece, whose bars are spaced out and leave the gaps above them clear. -/
structure Piled (gap : Int) (levels : List Level) : Prop where
  spaced : ∀ l ∈ levels, Spaced gap l.bars
  clear : levels.IsChain fun l m => Clear l.bars m.bars
  high : ∀ l ∈ levels, 0 ≤ l.height
  touch : levels.IsChain fun l m => l.y + l.height = m.y
  full : ∀ l ∈ levels, l.bars ≠ []

def band (l : Level) (first : Nat) : Border.Band :=
  ⟨l.y, l.y + max l.height 0, l.bars.zipIdx first⟩

theorem bandsFrom_cons (first : Nat) (l : Level) (rest : List Level) :
    Border.bandsFrom first (l :: rest) =
      l.band first :: Border.bandsFrom (first + l.bars.length) rest := rfl

theorem mem_bandsFrom {first : Nat} {levels : List Level} {B : Border.Band}
    (h : B ∈ Border.bandsFrom first levels) : ∃ l ∈ levels, ∃ i, B = l.band i := by
  induction levels generalizing first with
  | nil => cases h
  | cons l rest ih =>
    obtain rfl | h := List.mem_cons.1 h
    · exact ⟨l, List.mem_cons_self, first, rfl⟩
    · obtain ⟨m, hm, i, he⟩ := ih h
      exact ⟨m, List.mem_cons_of_mem _ hm, i, he⟩

theorem exists_band (first : Nat) {levels : List Level} {l : Level} (h : l ∈ levels) :
    ∃ i, l.band i ∈ Border.bandsFrom first levels := by
  induction levels generalizing first with
  | nil => cases h
  | cons m rest ih =>
    obtain rfl | h := List.mem_cons.1 h
    · exact ⟨first, List.mem_cons_self⟩
    · obtain ⟨i, hi⟩ := ih (first + m.bars.length) h
      exact ⟨i, List.mem_cons_of_mem _ hi⟩

/-- What holds for neighbouring levels holds for their bands. -/
theorem isChain_bandsFrom {R : Level → Level → Prop} {Q : Border.Band → Border.Band → Prop}
    (h : ∀ l m i j, R l m → Q (l.band i) (m.band j)) (first : Nat) {levels : List Level}
    (hc : levels.IsChain R) : (Border.bandsFrom first levels).IsChain Q := by
  induction levels generalizing first with
  | nil => exact List.isChain_nil
  | cons l rest ih =>
    cases rest with
    | nil => exact List.isChain_singleton _
    | cons m rest =>
      obtain ⟨hlm, hc⟩ := List.isChain_cons_cons.1 hc
      exact List.isChain_cons_cons.2 ⟨h l m _ _ hlm, ih _ hc⟩

theorem exists_bandsFrom_append (first : Nat) (pre : List Level) (l m : Level)
    (post : List Level) : ∃ pre' i j post', Border.bandsFrom first (pre ++ l :: m :: post) =
      pre' ++ l.band i :: m.band j :: post' := by
  induction pre generalizing first with
  | nil => exact ⟨[], first, _, _, rfl⟩
  | cons k pre ih =>
    obtain ⟨pre', i, j, post', he⟩ := ih (first + k.bars.length)
    exact ⟨k.band first :: pre', i, j, post', by
      rw [List.cons_append, bandsFrom_cons, he, List.cons_append]⟩

theorem exists_mem_band {l : Level} (first : Nat) {b : Bar} (h : b ∈ l.bars) :
    ∃ c ∈ (l.band first).bars, c.1 = b := by
  rw [← List.zipIdx_map_fst first l.bars] at h
  exact List.mem_map.1 h

theorem mem_of_mem_band {l : Level} {first : Nat} {c : Bar × Nat} (h : c ∈ (l.band first).bars) :
    c.1 ∈ l.bars :=
  List.fst_mem_of_mem_zipIdx h

theorem forall_zipIdx {bars : List Bar} (first : Nat) {P : Bar → Prop} :
    (∀ b ∈ bars.zipIdx first, P b.1) ↔ ∀ b ∈ bars, P b := by
  constructor
  · intro h b hb
    rw [← List.zipIdx_map_fst first bars] at hb
    obtain ⟨c, hc, rfl⟩ := List.mem_map.1 hb
    exact h c hc
  · intro h b hb
    exact h b.1 (List.fst_mem_of_mem_zipIdx hb)

theorem pairwise_zipIdx {bars : List Bar} (first : Nat) (R : Bar → Bar → Prop) :
    (bars.zipIdx first).Pairwise (fun b c => R b.1 c.1) ↔ bars.Pairwise R := by
  rw [← List.pairwise_map, List.zipIdx_map_fst]

theorem Spaced.spread {gap : Int} (hg : 1 ≤ gap) {bars : List Bar} (h : Spaced gap bars)
    (first : Nat) : Border.Spread (bars.zipIdx first) := by
  refine ⟨(forall_zipIdx _).2 h.wide, (pairwise_zipIdx first fun b c => b.stop < c.x).2 ?_⟩
  exact h.apart.imp fun hlt => by omega

theorem Clear.fits {gap : Int} (hg : 1 ≤ gap) {bars below : List Bar} (h : Clear bars below)
    (hb : Spaced gap bars) (hc : Spaced gap below) (i j : Nat) :
    Border.Fits (bars.zipIdx i) (below.zipIdx j) := by
  have hsides (b c : Bar) (hlt : b.stop + gap ≤ c.x)
      (hd : ∀ d ∈ below, d.stop ≤ b.stop ∨ c.x ≤ d.x) :
      (∀ d ∈ below, d.stop ≤ b.stop ∨ b.stop < d.x) ∧
        ∀ d ∈ below, d.stop < c.x ∨ c.x ≤ d.x := by
    constructor
    · intro d hm
      obtain hd | hd := hd d hm <;> omega
    · intro d hm
      obtain hd | hd := hd d hm <;> omega
  obtain ⟨hstart, hstop⟩ := pairwise_of_isChain hb.apart h hsides
  refine ⟨hb.spread hg i, hc.spread hg j, ?_, ?_⟩
  · exact ((pairwise_zipIdx i fun b _ => _).2 hstart).imp fun hd => (forall_zipIdx _).2 hd
  · exact ((pairwise_zipIdx i fun _ c => _).2 hstop).imp fun hd => (forall_zipIdx _).2 hd

theorem linked_iff {bars below : List Bar} (i j : Nat) :
    Border.Linked (bars.zipIdx i) (below.zipIdx j) ↔ ∀ c ∈ below, ∃ b ∈ bars, b.Hangs c := by
  unfold Border.Linked
  rw [← forall_zipIdx j (P := fun c => ∃ b ∈ bars, b.Hangs c)]
  refine forall₂_congr fun c hc => ⟨?_, ?_⟩
  · rintro ⟨b, hb, hh⟩
    exact ⟨b.1, List.fst_mem_of_mem_zipIdx hb, hh⟩
  · rintro ⟨b, hb, hh⟩
    rw [← List.zipIdx_map_fst i bars] at hb
    obtain ⟨b', hb', rfl⟩ := List.mem_map.1 hb
    exact ⟨b', hb', hh⟩

/-- Levels whose bars hang together, as bands. -/
theorem isChain_fits_linked {gap : Int} {levels : List Level} (hg : 1 ≤ gap)
    (hs : ∀ l ∈ levels, Spaced gap l.bars) (hc : levels.IsChain fun l m => Clear l.bars m.bars)
    (hh : levels.IsChain Hangs) : (Border.bandsFrom 0 levels).IsChain fun B C =>
      Border.Fits B.bars C.bars ∧ Border.Linked B.bars C.bars := by
  have hf : (Border.bandsFrom 0 levels).IsChain fun B C => Border.Fits B.bars C.bars :=
    isChain_bandsFrom (fun l m i j ⟨hl, hm, hlm⟩ => hlm.fits hg hl hm i j) 0
      (hc.imp_of_mem_imp fun l m hl hm hlm => (⟨hs l hl, hs m hm, hlm⟩ :
        Spaced gap l.bars ∧ Spaced gap m.bars ∧ Clear l.bars m.bars))
  have hl : (Border.bandsFrom 0 levels).IsChain fun B C => Border.Linked B.bars C.bars :=
    isChain_bandsFrom (fun l m i j hlm => (linked_iff i j).2 hlm) 0 hh
  exact isChain_and hf hl

/-- A bar that hangs nowhere below clear gaps is left of all bars above or right of them. -/
theorem Clear.beside {gap : Int} (hg : 1 ≤ gap) {bars below : List Bar} (h : Clear bars below)
    (hb : Spaced gap bars) {c : Bar} (hc : c ∈ below) (hcw : c.x < c.stop)
    (hn : ∀ b ∈ bars, ¬b.Hangs c) :
    (∀ b ∈ bars, c.stop ≤ b.x) ∨ ∀ b ∈ bars, b.stop < c.x := by
  induction bars with
  | nil => exact Or.inl fun b hb => (by cases hb)
  | cons b bs ih =>
    have hside : c.stop ≤ b.x ∨ b.stop < c.x := by
      have := hn b List.mem_cons_self
      unfold Bar.Hangs at this
      omega
    have hbw := hb.wide b List.mem_cons_self
    cases bs with
    | nil =>
      obtain hl | hr := hside
      · exact Or.inl fun d hd => List.mem_singleton.1 hd ▸ hl
      · exact Or.inr fun d hd => List.mem_singleton.1 hd ▸ hr
    | cons b' bs =>
      obtain ⟨hbb', hcl⟩ := List.isChain_cons_cons.1 h
      obtain ⟨hapart, hbs⟩ := List.pairwise_cons.1 hb.apart
      have hrest : Spaced gap (b' :: bs) :=
        ⟨fun d hd => hb.wide d (List.mem_cons_of_mem _ hd), hbs⟩
      have hgap := hapart b' List.mem_cons_self
      have hcb := hbb' c hc
      obtain hl | hr := ih hcl hrest fun d hd => hn d (List.mem_cons_of_mem _ hd)
      · have hb'l := hl b' List.mem_cons_self
        refine Or.inl fun d hd => ?_
        obtain rfl | hd := List.mem_cons.1 hd
        · omega
        · exact hl d hd
      · have hb'r := hr b' List.mem_cons_self
        have hb'w := hrest.wide b' List.mem_cons_self
        refine Or.inr fun d hd => ?_
        obtain rfl | hd := List.mem_cons.1 hd
        · omega
        · exact hr d hd

def Has (l : Level) (y : Int) : Prop := l.y ≤ y ∧ y < l.y + l.height

theorem has_band {l : Level} {y : Int} (hl : 0 ≤ l.height) (i : Nat) :
    (l.band i).Has y ↔ l.Has y := by
  unfold Border.Band.Has Has band
  dsimp only
  rw [Int.max_eq_left hl]

namespace Piled

variable {gap : Int} {levels : List Level}

theorem tidy (hg : 1 ≤ gap) (h : Piled gap levels) :
    Border.Tidy (Border.bandsFrom 0 levels) := by
  refine ⟨fun B hB => ?_, Border.nodup_numbers 0 levels, fun B hB => ?_, ?_⟩
  · obtain ⟨l, hl, i, rfl⟩ := mem_bandsFrom hB
    exact (h.spaced l hl).spread hg i
  · obtain ⟨l, hl, i, rfl⟩ := mem_bandsFrom hB
    have hmax := Int.le_max_right l.height 0
    unfold band
    dsimp only
    omega
  · refine isChain_bandsFrom (fun l m i j hlm => ?_) 0
      (h.touch.imp_of_mem_imp fun l m hl _ hlm => (⟨h.high l hl, hlm⟩ :
        0 ≤ l.height ∧ l.y + l.height = m.y))
    obtain ⟨hl, he⟩ := hlm
    unfold band
    dsimp only
    rw [Int.max_eq_left hl, he]

theorem isChain_linked (hg : 1 ≤ gap) (h : Piled gap levels) (hh : levels.IsChain Hangs) :
    (Border.bandsFrom 0 levels).IsChain fun B C =>
      Border.Fits B.bars C.bars ∧ Border.Linked B.bars C.bars :=
  isChain_fits_linked hg h.spaced h.clear hh

/-- The border of levels below a single bar is a walk along their lines. -/
theorem value_trace {l : Level} {rest : List Level} (hg : 1 ≤ gap) (h : Piled gap (l :: rest))
    {t : Bar} (ht : l.bars = [t]) : (Border.trace (l :: rest)).value =
      ((Border.walk (Border.linesOf .outside (Border.bandsFrom 0 (l :: rest)))
        (Border.linesOf .outside (Border.bandsFrom 0 (l :: rest))).flatten.length
        ((l.band 0).corner .topLeft (t, 0))).map (·.pos)).eraseReps := by
  have hlines : (Border.linesFrom [] 0 (l :: rest)).value =
      Border.linesOf .outside (Border.bandsFrom 0 (l :: rest)) :=
    Border.value_linesFrom .outside 0 (l :: rest)
  have htidy := h.tidy hg
  have hb : (l.band 0).bars = (t, 0) :: [] := by
    unfold band
    rw [ht]
    rfl
  rw [bandsFrom_cons] at htidy
  have hstart := Border.head?_linesOf htidy.numbers (htidy.spread _ List.mem_cons_self) hb
  unfold Border.trace
  rw [value_bind, hlines, bandsFrom_cons, hstart]
  rfl

section

variable {l : Level} {rest : List Level} {t : Bar}

theorem value_trace_of_hangs (hg : 1 ≤ gap) (h : Piled gap (l :: rest)) (ht : l.bars = [t])
    (hh : (l :: rest).IsChain Hangs) : (Border.trace (l :: rest)).value =
      ((Border.contours (l.band 0) (l.band 0).bars
        (Border.bandsFrom (0 + l.bars.length) rest)).map (·.pos)).eraseReps := by
  have htidy := h.tidy hg
  have hchain := h.isChain_linked hg hh
  have hb : (l.band 0).bars = (t, 0) :: [] := by
    unfold band
    rw [ht]
    rfl
  rw [value_trace hg h ht]
  rw [bandsFrom_cons] at htidy hchain ⊢
  rw [Border.walk_eq_contours htidy.numbers (htidy.spread _ List.mem_cons_self) hchain hb]

theorem closed_of_hangs (hg : 1 ≤ gap) (h : Piled gap (l :: rest)) (ht : l.bars = [t])
    (hh : (l :: rest).IsChain Hangs) : (Border.trace (l :: rest)).value.head?.map (·.y) =
      (Border.trace (l :: rest)).value.getLast?.map (·.y) := by
  have hb : (l.band 0).bars = (t, 0) :: [] := by
    unfold band
    rw [ht]
    rfl
  rw [value_trace_of_hangs hg h ht hh, head?_eraseReps, getLast?_eraseReps, List.head?_map,
    List.getLast?_map, hb, Border.head?_contours,
    Border.getLast?_contours _ _ (List.cons_ne_nil _ _)]
  rfl

/-- The border of levels that hang together passes each row of a bar once on both sides. -/
theorem crossings_of_hangs (hg : 1 ≤ gap) (h : Piled gap (l :: rest)) (ht : l.bars = [t])
    (hh : (l :: rest).IsChain Hangs) {m : Level} (hm : m ∈ l :: rest) {b : Bar}
    (hb : b ∈ m.bars) {y : Int} (hy : m.Has y) :
    (∀ x, b.x ≤ x → x < b.stop → crossings (· ≤ x) y (Border.trace (l :: rest)).value = 1) ∧
      ∀ x, b.x < x → x ≤ b.stop → crossings (x ≤ ·) y (Border.trace (l :: rest)).value = -1 := by
  have htidy := h.tidy hg
  have hchain := h.isChain_linked hg hh
  obtain ⟨i, hi⟩ := exists_band 0 hm
  have hspread : Border.Spread (m.band i).bars := htidy.spread _ hi
  have hyi : (m.band i).Has y := (has_band (h.high m hm) i).2 hy
  obtain ⟨c, hc, rfl⟩ := exists_mem_band i hb
  rw [bandsFrom_cons] at htidy hchain hi
  rw [value_trace_of_hangs hg h ht hh]
  constructor
  · intro x h₁ h₂
    rw [crossings_eraseReps, Border.crossings_bands htidy.stacked hchain hi hyi]
    exact Border.sum_sideSum_left hspread hc h₁ h₂
  · intro x h₁ h₂
    rw [crossings_eraseReps, Border.crossings_bands htidy.stacked hchain hi hyi]
    exact Border.sum_sideSum_right hspread hc h₁ h₂

/-- Where not all bars hang, the border misses one side of some bar. -/
theorem exists_missed (hg : 1 ≤ gap) (h : Piled gap (l :: rest)) (ht : l.bars = [t])
    (hh : ¬(l :: rest).IsChain Hangs) : ∃ m ∈ l :: rest, ∃ b ∈ m.bars,
      (∀ y, m.Has y → ∀ x < b.stop,
        crossings (· ≤ x) y (Border.trace (l :: rest)).value = 0) ∨
      ∀ y, m.Has y → ∀ x > b.x, crossings (x ≤ ·) y (Border.trace (l :: rest)).value = 0 := by
  rw [List.isChain_iff_forall_rel_of_append_cons_cons] at hh
  push Not at hh
  obtain ⟨p, q, pre, post, he, hpq⟩ := hh
  unfold Hangs at hpq
  push Not at hpq
  obtain ⟨c, hc, hstray⟩ := hpq
  have hp : p ∈ l :: rest := by
    rw [he]
    exact List.mem_append_right _ List.mem_cons_self
  have hq : q ∈ l :: rest := by
    rw [he]
    exact List.mem_append_right _ (List.mem_cons_of_mem _ List.mem_cons_self)
  have hclear : Clear p.bars q.bars :=
    List.isChain_iff_forall_rel_of_append_cons_cons.1 h.clear he
  have hside := hclear.beside hg (h.spaced p hp) hc ((h.spaced q hq).wide c hc) hstray
  obtain ⟨pre', i, j, post', hbands⟩ := exists_bandsFrom_append 0 pre p q post
  rw [← he, bandsFrom_cons] at hbands
  have htidy := h.tidy hg
  rw [bandsFrom_cons] at htidy
  have hb : (l.band 0).bars = [(t, 0)] := by
    unfold band
    rw [ht]
    rfl
  obtain ⟨b, hb'⟩ := List.exists_mem_of_ne_nil _ (h.full p hp)
  obtain ⟨b, hbi, rfl⟩ := exists_mem_band i hb'
  obtain ⟨c, hcj, rfl⟩ := exists_mem_band j hc
  rw [value_trace hg h ht]
  simp only [crossings_eraseReps]
  -- On the left the first bar of the stray one's level is missed, on the right the last one, or
  -- the bar of the title.
  obtain hleft | hright := hside
  · obtain ⟨d, hd, hmiss⟩ := Border.exists_missed_left hbands htidy hb hbi hcj
      (fun d hd => hleft d.1 (mem_of_mem_band hd)) _
    exact ⟨q, hq, d.1, mem_of_mem_band hd, Or.inl fun y hy x hx =>
      hmiss y ((has_band (h.high q hq) j).2 hy) x hx⟩
  · obtain ⟨D, hD, d, hd, hmiss⟩ := Border.exists_missed_right hbands htidy hb hcj
      (fun d hd => hright d.1 (mem_of_mem_band hd)) _
    rw [← bandsFrom_cons] at hD hmiss
    obtain ⟨m, hm, k, rfl⟩ := mem_bandsFrom hD
    exact ⟨m, hm, d.1, mem_of_mem_band hd, Or.inr fun y hy x hx =>
      hmiss y ((has_band (h.high m hm) k).2 hy) x hx⟩

end

end Piled

end Level

end Drawing

end Pedigree
