import Mathlib
import Pedigree.Drawing.Levels
import Pedigree.Proofs.Lines

/-! Merged levels. Bars only grow and join: each one stays inside a bar of its level, no bar appears
where there was none, and none goes out beyond all that were there. Afterwards the bars of a level
are apart, and no bar of the level below reaches into a gap between two of them. -/
namespace Pedigree

open Checked

namespace Drawing

def Bar.upTo (b : Bar) (stop : Int) : Bar := ⟨b.x, stop - b.x⟩

def Bar.fromX (b : Bar) (x : Int) : Bar := ⟨x, b.stop - x⟩

theorem Bar.upTo_x (b : Bar) (stop : Int) : (b.upTo stop).x = b.x := rfl

theorem Bar.upTo_stop (b : Bar) (stop : Int) : (b.upTo stop).stop = stop := by
  unfold Bar.upTo Bar.stop
  dsimp only
  omega

theorem Bar.fromX_x (b : Bar) (x : Int) : (b.fromX x).x = x := rfl

theorem Bar.fromX_stop (b : Bar) (x : Int) : (b.fromX x).stop = b.stop := by
  unfold Bar.fromX Bar.stop
  dsimp only
  omega

theorem Bar.upTo_self (b : Bar) : b.upTo b.stop = b := by
  have h : b.stop - b.x = b.width := by
    rw [Bar.stop]
    omega
  rw [Bar.upTo, h]

theorem Bar.fromX_self (b : Bar) : b.fromX b.x = b := by
  have h : b.stop - b.x = b.width := by
    rw [Bar.stop]
    omega
  rw [Bar.fromX, h]

def Bar.Within (b c : Bar) : Prop := c.x ≤ b.x ∧ b.stop ≤ c.stop

theorem Bar.Within.refl (b : Bar) : b.Within b := ⟨Int.le_refl _, Int.le_refl _⟩

theorem Bar.Within.trans {b c d : Bar} (h : b.Within c) (h' : c.Within d) : b.Within d :=
  ⟨Int.le_trans h'.1 h.1, Int.le_trans h.2 h'.2⟩

namespace Level

/-- Every bar lies inside a new one, and every new bar has one inside. -/
structure Covers (bars new : List Bar) : Prop where
  covers : ∀ b ∈ bars, ∃ c ∈ new, b.Within c
  origin : ∀ c ∈ new, ∃ b ∈ bars, b.Within c

theorem Covers.refl (bars : List Bar) : Covers bars bars :=
  ⟨fun b hb => ⟨b, hb, .refl b⟩, fun b hb => ⟨b, hb, .refl b⟩⟩

theorem Covers.trans {bars new newer : List Bar} (h : Covers bars new) (h' : Covers new newer) :
    Covers bars newer := by
  constructor
  · intro b hb
    obtain ⟨c, hc, hbc⟩ := h.covers b hb
    obtain ⟨d, hd, hcd⟩ := h'.covers c hc
    exact ⟨d, hd, hbc.trans hcd⟩
  · intro d hd
    obtain ⟨c, hc, hcd⟩ := h'.origin d hd
    obtain ⟨b, hb, hbc⟩ := h.origin c hc
    exact ⟨b, hb, hbc.trans hcd⟩

/-- A bar that grows over its place before all others. -/
theorem Covers.cons {b c : Bar} {bars new : List Bar} (hb : b.Within c) (h : Covers bars new) :
    Covers (b :: bars) (c :: new) := by
  constructor
  · intro d hd
    obtain rfl | hd := List.mem_cons.1 hd
    · exact ⟨c, List.mem_cons_self, hb⟩
    · obtain ⟨e, he, hde⟩ := h.covers d hd
      exact ⟨e, List.mem_cons_of_mem _ he, hde⟩
  · intro d hd
    obtain rfl | hd := List.mem_cons.1 hd
    · exact ⟨b, List.mem_cons_self, hb⟩
    · obtain ⟨e, he, hed⟩ := h.origin d hd
      exact ⟨e, List.mem_cons_of_mem _ he, hed⟩

/-- Two bars that join. -/
theorem Covers.join {a b c : Bar} {bars new : List Bar} (ha : a.Within c) (hb : b.Within c)
    (h : Covers (c :: bars) new) : Covers (a :: b :: bars) new := by
  constructor
  · intro d hd
    obtain rfl | hd := List.mem_cons.1 hd
    · obtain ⟨e, he, hce⟩ := h.covers c List.mem_cons_self
      exact ⟨e, he, ha.trans hce⟩
    obtain rfl | hd := List.mem_cons.1 hd
    · obtain ⟨e, he, hce⟩ := h.covers c List.mem_cons_self
      exact ⟨e, he, hb.trans hce⟩
    · exact h.covers d (List.mem_cons_of_mem _ hd)
  · intro d hd
    obtain ⟨e, he, hed⟩ := h.origin d hd
    obtain rfl | he := List.mem_cons.1 he
    · exact ⟨a, List.mem_cons_self, ha.trans hed⟩
    · exact ⟨e, List.mem_cons_of_mem _ (List.mem_cons_of_mem _ he), hed⟩

/-- Bars of a positive width with gaps of a least width between them. -/
structure Spaced (gap : Int) (bars : List Bar) : Prop where
  wide : ∀ b ∈ bars, b.x < b.stop
  apart : bars.Pairwise fun b c => b.stop + gap ≤ c.x

/-- Bars of widths that are not negative, with gaps of a least width between them. -/
structure Gapped (gap : Int) (bars : List Bar) : Prop where
  upright : ∀ b ∈ bars, b.x ≤ b.stop
  apart : bars.Pairwise fun b c => b.stop + gap ≤ c.x

theorem Gapped.ascending {gap : Int} (hg : 0 ≤ gap) {bars : List Bar} (h : Gapped gap bars) :
    bars.Pairwise (·.x ≤ ·.x) :=
  h.apart.imp_of_mem fun {b c} hb _ hlt => by
    have := h.upright b hb
    omega

/-- Another bar may take the place of the first one if it ends where that one ends. -/
theorem Gapped.replace {gap : Int} {b : Bar} {bars : List Bar} (h : Gapped gap (b :: bars))
    (c : Bar) (hc : c.x ≤ c.stop) (he : c.stop = b.stop) : Gapped gap (c :: bars) := by
  obtain ⟨-, hbars⟩ := List.forall_mem_cons.1 h.upright
  obtain ⟨hb, hapart⟩ := List.pairwise_cons.1 h.apart
  exact ⟨List.forall_mem_cons.2 ⟨hc, hbars⟩, List.pairwise_cons.2 ⟨by rwa [he], hapart⟩⟩

/-- What a pass over the bars of a level, from the first one on, makes of them. -/
structure Swept (gap : Int) (first : Bar) (bars new : List Bar) : Prop where
  gapped : Gapped gap new
  covers : Covers (first :: bars) new
  head : new.head?.map (·.x) = some first.x
  ends : ∀ c ∈ new, ∃ b ∈ first :: bars, c.stop ≤ b.stop

theorem Swept.le_of_mem {gap : Int} (hg : 0 ≤ gap) {first : Bar} {bars new : List Bar}
    (h : Swept gap first bars new) : ∀ c ∈ new, first.x ≤ c.x := by
  intro c hc
  have hhead := h.head
  have hasc := h.gapped.ascending hg
  cases new with
  | nil => cases hc
  | cons d ds =>
    have hdx : d.x = first.x := Option.some.inj hhead
    rw [← hdx]
    obtain rfl | hc := List.mem_cons.1 hc
    · exact Int.le_refl _
    · exact (List.pairwise_cons.1 hasc).1 c hc

theorem Swept.singleton {gap : Int} {a : Bar} (hw : a.x ≤ a.stop) : Swept gap a [] [a] :=
  ⟨⟨List.forall_mem_singleton.2 hw, List.pairwise_singleton _ _⟩, .refl _, rfl,
    fun c hc => ⟨c, hc, Int.le_refl _⟩⟩

/-- The first bar is left behind, with a gap after it, and the next one goes on in a new place. -/
theorem Swept.cons {gap : Int} (hg : 0 ≤ gap) {a a' b b' : Bar} {bars new : List Bar}
    (h : Swept gap b' bars new) (ha : a.Within a') (hb : b.Within b') (hx : a'.x = a.x)
    (hw : a.x ≤ a.stop) (hbw : b.x ≤ b.stop) (hgap : a'.stop + gap ≤ b'.x)
    (hs : b'.stop = b.stop) : Swept gap a (b :: bars) (a' :: new) := by
  have hle := h.le_of_mem hg
  have ha₂ := ha.2
  have hb₁ := hb.1
  refine ⟨⟨List.forall_mem_cons.2 ⟨by omega, h.gapped.upright⟩,
    List.pairwise_cons.2 ⟨fun c hc => ?_, h.gapped.apart⟩⟩,
    .cons ha ((Covers.cons hb (.refl bars)).trans h.covers), congrArg some hx,
    List.forall_mem_cons.2 ⟨⟨b, List.mem_cons_of_mem _ List.mem_cons_self, by omega⟩, ?_⟩⟩
  · have := hle c hc
    omega
  · intro c hc
    obtain ⟨d, hd, hcd⟩ := h.ends c hc
    obtain rfl | hd := List.mem_cons.1 hd
    · exact ⟨b, List.mem_cons_of_mem _ List.mem_cons_self, by omega⟩
    · exact ⟨d, List.mem_cons_of_mem _ (List.mem_cons_of_mem _ hd), hcd⟩

/-- The first two bars join. -/
theorem Swept.join {gap : Int} {a b c : Bar} {bars new : List Bar}
    (h : Swept gap c bars new) (ha : a.Within c) (hb : b.Within c) (hx : c.x = a.x)
    (hs : c.stop = max a.stop b.stop) : Swept gap a (b :: bars) new := by
  refine ⟨h.gapped, .join ha hb h.covers, by rw [← hx]; exact h.head, fun d hd => ?_⟩
  obtain ⟨e, he, hde⟩ := h.ends d hd
  obtain rfl | he := List.mem_cons.1 he
  · obtain hm | hm := Int.le_total a.stop b.stop
    · exact ⟨b, List.mem_cons_of_mem _ List.mem_cons_self, by omega⟩
    · exact ⟨a, List.mem_cons_self, by omega⟩
  · exact ⟨e, List.mem_cons_of_mem _ (List.mem_cons_of_mem _ he), hde⟩

theorem value_closeFrom_cons (gap : Int) (last bar : Bar) (bars : List Bar) :
    (closeFrom gap last (bar :: bars)).value = if bar.x - last.stop < gap then
      (closeFrom gap (last.upTo (max last.stop bar.stop)) bars).value
    else last :: (closeFrom gap bar bars).value := by
  rw [closeFrom]
  change (if bar.x - last.stop < gap then _ else _ : Checked (List Bar)).value = _
  split <;> rfl

theorem closeFrom_swept {gap : Int} (hg : 0 ≤ gap) {last : Bar} {bars : List Bar}
    (hw : ∀ b ∈ last :: bars, b.x ≤ b.stop) (hs : (last :: bars).Pairwise (·.x ≤ ·.x)) :
    Swept gap last bars (closeFrom gap last bars).value := by
  induction bars generalizing last with
  | nil => exact .singleton (hw last List.mem_cons_self)
  | cons bar bars ih =>
    obtain ⟨hlast, hbars⟩ := List.pairwise_cons.1 hs
    obtain ⟨hlw, hw⟩ := List.forall_mem_cons.1 hw
    obtain ⟨hbw, hrest⟩ := List.forall_mem_cons.1 hw
    obtain ⟨hle, hlrest⟩ := List.forall_mem_cons.1 hlast
    rw [value_closeFrom_cons]
    split
    · refine Swept.join (ih (List.forall_mem_cons.2 ⟨?_, hrest⟩) ?_) ⟨Int.le_refl _, ?_⟩ ⟨hle, ?_⟩
        rfl (Bar.upTo_stop _ _)
      · rw [Bar.upTo_stop, Bar.upTo_x]
        omega
      · exact List.pairwise_cons.2 ⟨hlrest, (List.pairwise_cons.1 hbars).2⟩
      · rw [Bar.upTo_stop]
        exact Int.le_max_left _ _
      · rw [Bar.upTo_stop]
        exact Int.le_max_right _ _
    · refine (ih hw hbars).cons hg (.refl last) (.refl bar) rfl hlw hbw ?_ rfl
      omega

theorem value_openGap_cons (start stop : Int) (bar : Bar) (bars : List Bar) :
    (openGap start stop (bar :: bars)).value =
      if stop ≤ bar.x then (start, stop)
      else if bar.stop ≤ start then (openGap start stop bars).value
      else if bar.x ≤ start ∧ stop ≤ bar.stop then (stop, stop)
      else if start ≤ bar.x then
        (openGap (if bar.stop ≤ bar.x then bar.stop else start) bar.x bars).value
      else (openGap (if bar.stop ≤ stop then bar.stop else start) stop bars).value := by
  rw [openGap]
  change (if stop ≤ bar.x then _ else if bar.stop ≤ start then _ else
    if (decide (bar.x ≤ start) && decide (stop ≤ bar.stop)) = true then _ else _ :
      Checked (Int × Int)).value = _
  split
  · rfl
  split
  · rfl
  simp only [Bool.and_eq_true, decide_eq_true_eq]
  split
  · rfl
  split <;> rfl

/-- What is left of a gap: a part of it that no bar below reaches into, if it is not empty. -/
structure Left (start stop : Int) (below : List Bar) (gap : Int × Int) : Prop where
  start : start ≤ gap.1
  stop : gap.2 ≤ stop
  free : gap.1 < gap.2 → ∀ b ∈ below, b.stop ≤ gap.1 ∨ gap.2 ≤ b.x

/-- A bar that is left of what remains of a gap, or right of it. -/
theorem Left.cons {start start' stop stop' : Int} {bar : Bar} {below : List Bar} {gap : Int × Int}
    (h : Left start' stop' below gap) (hs : start ≤ start') (ht : stop' ≤ stop)
    (hb : bar.stop ≤ start' ∨ stop' ≤ bar.x) : Left start stop (bar :: below) gap := by
  have h₁ := h.start
  have h₂ := h.stop
  refine ⟨by omega, by omega, fun hlt b hm => ?_⟩
  obtain rfl | hm := List.mem_cons.1 hm
  · omega
  · exact h.free hlt b hm

theorem openGap_left {start stop : Int} {below : List Bar} (hle : start ≤ stop)
    (hs : below.Pairwise (·.x ≤ ·.x)) (hw : ∀ b ∈ below, b.x ≤ b.stop) :
    Left start stop below (openGap start stop below).value := by
  induction below generalizing start stop with
  | nil => exact ⟨Int.le_refl _, Int.le_refl _, fun _ _ hb => (by cases hb)⟩
  | cons bar bars ih =>
    obtain ⟨hbar, hbars⟩ := List.pairwise_cons.1 hs
    have hbw := hw bar List.mem_cons_self
    have hw' : ∀ b ∈ bars, b.x ≤ b.stop := fun b hb => hw b (List.mem_cons_of_mem _ hb)
    rw [value_openGap_cons]
    split
    · refine ⟨Int.le_refl _, Int.le_refl _, fun _ b hb => Or.inr ?_⟩
      obtain rfl | hb := List.mem_cons.1 hb
      · assumption
      · have := hbar b hb
        omega
    split
    · exact (ih hle hbars hw').cons (Int.le_refl _) (Int.le_refl _) (Or.inl (by assumption))
    split
    · exact ⟨hle, Int.le_refl _, fun h => absurd h (Int.lt_irrefl _)⟩
    split
    · exact (ih (by split <;> omega) hbars hw').cons (by split <;> omega) (by omega)
        (Or.inr (Int.le_refl _))
    · rw [if_pos (by omega)]
      exact (ih (by omega) hbars hw').cons (by omega) (Int.le_refl _) (Or.inl (Int.le_refl _))

theorem value_settleFrom_cons (gap : Int) (below : List Bar) (last bar : Bar) (bars : List Bar) :
    (settleFrom gap below last (bar :: bars)).value =
      if (openGap last.stop bar.x below).value.2 -
          (openGap last.stop bar.x below).value.1 < gap then
        (settleFrom gap below (last.upTo bar.stop) bars).value
      else last.upTo (openGap last.stop bar.x below).value.1 ::
        (settleFrom gap below (bar.fromX (openGap last.stop bar.x below).value.2) bars).value := by
  rw [settleFrom]
  change (if (openGap last.stop bar.x below).value.2 - (openGap last.stop bar.x below).value.1 < gap
    then _ else _ : Checked (List Bar)).value = _
  split
  · rfl
  · have hlast (start : Int) : (if start = last.stop then last else last.upTo start) =
        last.upTo start := by
      split
      · next he => rw [he, Bar.upTo_self]
      · rfl
    have hbar (stop : Int) : (if stop = bar.x then bar else bar.fromX stop) = bar.fromX stop := by
      split
      · next he => rw [he, Bar.fromX_self]
      · rfl
    rw [← hlast, ← hbar]
    change (if (openGap last.stop bar.x below).value.1 = last.stop then _ else _ :
      Checked (List Bar)).value = _
    split
    · change (if (openGap last.stop bar.x below).value.2 = bar.x then _ else _ :
        Checked (List Bar)).value = _
      split <;> rfl
    · change (if (openGap last.stop bar.x below).value.2 = bar.x then _ else _ :
        Checked (List Bar)).value = _
      split <;> rfl

/-- No lower bar reaches into a gap between two neighbours. -/
def Clear (bars below : List Bar) : Prop :=
  bars.IsChain fun b c => ∀ d ∈ below, d.stop ≤ b.stop ∨ c.x ≤ d.x

/-- Settling keeps bars apart, and clears the gaps between them. -/
theorem settleFrom_swept {gap : Int} (hg : 0 ≤ gap) {below : List Bar}
    (hs : below.Pairwise (·.x ≤ ·.x)) (hw : ∀ b ∈ below, b.x ≤ b.stop) {last : Bar}
    {bars : List Bar} (h : Gapped gap (last :: bars)) :
    Swept gap last bars (settleFrom gap below last bars).value ∧
      (1 ≤ gap → Clear (settleFrom gap below last bars).value below) := by
  induction bars generalizing last with
  | nil => exact ⟨.singleton (h.upright last List.mem_cons_self), fun _ => List.isChain_singleton _⟩
  | cons bar bars ih =>
    obtain ⟨hlast, hapart⟩ := List.pairwise_cons.1 h.apart
    obtain ⟨hlw, hupright⟩ := List.forall_mem_cons.1 h.upright
    have hbars : Gapped gap (bar :: bars) := ⟨hupright, hapart⟩
    have hbw := hupright bar List.mem_cons_self
    have hgap := hlast bar List.mem_cons_self
    have hleft := @openGap_left last.stop bar.x below (by omega) hs hw
    rw [value_settleFrom_cons]
    generalize (openGap last.stop bar.x below).value = g at hleft ⊢
    obtain ⟨hg₁, hg₂, hfree⟩ := hleft
    -- Either too little is left of the gap and the bars join, or the gap stays, cut down.
    split
    · obtain ⟨hp, hc⟩ := ih (hbars.replace (last.upTo bar.stop)
        (by rw [Bar.upTo_x, Bar.upTo_stop]; omega) (Bar.upTo_stop _ _))
      refine ⟨hp.join ⟨Int.le_refl _, ?_⟩ ⟨?_, ?_⟩ rfl ?_, hc⟩
      · rw [Bar.upTo_stop]
        omega
      · rw [Bar.upTo_x]
        omega
      · exact Int.le_of_eq (Bar.upTo_stop _ _).symm
      · rw [Bar.upTo_stop]
        omega
    · obtain ⟨hp, hc⟩ := ih (hbars.replace (bar.fromX g.2)
        (by rw [Bar.fromX_x, Bar.fromX_stop]; omega) (Bar.fromX_stop _ _))
      refine ⟨hp.cons hg ⟨Int.le_refl _, ?_⟩ ⟨?_, ?_⟩ rfl hlw hbw ?_ (Bar.fromX_stop _ _), ?_⟩
      · rw [Bar.upTo_stop]
        exact hg₁
      · rw [Bar.fromX_x]
        exact hg₂
      · exact Int.le_of_eq (Bar.fromX_stop _ _).symm
      · rw [Bar.upTo_stop, Bar.fromX_x]
        omega
      · refine fun hone => List.isChain_cons.2 ⟨fun c hc' d hd => ?_, hc hone⟩
        have hx : c.x = g.2 := by
          have hhead := hp.head
          rw [Option.mem_def.1 hc'] at hhead
          exact Option.some.inj hhead
        rw [Bar.upTo_stop, hx]
        exact hfree (by omega) d hd

/-! ### Levels -/

structure Merged (gap : Int) (l m : Level) : Prop where
  y : m.y = l.y
  height : m.height = l.height
  spaced : Spaced gap m.bars
  covers : Covers l.bars m.bars

/-- What merging makes of a level, whether its bars have a width or not. -/
structure Tightened (gap : Int) (l m : Level) : Prop where
  y : m.y = l.y
  height : m.height = l.height
  gapped : Gapped gap m.bars
  covers : Covers l.bars m.bars
  starts : ∀ c ∈ m.bars, ∃ b ∈ l.bars, b.x ≤ c.x
  ends : ∀ c ∈ m.bars, ∃ b ∈ l.bars, c.stop ≤ b.stop

variable {gap : Int} {l m : Level}

theorem Tightened.refl (h : Gapped gap l.bars) : Tightened gap l l :=
  ⟨rfl, rfl, h, .refl _, fun b hb => ⟨b, hb, Int.le_refl _⟩, fun b hb => ⟨b, hb, Int.le_refl _⟩⟩

theorem Tightened.trans {n : Level} (h : Tightened gap l m) (h' : Tightened gap m n) :
    Tightened gap l n := by
  refine ⟨h'.y.trans h.y, h'.height.trans h.height, h'.gapped, h.covers.trans h'.covers,
    fun c hc => ?_, fun c hc => ?_⟩
  · obtain ⟨d, hd, hdc⟩ := h'.starts c hc
    obtain ⟨b, hb, hbd⟩ := h.starts d hd
    exact ⟨b, hb, Int.le_trans hbd hdc⟩
  · obtain ⟨d, hd, hdc⟩ := h'.ends c hc
    obtain ⟨b, hb, hbd⟩ := h.ends d hd
    exact ⟨b, hb, Int.le_trans hdc hbd⟩

/-- Around a bar of some width every bar has some width. -/
theorem Tightened.merged (h : Tightened gap l m) (hw : ∀ b ∈ l.bars, b.x < b.stop) :
    Merged gap l m := by
  refine ⟨h.y, h.height, ⟨fun c hc => ?_, h.gapped.apart⟩, h.covers⟩
  obtain ⟨b, hb, hbc⟩ := h.covers.origin c hc
  have := hw b hb
  have := hbc.1
  have := hbc.2
  omega

theorem Swept.tightened (hg : 0 ≤ gap) {first : Bar} {bars new : List Bar}
    (h : Swept gap first bars new) (hl : ∀ b, b ∈ first :: bars ↔ b ∈ l.bars) :
    Tightened gap l { l with bars := new } := by
  have hfirst := (hl first).1 List.mem_cons_self
  refine ⟨rfl, rfl, h.gapped, ⟨fun b hb => h.covers.covers b ((hl b).2 hb), fun c hc => ?_⟩,
    fun c hc => ⟨first, hfirst, h.le_of_mem hg c hc⟩, fun c hc => ?_⟩
  · obtain ⟨b, hb, hbc⟩ := h.covers.origin c hc
    exact ⟨b, (hl b).1 hb, hbc⟩
  · obtain ⟨b, hb, hbc⟩ := h.ends c hc
    exact ⟨b, (hl b).1 hb, hbc⟩

theorem close_tightened (hg : 0 ≤ gap) (hw : ∀ b ∈ l.bars, b.x ≤ b.stop) :
    Tightened gap l (close gap l).value := by
  have hs := pairwise_sortBy (fun b : Bar => b.x) l.bars
  have hp := perm_sortBy (fun b : Bar => b.x) l.bars
  unfold close
  cases he : sortBy (fun b : Bar => b.x) l.bars with
  | nil =>
    have hnil : l.bars = [] := (he ▸ hp).symm.eq_nil
    exact .refl ⟨hw, hnil ▸ List.Pairwise.nil⟩
  | cons bar bars =>
    rw [he] at hs hp
    have hmem (b : Bar) : b ∈ bar :: bars ↔ b ∈ l.bars := hp.mem_iff
    exact (closeFrom_swept hg (fun b hb => hw b ((hmem b).1 hb)) hs).tightened hg hmem

theorem settle_tightened (hg : 0 ≤ gap) {below : List Bar} (hb : Gapped gap below)
    (h : Gapped gap l.bars) : Tightened gap l (settle gap below l).value ∧
      (1 ≤ gap → Clear (settle gap below l).value.bars below) := by
  unfold settle
  cases he : l.bars with
  | nil =>
    refine ⟨.refl h, fun _ => ?_⟩
    change Clear l.bars below
    rw [he]
    exact List.isChain_nil
  | cons bar bars =>
    rw [he] at h
    obtain ⟨hs, hc⟩ := settleFrom_swept hg (hb.ascending hg) hb.upright h
    exact ⟨hs.tightened hg fun b => by rw [he], hc⟩

theorem value_settleAll_cons (gap : Int) (l : Level) (rest : List Level) :
    (settleAll gap (l :: rest)).value = match (settleAll gap rest).value with
      | [] => [l]
      | below :: rest => (l.settle gap below.bars).value :: below :: rest := by
  rw [settleAll, value_bind]
  cases (settleAll gap rest).value <;> rfl

theorem settleAll_tightened (hg : 0 ≤ gap) {levels : List Level}
    (h : ∀ l ∈ levels, Gapped gap l.bars) :
    List.Forall₂ (Tightened gap) levels (settleAll gap levels).value ∧
      (1 ≤ gap → (settleAll gap levels).value.IsChain fun l m => Clear l.bars m.bars) := by
  induction levels with
  | nil => exact ⟨.nil, fun _ => List.isChain_nil⟩
  | cons l rest ih =>
    obtain ⟨hl, hrest⟩ := List.forall_mem_cons.1 h
    obtain ⟨hm, hc⟩ := ih hrest
    rw [value_settleAll_cons]
    cases he : (settleAll gap rest).value with
    | nil =>
      rw [he] at hm
      exact ⟨.cons (.refl hl) hm, fun _ => List.isChain_singleton _⟩
    | cons below rest' =>
      rw [he] at hm hc
      obtain ⟨_, _, hb, -, -⟩ := List.forall₂_cons_right_iff.1 hm
      obtain ⟨hlm, hlc⟩ := settle_tightened hg hb.gapped hl
      exact ⟨.cons hlm hm, fun hone => List.isChain_cons_cons.2 ⟨hlc hone, hc hone⟩⟩

theorem value_merge (gap : Int) (levels : List Level) : (merge gap levels).value =
    (settleAll gap (levels.map fun l => (close gap l).value)).value := by
  unfold merge
  simp only [value_bind, value_mapM]

section merge

variable {levels : List Level}

theorem gapped_close (hg : 0 ≤ gap) (hw : ∀ l ∈ levels, ∀ b ∈ l.bars, b.x ≤ b.stop) :
    ∀ m ∈ levels.map fun l => (close gap l).value, Gapped gap m.bars := by
  rw [List.forall_mem_map]
  exact fun l hl => (close_tightened hg (hw l hl)).gapped

theorem merge_tightened (hg : 0 ≤ gap) (hw : ∀ l ∈ levels, ∀ b ∈ l.bars, b.x ≤ b.stop) :
    List.Forall₂ (Tightened gap) levels (merge gap levels).value := by
  have hm := (settleAll_tightened hg (gapped_close hg hw)).1
  rw [List.forall₂_map_left_iff] at hm
  rw [value_merge]
  have hclose (l : Level) (hl : l ∈ levels) : Tightened gap l (close gap l).value :=
    close_tightened hg (hw l hl)
  exact ((List.forall₂_and_left levels _).2 ⟨hclose, hm⟩).imp fun _ _ h => h.1.trans h.2

theorem merge_clear (hg : 1 ≤ gap) (hw : ∀ l ∈ levels, ∀ b ∈ l.bars, b.x ≤ b.stop) :
    (merge gap levels).value.IsChain fun l m => Clear l.bars m.bars := by
  rw [value_merge]
  exact (settleAll_tightened (by omega) (gapped_close (by omega) hw)).2 hg

/-- Merging leaves levels where they are, spaces their bars out and clears all gaps. -/
theorem merge_merged (hg : 1 ≤ gap) (hw : ∀ l ∈ levels, ∀ b ∈ l.bars, b.x < b.stop) :
    List.Forall₂ (Merged gap) levels (merge gap levels).value ∧
      (merge gap levels).value.IsChain fun l m => Clear l.bars m.bars := by
  have hw' (l : Level) (hl : l ∈ levels) (b : Bar) (hb : b ∈ l.bars) : b.x ≤ b.stop :=
    Int.le_of_lt (hw l hl b hb)
  have hm := @merge_tightened gap levels (by omega) hw'
  exact ⟨((List.forall₂_and_left levels _).2 ⟨hw, hm⟩).imp fun _ _ h => h.2.merged h.1,
    merge_clear hg hw'⟩

end merge

end Level

end Drawing

end Pedigree
