import Pedigree.Proofs.NormalForm

/-! What merging fills of the gaps between the bars of a level. What is left of a gap ends at the
first lower bar that starts in it, so everything behind such a bar is filled, wide or not. -/
namespace Pedigree

open Checked

namespace Drawing

namespace Level

/-- Some bar stands at a place. -/
def Covered (bars : List Bar) (x : Int) : Prop := ∃ b ∈ bars, b.x ≤ x ∧ x < b.stop

/-- The gaps between neighbouring bars. -/
def gapsOf (bars : List Bar) : List (Int × Int) :=
  bars.zipWith (fun b c => (b.stop, c.x)) bars.tail

/-- A part of a gap that no lower bar covers, as wide as it can be. -/
structure OpenPart (below : List Bar) (start stop s t : Int) : Prop where
  start_le : start ≤ s
  le_stop : t ≤ stop
  lt : s < t
  free : ∀ x, s ≤ x → x < t → ¬ Covered below x
  left : s = start ∨ Covered below (s - 1)
  right : t = stop ∨ Covered below t

/-- A place of a gap that a lower bar covers, or that lies in a narrow open part. -/
def Fillable (gap : Int) (below : List Bar) (start stop x : Int) : Prop :=
  Covered below x ∨ ∃ s t, OpenPart below start stop s t ∧ s ≤ x ∧ x < t ∧ t - s < gap

/-- A lower bar starts in a gap. One without a width may not stand at the start of it. -/
def StartsIn (start stop : Int) (d : Bar) : Prop := start ≤ d.x ∧ d.x < stop ∧ start < d.stop

/-- A place of a gap behind a lower bar that starts in it. The whole gap counts as behind a bar
without a width, if that is the first one. -/
def Behind (below : List Bar) (start stop x : Int) : Prop :=
  ∃ d ∈ below, StartsIn start stop d ∧
    (d.stop ≤ x ∨ d.width = 0 ∧ ∀ e ∈ below, StartsIn start stop e → d.x ≤ e.x)

theorem covered_cons (d : Bar) (bars : List Bar) (x : Int) :
    Covered (d :: bars) x ↔ (d.x ≤ x ∧ x < d.stop) ∨ Covered bars x := by
  unfold Covered
  simp only [List.mem_cons, or_and_right, exists_or, exists_eq_left]

theorem gapsOf_cons_cons (b c : Bar) (bars : List Bar) :
    gapsOf (b :: c :: bars) = (b.stop, c.x) :: gapsOf (c :: bars) := rfl

/-- The gaps after a bar depend on where it stops only. -/
theorem gapsOf_congr {b c : Bar} (h : b.stop = c.stop) (bars : List Bar) :
    gapsOf (b :: bars) = gapsOf (c :: bars) := by
  cases bars with
  | nil => rfl
  | cons d bars => rw [gapsOf_cons_cons, gapsOf_cons_cons, h]

variable {gap start stop : Int} {below : List Bar}

theorem Gapped.of_mem_gapsOf (hg : 0 ≤ gap) {b : Bar} {bars : List Bar}
    (h : Gapped gap (b :: bars)) {g : Int × Int} (hm : g ∈ gapsOf (b :: bars)) :
    b.stop ≤ g.1 ∧ g.1 + gap ≤ g.2 := by
  induction bars generalizing b with
  | nil => cases hm
  | cons c bars ih =>
    obtain ⟨hb, hapart⟩ := List.pairwise_cons.1 h.apart
    have hbc := hb c List.mem_cons_self
    rw [gapsOf_cons_cons] at hm
    obtain rfl | hm := List.mem_cons.1 hm
    · exact ⟨Int.le_refl _, hbc⟩
    · obtain ⟨hle, hgap⟩ := ih ⟨(List.forall_mem_cons.1 h.upright).2, hapart⟩ hm
      have hc := h.upright c (List.mem_cons_of_mem _ List.mem_cons_self)
      exact ⟨by omega, hgap⟩

/-- The open part around a place is the only one. -/
theorem OpenPart.unique {s t s' t' x : Int} (h : OpenPart below start stop s t)
    (h' : OpenPart below start stop s' t') (hs : s ≤ x) (ht : x < t) (hs' : s' ≤ x)
    (ht' : x < t') : s = s' ∧ t = t' := by
  have hstart := h.start_le
  have hstart' := h'.start_le
  have hstop := h.le_stop
  have hstop' := h'.le_stop
  constructor
  · obtain hlt | he | hlt := Int.lt_trichotomy s s'
    · have hc := h'.left.resolve_left (by omega)
      exact absurd hc (h.free _ (by omega) (by omega))
    · exact he
    · have hc := h.left.resolve_left (by omega)
      exact absurd hc (h'.free _ (by omega) (by omega))
  · obtain hlt | he | hlt := Int.lt_trichotomy t t'
    · have hc := h.right.resolve_left (by omega)
      exact absurd hc (h'.free _ (by omega) (by omega))
    · exact he
    · have hc := h'.right.resolve_left (by omega)
      exact absurd hc (h.free _ (by omega) (by omega))

/-! ### What is left of one gap -/

theorem behind_cons_of_not {d : Bar} (hd : ¬ StartsIn start stop d) (x : Int) :
    Behind (d :: below) start stop x ↔ Behind below start stop x := by
  unfold Behind
  simp only [List.mem_cons, or_and_right, exists_or, exists_eq_left, forall_eq_or_imp, hd,
    false_and, false_or, false_imp_iff, true_and]

theorem behind_congr {start' : Int}
    (h : ∀ e ∈ below, StartsIn start stop e ↔ StartsIn start' stop e) (x : Int) :
    Behind below start stop x ↔ Behind below start' stop x := by
  have hall (d : Bar) : (∀ e ∈ below, StartsIn start stop e → d.x ≤ e.x) ↔
      ∀ e ∈ below, StartsIn start' stop e → d.x ≤ e.x :=
    forall₂_congr fun e he => imp_congr_left (h e he)
  exact exists_congr fun d => and_congr_right fun hd => and_congr (h d hd)
    (or_congr_right (and_congr_right fun _ => hall d))

/-- What is left of a gap: the places that are neither covered from below nor behind a lower bar,
up to a covered place or an end of the gap on either side. -/
structure Opened (below : List Bar) (start stop : Int) (g : Int × Int) : Prop where
  start_le : start ≤ g.1
  le_stop : g.2 ≤ stop
  mem : ∀ x, start ≤ x → x < stop →
    (g.1 ≤ x ∧ x < g.2 ↔ ¬ Covered below x ∧ ¬ Behind below start stop x)
  left : g.1 < g.2 → g.1 = start ∨ Covered below (g.1 - 1)
  right : g.1 < g.2 → g.2 = stop ∨ Covered below g.2

theorem Opened.part {g : Int × Int} (h : Opened below start stop g) (hlt : g.1 < g.2) :
    OpenPart below start stop g.1 g.2 := by
  have h₁ := h.start_le
  have h₂ := h.le_stop
  refine ⟨h₁, h₂, hlt, fun x hs ht => ?_, h.left hlt, h.right hlt⟩
  exact ((h.mem x (by omega) (by omega)).1 ⟨hs, ht⟩).1

theorem opened_of_free (hfree : ∀ e ∈ below, stop ≤ e.x ∧ e.x ≤ e.stop) :
    Opened below start stop (start, stop) := by
  refine ⟨Int.le_refl _, Int.le_refl _, fun x hs ht => iff_of_true ⟨hs, ht⟩ ⟨?_, ?_⟩,
    fun _ => Or.inl rfl, fun _ => Or.inl rfl⟩
  · rintro ⟨e, he, hle, -⟩
    have := hfree e he
    omega
  · rintro ⟨e, he, hin, -⟩
    have := hfree e he
    have := hin.2.1
    omega

theorem opened_of_covered {d : Bar} (hle : start ≤ stop) (hx : d.x ≤ start) (hd : stop ≤ d.stop) :
    Opened (d :: below) start stop (stop, stop) := by
  refine ⟨hle, Int.le_refl _, fun x hs ht => iff_of_false ?_ fun hn => ?_,
    fun hlt => absurd hlt (Int.lt_irrefl _), fun hlt => absurd hlt (Int.lt_irrefl _)⟩
  · omega
  · exact hn.1 ⟨d, List.mem_cons_self, by omega, by omega⟩

/-- A lower bar left of what is left of a gap, or covering the start of it. -/
theorem Opened.cons_of_before {d : Bar} {start' : Int} {g : Int × Int}
    (h : Opened below start' stop g) (hs : start ≤ start')
    (hstart : start' = start ∨ start' = d.stop ∧ d.x < start) (hdle : d.stop ≤ start')
    (hlater : ∀ e ∈ below, StartsIn start stop e ↔ StartsIn start' stop e) :
    Opened (d :: below) start stop g := by
  have hnot : ¬ StartsIn start stop d := by
    unfold StartsIn
    omega
  have h₁ := h.start_le
  refine ⟨by omega, h.le_stop, fun x hx hx' => ?_, fun hlt => ?_, fun hlt => ?_⟩
  · rw [behind_cons_of_not hnot, behind_congr hlater, covered_cons]
    by_cases hxs : start' ≤ x
    · rw [h.mem x hxs hx', or_iff_right]
      omega
    · have hcov : d.x ≤ x ∧ x < d.stop := by omega
      exact iff_of_false (by omega) fun hn => hn.1 (Or.inl hcov)
  · rw [covered_cons]
    obtain he | hc := h.left hlt
    · omega
    · exact Or.inr (Or.inr hc)
  · rw [covered_cons]
    exact (h.right hlt).imp_right Or.inr

/-- Where the first lower bar that starts in a gap has no width, the whole gap counts as behind it,
and nothing is left. -/
theorem opened_at_empty {d : Bar} (hs : start ≤ d.x) (ht : d.x < stop) (hd : start < d.stop)
    (hzero : d.stop = d.x) (hlater : ∀ e ∈ below, d.stop < e.x) :
    Opened (d :: below) start stop (d.x, d.x) := by
  refine ⟨hs, Int.le_of_lt ht, fun x _ _ => iff_of_false (by omega) fun hn => ?_,
    fun hlt => absurd hlt (Int.lt_irrefl _), fun hlt => absurd hlt (Int.lt_irrefl _)⟩
  have hwidth : d.stop = d.x + d.width := rfl
  refine hn.2 ⟨d, List.mem_cons_self, ⟨hs, ht, hd⟩, Or.inr ⟨by omega, fun e he _ => ?_⟩⟩
  obtain rfl | he := List.mem_cons.1 he
  · exact Int.le_refl _
  · have := hlater e he
    omega

/-- Where the first lower bar that starts in a gap has a width, the gap is left open up to it. -/
theorem opened_at_wide {d : Bar} (hs : start ≤ d.x) (ht : d.x < stop) (hw : d.x < d.stop)
    (hlater : ∀ e ∈ below, d.stop < e.x ∧ e.x ≤ e.stop) :
    Opened (d :: below) start stop (start, d.x) := by
  have hin : StartsIn start stop d := ⟨hs, ht, by omega⟩
  have hwidth : d.stop = d.x + d.width := rfl
  refine ⟨Int.le_refl _, Int.le_of_lt ht, fun x hx _ => ⟨?_, ?_⟩, fun _ => Or.inl rfl,
    fun _ => Or.inr ⟨d, List.mem_cons_self, Int.le_refl _, hw⟩⟩
  · rintro ⟨-, hlt⟩
    constructor
    · rintro ⟨e, he, hle, -⟩
      obtain rfl | he := List.mem_cons.1 he
      · omega
      · have := hlater e he
        omega
    · rintro ⟨e, he, -, hbehind⟩
      obtain rfl | he := List.mem_cons.1 he
      · obtain hbehind | ⟨hzero, -⟩ := hbehind <;> omega
      · have := hlater e he
        obtain hbehind | ⟨-, hfirst⟩ := hbehind
        · omega
        · have := hfirst d List.mem_cons_self hin
          omega
  · rintro ⟨hcov, hbehind⟩
    refine ⟨hx, ?_⟩
    by_contra hle
    by_cases hstop : d.stop ≤ x
    · exact hbehind ⟨d, List.mem_cons_self, hin, Or.inl hstop⟩
    · exact hcov ⟨d, List.mem_cons_self, by omega, by omega⟩

theorem openGap_opened (hg : 1 ≤ gap) (hb : Gapped gap below) (hlt : start < stop) :
    Opened below start stop (openGap start stop below).value := by
  induction below generalizing start with
  | nil => exact opened_of_free fun e he => absurd he List.not_mem_nil
  | cons d below ih =>
    obtain ⟨hd, hapart⟩ := List.pairwise_cons.1 hb.apart
    obtain ⟨hdw, hupright⟩ := List.forall_mem_cons.1 hb.upright
    have hbelow : Gapped gap below := ⟨hupright, hapart⟩
    have hlater : ∀ e ∈ below, d.stop < e.x ∧ e.x ≤ e.stop := fun e he => by
      have := hd e he
      exact ⟨by omega, hupright e he⟩
    have hclear (start : Int) : ∀ e ∈ below, e.stop ≤ start ∨ d.x ≤ e.x := fun e he => by
      have := hlater e he
      omega
    rw [value_openGap_cons]
    split
    · refine opened_of_free (List.forall_mem_cons.2 ⟨⟨by assumption, hdw⟩, fun e he => ?_⟩)
      have := hlater e he
      omega
    split
    · exact (ih hbelow hlt).cons_of_before (Int.le_refl _) (Or.inl rfl) (by assumption)
        fun _ _ => Iff.rfl
    split
    · next hcov => exact opened_of_covered (Int.le_of_lt hlt) hcov.1 hcov.2
    split
    · by_cases hzero : d.stop = d.x
      · rw [if_pos (by omega), hzero, openGap_of_clear (hclear _)]
        exact opened_at_empty (by assumption) (by omega) (by omega) hzero
          fun e he => (hlater e he).1
      · rw [if_neg (by omega), openGap_of_clear (hclear _)]
        exact opened_at_wide (by assumption) (by omega) (by omega) hlater
    · rw [if_pos (by omega)]
      refine (ih hbelow (by omega)).cons_of_before (by omega) (Or.inr ⟨rfl, by omega⟩)
        (Int.le_refl _) fun e he => ?_
      have := hlater e he
      unfold StartsIn
      omega

/-- What is left of a gap and wide enough is what may not be filled and is not behind a bar. -/
theorem Opened.filled_iff {g : Int × Int} (h : Opened below start stop g) {x : Int}
    (hx : start ≤ x) (hx' : x < stop) :
    ¬ (gap ≤ g.2 - g.1 ∧ g.1 ≤ x ∧ x < g.2) ↔
      Fillable gap below start stop x ∨ Behind below start stop x := by
  have hmem := h.mem x hx hx'
  constructor
  · intro hn
    by_cases hin : g.1 ≤ x ∧ x < g.2
    · have hlt : g.1 < g.2 := by omega
      exact Or.inl (Or.inr ⟨g.1, g.2, h.part hlt, hin.1, hin.2, by omega⟩)
    · by_cases hcov : Covered below x
      · exact Or.inl (Or.inl hcov)
      · refine Or.inr ?_
        by_contra hbehind
        exact hin (hmem.2 ⟨hcov, hbehind⟩)
  · rintro hfill ⟨hgap, hs, ht⟩
    obtain ⟨hcov, hbehind⟩ := hmem.1 ⟨hs, ht⟩
    obtain (hcov' | ⟨s, t, hpart, hs', ht', hnarrow⟩) | hbehind' := hfill
    · exact hcov hcov'
    · obtain ⟨rfl, rfl⟩ := (h.part (by omega)).unique hpart hs ht hs' ht'
      omega
    · exact hbehind hbehind'

/-! ### Levels -/

theorem Swept.covered {first : Bar} {bars new : List Bar} (h : Swept gap first bars new) {x : Int}
    (hx : first.x ≤ x) (hx' : x < first.stop) : Covered new x := by
  obtain ⟨c, hc, hwithin⟩ := h.covers.covers first List.mem_cons_self
  have h₁ := hwithin.1
  have h₂ := hwithin.2
  exact ⟨c, hc, by omega, by omega⟩

theorem Swept.not_covered (hg : 0 ≤ gap) {first : Bar} {bars new : List Bar}
    (h : Swept gap first bars new) {x : Int} (hx : x < first.x) : ¬ Covered new x := by
  rintro ⟨c, hc, hcx, -⟩
  have := h.le_of_mem hg c hc
  omega

/-- Of every gap, settling leaves open what is left of it, if that is wide enough. -/
theorem covered_settleFrom_iff (hg : 1 ≤ gap) (hb : Gapped gap below) {last : Bar}
    {bars : List Bar} (h : Gapped gap (last :: bars)) :
    ∀ g ∈ gapsOf (last :: bars), ∀ x, g.1 ≤ x → x < g.2 →
      (Covered (settleFrom gap below last bars).value x ↔
        ¬ (gap ≤ (openGap g.1 g.2 below).value.2 - (openGap g.1 g.2 below).value.1 ∧
          (openGap g.1 g.2 below).value.1 ≤ x ∧ x < (openGap g.1 g.2 below).value.2)) := by
  induction bars generalizing last with
  | nil => exact fun g hm => absurd hm List.not_mem_nil
  | cons bar bars ih =>
    obtain ⟨hlast, hapart⟩ := List.pairwise_cons.1 h.apart
    obtain ⟨hlw, hupright⟩ := List.forall_mem_cons.1 h.upright
    have hbars : Gapped gap (bar :: bars) := ⟨hupright, hapart⟩
    have hbw := hupright bar List.mem_cons_self
    have hgap := hlast bar List.mem_cons_self
    have hopen := openGap_opened hg hb (by omega : last.stop < bar.x)
    have hle₁ := hopen.start_le
    have hle₂ := hopen.le_stop
    have hasc := hb.ascending (by omega)
    rw [value_settleFrom_cons, gapsOf_cons_cons]
    split
    · next hnarrow =>
      have hstop : (last.upTo bar.stop).stop = bar.stop := Bar.upTo_stop _ _
      have hjoined := hbars.replace (last.upTo bar.stop) (by rw [Bar.upTo_x, hstop]; omega) hstop
      have hswept := (settleFrom_swept (by omega) hasc hb.upright hjoined).1
      refine List.forall_mem_cons.2 ⟨fun x hx hx' => ?_, ?_⟩
      · dsimp only at hx hx' ⊢
        refine iff_of_true (hswept.covered ?_ ?_) fun hn => Int.not_le.2 hnarrow hn.1
        · rw [Bar.upTo_x]
          omega
        · rw [hstop]
          omega
      · rw [gapsOf_congr hstop.symm]
        exact ih hjoined
    · generalize ho : (openGap last.stop bar.x below).value = o at *
      have hstop : (bar.fromX o.2).stop = bar.stop := Bar.fromX_stop _ _
      have hcut := hbars.replace (bar.fromX o.2) (by rw [Bar.fromX_x, hstop]; omega) hstop
      have hswept := (settleFrom_swept (by omega) hasc hb.upright hcut).1
      refine List.forall_mem_cons.2 ⟨fun x hx hx' => ?_, fun g hm x hx hx' => ?_⟩
      · dsimp only at hx hx' ⊢
        rw [ho, covered_cons, Bar.upTo_x, Bar.upTo_stop]
        by_cases hright : o.2 ≤ x
        · refine iff_of_true (Or.inr (hswept.covered hright ?_)) (by omega)
          rw [hstop]
          omega
        · rw [or_iff_left (hswept.not_covered (by omega) (Int.not_le.1 hright))]
          omega
      · have hlater := (hbars.of_mem_gapsOf (by omega) hm).1
        rw [gapsOf_congr hstop.symm] at hm
        rw [covered_cons, Bar.upTo_x, Bar.upTo_stop, or_iff_right (by omega)]
        exact ih hcut g hm x hx hx'

theorem settle_fills (hg : 1 ≤ gap) (hb : Gapped gap below) {l : Level} (h : Gapped gap l.bars) :
    ∀ g ∈ gapsOf l.bars, ∀ x, g.1 ≤ x → x < g.2 →
      (Covered (settle gap below l).value.bars x ↔
        Fillable gap below g.1 g.2 x ∨ Behind below g.1 g.2 x) := by
  intro g hm x hx hx'
  rw [← (openGap_opened hg hb (Int.lt_of_le_of_lt hx hx')).filled_iff hx hx']
  unfold settle
  cases he : l.bars with
  | nil =>
    rw [he] at hm
    cases hm
  | cons bar bars =>
    rw [he] at h hm
    exact covered_settleFrom_iff hg hb h g hm x hx hx'

theorem settleAll_eq_cons (gap : Int) (l : Level) (rest : List Level) :
    ∃ m, (settleAll gap (l :: rest)).value = m :: (settleAll gap rest).value := by
  rw [value_settleAll_cons]
  cases (settleAll gap rest).value with
  | nil => exact ⟨l, rfl⟩
  | cons below rest => exact ⟨_, rfl⟩

/-- Each level is settled on what has become of the one below it. -/
theorem getElem?_settleAll {levels : List Level} {i : Nat} {l below : Level}
    (hl : levels[i]? = some l) (hb : (settleAll gap levels).value[i + 1]? = some below) :
    (settleAll gap levels).value[i]? = some (l.settle gap below.bars).value := by
  induction levels generalizing i with
  | nil => cases hl
  | cons first rest ih =>
    obtain ⟨m, hm⟩ := settleAll_eq_cons gap first rest
    cases i with
    | zero =>
      obtain rfl := Option.some.inj hl
      rw [hm] at hb
      have hrest : (settleAll gap rest).value[0]? = some below := hb
      rw [value_settleAll_cons]
      cases he : (settleAll gap rest).value with
      | nil =>
        rw [he] at hrest
        cases hrest
      | cons next others =>
        rw [he] at hrest
        obtain rfl := Option.some.inj hrest
        rfl
    | succ i =>
      rw [hm] at hb ⊢
      exact ih hl hb

variable {levels : List Level}

/-- The pass over the levels, from the lowest upwards, fills the places of a gap that are covered
from below or lie in a part that is open and narrow; and it fills all places behind a lower bar that
starts in the gap, whether they are narrow or not. -/
theorem merge_fills (hg : 1 ≤ gap) (hw : ∀ l ∈ levels, ∀ b ∈ l.bars, 0 ≤ b.width) {i : Nat}
    {l below : Level} (hl : (levels.map fun l => (close gap l).value)[i]? = some l)
    (hb : (merge gap levels).value[i + 1]? = some below) :
    ∃ m, (merge gap levels).value[i]? = some m ∧
      ∀ g ∈ gapsOf l.bars, ∀ x, g.1 ≤ x → x < g.2 → (Covered m.bars x ↔
        Fillable gap below.bars g.1 g.2 x ∨ Behind below.bars g.1 g.2 x) := by
  have hw' : ∀ l ∈ levels, ∀ b ∈ l.bars, b.x ≤ b.stop :=
    fun l hl b hb => Int.le_add_of_nonneg_right (hw l hl b hb)
  have hgapped := gapped_close (by omega) hw' l (List.mem_of_getElem? hl)
  obtain ⟨_, -, hbelow⟩ := exists_mem_of_forall₂ (merge_tightened (by omega : 0 ≤ gap) hw').flip
    (List.mem_of_getElem? hb)
  rw [value_merge] at hb ⊢
  exact ⟨_, getElem?_settleAll hl hb, settle_fills hg hbelow.gapped hgapped⟩

/-- The gap of the middle level is covered up to its last ten places, which stay open; what the
lowest bar leaves of it fills the gap of the topmost level. -/
theorem merge_fills_staggered :
    (∃ m, (merge 10 staggered).value[1]? = some m ∧ ∀ g ∈ gapsOf [⟨0, 20⟩, ⟨40, 30⟩],
      ∀ x, g.1 ≤ x → x < g.2 → (Covered m.bars x ↔
        Fillable 10 [⟨10, 20⟩] g.1 g.2 x ∨ Behind [⟨10, 20⟩] g.1 g.2 x)) ∧
      (merge 10 staggered).value[1]? = some ⟨10, 10, [⟨0, 30⟩, ⟨40, 30⟩]⟩ :=
  ⟨@merge_fills 10 staggered (by decide) (by decide) 1 ⟨10, 10, [⟨0, 20⟩, ⟨40, 30⟩]⟩
    ⟨20, 10, [⟨10, 20⟩]⟩ (by decide) (by decide), by decide⟩

/-- A lower bar that starts where the gap does lets all of it be filled, though most of it is open
and wide. -/
theorem merge_fills_open : (merge 5 [⟨0, 10, [⟨0, 10⟩, ⟨100, 10⟩]⟩, ⟨10, 10, [⟨10, 10⟩]⟩]).value =
      [⟨0, 10, [⟨0, 110⟩]⟩, ⟨10, 10, [⟨10, 10⟩]⟩] ∧
    (10, 100) ∈ gapsOf [⟨0, 10⟩, ⟨100, 10⟩] ∧ Covered [⟨0, 110⟩] 50 ∧
    ¬ Fillable 5 [⟨10, 10⟩] 10 100 50 := by
  have hcov (x : Int) (h : Covered [⟨10, 10⟩] x) : x < 20 := by
    obtain ⟨d, hd, -, hlt⟩ := h
    obtain rfl := List.mem_singleton.1 hd
    exact hlt
  refine ⟨by decide, by decide, ⟨_, List.mem_singleton_self _, by decide, by decide⟩, ?_⟩
  rintro (h | ⟨s, t, hpart, -, ht, hnarrow⟩)
  · have := hcov 50 h
    omega
  · obtain hs | hs := hpart.left
    · omega
    · have := hcov (s - 1) hs
      omega

end Level

end Drawing

end Pedigree
