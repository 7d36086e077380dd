import Pedigree.Proofs.Lists
import Pedigree.Proofs.Rings

/-! The search for an offset. It finds the best offset of the diamond, the first one of several, if
any offset there fits; if none does, it goes on ring by ring and comes to an end, because far enough
to the right every offset fits. Where staying is possible, the offset is none at all or brings the
cells strictly closer. -/
namespace Pedigree

namespace Packing

theorem fits_iff {blocked moving : Region} {offset : Pos} :
    fits blocked moving offset ↔
      ∀ c, moving.contains ⟨c.x - offset.x, c.y - offset.y⟩ → ¬blocked.contains c := by
  unfold fits
  rw [Bool.not_eq_true', Bool.eq_false_iff]
  rw [Ne, Region.meets_iff, not_exists]
  simp only [Region.contains_shift, not_and]

/-- No moved cell is a blocked one. -/
def Misses (blocked moving : Region) (offset : Pos) : Prop :=
  ∀ c, moving.contains c → ¬blocked.contains ⟨c.x + offset.x, c.y + offset.y⟩

theorem fits_iff_misses {blocked moving : Region} {offset : Pos} :
    fits blocked moving offset ↔ Misses blocked moving offset := by
  rw [fits_iff]
  constructor
  · intro h c hc
    exact h ⟨c.x + offset.x, c.y + offset.y⟩ (by simpa using hc)
  · intro h c hc
    simpa using h _ hc

theorem fits_zero_iff {blocked moving : Region} :
    fits blocked moving ⟨0, 0⟩ ↔ ∀ c, moving.contains c → ¬blocked.contains c := by
  simp [fits_iff]

@[simp] theorem left_zero (goal : Pos) : left goal ⟨0, 0⟩ = goal.length := by simp [left]

variable {blocked moving : Region} {goal : Pos}

/-! ### Within the diamond -/

/-- What the search holds after it has seen some offsets. -/
inductive Holds (blocked moving : Region) (goal : Pos) (seen : List Pos) :
    Option Pos × Nat → Prop
  | nothing : (∀ p ∈ seen, Misses blocked moving p → goal.length < left goal p) →
      Holds blocked moving goal seen (none, goal.length + 1)
  | best {o : Pos} : o ∈ seen → Misses blocked moving o → left goal o ≤ goal.length →
      (∀ p ∈ seen, Misses blocked moving p → left goal o < left goal p ∨
        left goal o = left goal p ∧ (p = o ∨ Earlier o p)) →
      Holds blocked moving goal seen (some o, left goal o)

theorem Holds.improve {seen : List Pos} {best : Option Pos × Nat}
    (h : Holds blocked moving goal seen best) {offset : Pos}
    (hlate : ∀ p ∈ seen, Earlier p offset) :
    Holds blocked moving goal (seen ++ [offset]) (improve blocked moving goal best offset) := by
  have hmem : offset ∈ seen ++ [offset] := List.mem_append_right _ List.mem_cons_self
  unfold Packing.improve
  split
  · -- The offset is better than all that fit before it.
    next hi =>
    obtain ⟨hlt, hfits⟩ := Bool.and_eq_true_iff.1 hi
    have hlt := of_decide_eq_true hlt
    have hbetter : left goal offset ≤ goal.length ∧
        ∀ p ∈ seen, Misses blocked moving p → left goal offset < left goal p := by
      cases h with
      | nothing hall =>
        exact ⟨Nat.le_of_lt_succ hlt, fun p hp hm => Nat.lt_of_lt_of_le hlt (hall p hp hm)⟩
      | best _ _ hle hall =>
        refine ⟨by omega, fun p hp hm => ?_⟩
        have := hall p hp hm
        omega
    refine .best hmem (fits_iff_misses.1 hfits) hbetter.1 fun p hp hm => ?_
    obtain hp | hp := List.mem_append.1 hp
    · exact Or.inl (hbetter.2 p hp hm)
    · exact Or.inr ⟨by rw [List.mem_singleton.1 hp], Or.inl (List.mem_singleton.1 hp)⟩
  · next hi =>
    have hworse (hm : Misses blocked moving offset) : best.2 ≤ left goal offset := by
      rw [Bool.and_eq_true, decide_eq_true_eq, fits_iff_misses] at hi
      exact Nat.le_of_not_lt fun hlt => hi ⟨hlt, hm⟩
    cases h with
    | nothing hall =>
      refine .nothing fun p hp hm => ?_
      obtain hp | hp := List.mem_append.1 hp
      · exact hall p hp hm
      · obtain rfl := List.mem_singleton.1 hp
        exact hworse hm
    | best ho hfits hle hall =>
      refine .best (List.mem_append_left _ ho) hfits hle fun p hp hm => ?_
      obtain hp | hp := List.mem_append.1 hp
      · exact hall p hp hm
      · obtain rfl := List.mem_singleton.1 hp
        exact (Nat.lt_or_eq_of_le (hworse hm)).imp_right fun he => ⟨he, Or.inr (hlate _ ho)⟩

theorem Holds.foldl {seen offsets : List Pos} {best : Option Pos × Nat}
    (h : Holds blocked moving goal seen best) (ho : (seen ++ offsets).Pairwise Earlier) :
    Holds blocked moving goal (seen ++ offsets)
      (offsets.foldl (Packing.improve blocked moving goal) best) := by
  induction offsets generalizing seen best with
  | nil => rwa [List.append_nil]
  | cons offset offsets ih =>
    have hlate : ∀ p ∈ seen, Earlier p offset := fun p hp =>
      (List.pairwise_append.1 ho).2.2 p hp offset List.mem_cons_self
    rw [← List.singleton_append, ← List.append_assoc] at ho ⊢
    exact ih (h.improve hlate) ho

/-- An offset that is no longer than the goal, leaves no more than the goal and fits. -/
structure Candidate (blocked moving : Region) (goal offset : Pos) : Prop where
  short : offset.length ≤ goal.length
  near : left goal offset ≤ goal.length
  misses : Misses blocked moving offset

/-- An offset with a property, before all others that have it. -/
def First (P : Pos → Prop) (o : Pos) : Prop := P o ∧ ∀ p, P p → p = o ∨ Earlier o p

/-- A candidate that leaves least. -/
def Closest (blocked moving : Region) (goal offset : Pos) : Prop :=
  Candidate blocked moving goal offset ∧
    ∀ p, Candidate blocked moving goal p → left goal offset ≤ left goal p

theorem bestWithin_spec (blocked moving : Region) (goal : Pos) :
    (bestWithin blocked moving goal = none ∧ ¬∃ p, Candidate blocked moving goal p) ∨
      ∃ o, bestWithin blocked moving goal = some o ∧
        First (Closest blocked moving goal) o := by
  have hnil : Holds blocked moving goal [] (none, goal.length + 1) :=
    .nothing fun p hp => absurd hp List.not_mem_nil
  have h : Holds blocked moving goal (rings 0 (goal.length + 1))
      ((rings 0 (goal.length + 1)).foldl (Packing.improve blocked moving goal)
        (none, goal.length + 1)) := hnil.foldl (pairwise_rings 0 (goal.length + 1))
  have hb : bestWithin blocked moving goal = ((rings 0 (goal.length + 1)).foldl
      (Packing.improve blocked moving goal) (none, goal.length + 1)).1 := by
    rw [bestWithin, rings, List.foldl_flatMap, List.range_eq_range']
  have hseen {p : Pos} (hp : p.length ≤ goal.length) : p ∈ rings 0 (goal.length + 1) :=
    mem_rings.2 ⟨Nat.zero_le _, by omega⟩
  rw [hb]
  generalize (rings 0 (goal.length + 1)).foldl _ _ = found at h
  cases h with
  | nothing hall =>
    refine Or.inl ⟨rfl, ?_⟩
    rintro ⟨p, hp⟩
    have := hall p (hseen hp.short) hp.misses
    have := hp.near
    omega
  | @best o ho hm hle hall =>
    have hshort : o.length ≤ goal.length := by
      have := (mem_rings.1 ho).2
      omega
    have hleast (p : Pos) (hp : Candidate blocked moving goal p) :
        left goal o < left goal p ∨ left goal o = left goal p ∧ (p = o ∨ Earlier o p) :=
      hall p (hseen hp.short) hp.misses
    refine Or.inr ⟨o, rfl, ⟨⟨hshort, hle, hm⟩, fun p hp => ?_⟩, fun p hp => ?_⟩
    · have := hleast p hp
      omega
    · have hpo := hp.2 o ⟨hshort, hle, hm⟩
      exact ((hleast p hp.1).resolve_left (Nat.not_lt.2 hpo)).2

theorem bestWithin_of_fits_zero (goal : Pos) (h : fits blocked moving ⟨0, 0⟩) :
    ∃ offset, bestWithin blocked moving goal = some offset ∧ fits blocked moving offset ∧
      (offset = ⟨0, 0⟩ ∨ left goal offset < goal.length) := by
  have hzero : Candidate blocked moving goal ⟨0, 0⟩ :=
    ⟨Nat.zero_le _, Nat.le_of_eq (left_zero goal), fits_iff_misses.1 h⟩
  obtain ⟨-, hnone⟩ | ⟨o, ho, hfirst⟩ := bestWithin_spec blocked moving goal
  · exact absurd ⟨_, hzero⟩ hnone
  · refine ⟨o, ho, fits_iff_misses.2 hfirst.1.1.misses, ?_⟩
    refine (Nat.lt_or_eq_of_le hfirst.1.1.near).symm.imp_left fun he => ?_
    -- No offset leaves less than the goal itself, so staying is as good and comes first.
    have hstay : Closest blocked moving goal ⟨0, 0⟩ :=
      ⟨hzero, fun p hp => by rw [left_zero, ← he]; exact hfirst.1.2 p hp⟩
    exact ((hfirst.2 _ hstay).resolve_right (not_earlier_zero o)).symm

theorem searchOffset_of_bestWithin {offset : Pos}
    (h : bestWithin blocked moving goal = some offset) :
    searchOffset blocked moving goal = offset := by
  rw [searchOffset, h, Option.getD_some]

/-! ### Beyond the diamond -/

/-- Looking through one ring after another, without an end, from a length on comes to an offset. -/
inductive Sweep (blocked moving : Region) : Nat → Pos → Prop
  | found {r : Nat} {o : Pos} : (ring r).find? (fits blocked moving) = some o →
      Sweep blocked moving r o
  | next {r : Nat} {o : Pos} : (ring r).find? (fits blocked moving) = none →
      Sweep blocked moving (r + 1) o → Sweep blocked moving r o

theorem sweep_of_findSome? {r count : Nat} {o : Pos} (h : (List.range' r count).findSome?
    (fun r => (ring r).find? (fits blocked moving)) = some o) : Sweep blocked moving r o := by
  induction count generalizing r with
  | zero => cases h
  | succ count ih =>
    rw [List.range'_succ, List.findSome?_cons] at h
    split at h
    · next hr =>
      cases h
      exact .found hr
    · next hr => exact .next hr (ih h)

/-- Cells that are moved right by the length of the escape or more have left all blocked ones. -/
theorem misses_of_escape_le {r : Nat} (h : escape blocked moving ≤ r) :
    Misses blocked moving ⟨r, 0⟩ := by
  intro c hc hb
  obtain ⟨s, hs, hsc⟩ := Region.contains_iff.1 hc
  obtain ⟨t, ht, htc⟩ := Region.contains_iff.1 hb
  have hleft := getD_min?_le (List.mem_map_of_mem (f := (·.left)) hs)
  have hright := le_getD_max? (List.mem_map_of_mem (f := (·.right)) ht)
  have hsx := (CellRect.contains_iff.1 hsc).1
  have htx := (CellRect.contains_iff.1 htc).2.1
  dsimp only at htx
  rw [escape] at h
  omega

theorem firstBeyond_spec (blocked moving : Region) (length : Nat) :
    Sweep blocked moving (length + 1) (firstBeyond blocked moving length) ∧
      First (fun o => length < o.length ∧ Misses blocked moving o)
        (firstBeyond blocked moving length) := by
  have hfind : (rings (length + 1) (escape blocked moving + 1)).find? (fits blocked moving) =
      (List.range' (length + 1) (escape blocked moving + 1)).findSome?
        fun r => (ring r).find? (fits blocked moving) := List.find?_flatMap
  cases h : (rings (length + 1) (escape blocked moving + 1)).find? (fits blocked moving) with
  | none =>
    -- The last ring goes as far as the escape.
    have hesc := List.find?_eq_none.1 h ⟨(length + 1 + escape blocked moving : Nat), 0⟩
      (mem_rings.2 (by simp only [Pos.length]; omega))
    exact absurd (fits_iff_misses.2 (misses_of_escape_le (Nat.le_add_left _ _))) hesc
  | some o =>
    rw [hfind] at h
    have ho : firstBeyond blocked moving length = o := by rw [firstBeyond, h, Option.getD_some]
    rw [ho]
    refine ⟨sweep_of_findSome? h, ?_⟩
    rw [← hfind] at h
    obtain ⟨hfits, before, after, hsplit, hbefore⟩ := List.find?_eq_some_iff_append.1 h
    have hasc := pairwise_rings (length + 1) (escape blocked moving + 1)
    have hmem : o ∈ rings (length + 1) (escape blocked moving + 1) := by rw [hsplit]; simp
    rw [hsplit, List.pairwise_append, List.pairwise_cons] at hasc
    refine ⟨⟨(mem_rings.1 hmem).1, fits_iff_misses.1 hfits⟩, fun p hp => ?_⟩
    obtain ⟨hlen, hm⟩ := hp
    by_cases hin : p.length < length + 1 + (escape blocked moving + 1)
    · have hpm : p ∈ rings (length + 1) (escape blocked moving + 1) := mem_rings.2 ⟨hlen, hin⟩
      rw [hsplit, List.mem_append, List.mem_cons] at hpm
      obtain hpm | rfl | hpm := hpm
      · have hnot := hbefore p hpm
        rw [Bool.not_eq_true', Bool.eq_false_iff] at hnot
        exact absurd (fits_iff_misses.2 hm) hnot
      · exact Or.inl rfl
      · exact Or.inr (hasc.2.1.1 p hpm)
    · have := (mem_rings.1 hmem).2
      exact Or.inr (Or.inl (by omega))

/-- The search finds an offset that fits: the first of the closest candidates, or, where there is
no candidate, the one that a sweep over all longer offsets comes to, which is the first that
fits. -/
theorem searchOffset_first (blocked moving : Region) (goal : Pos) :
    Misses blocked moving (searchOffset blocked moving goal) ∧
    ((∃ p, Candidate blocked moving goal p) →
      First (Closest blocked moving goal) (searchOffset blocked moving goal)) ∧
    ((¬∃ p, Candidate blocked moving goal p) →
      Sweep blocked moving (goal.length + 1) (searchOffset blocked moving goal) ∧
      First (fun o => goal.length < o.length ∧ Misses blocked moving o)
        (searchOffset blocked moving goal)) := by
  obtain ⟨hbest, hnone⟩ | ⟨o, hbest, hfirst⟩ := bestWithin_spec blocked moving goal
  · have hs : searchOffset blocked moving goal = firstBeyond blocked moving goal.length := by
      rw [searchOffset, hbest, Option.getD_none]
    have h := firstBeyond_spec blocked moving goal.length
    rw [hs]
    exact ⟨h.2.1.2, fun hp => absurd hp hnone, fun _ => h⟩
  · rw [searchOffset_of_bestWithin hbest]
    exact ⟨hfirst.1.1.misses, fun _ => hfirst, fun hp => absurd ⟨o, hfirst.1.1⟩ hp⟩

/-- Seven by seven cells around the origin. -/
def square : Region := [⟨-3, 4, -3, 4⟩]

/-- The cell at the origin. -/
def originCell : Region := [⟨0, 1, 0, 1⟩]

/-- Inside a blocked square a short way leads nowhere, and a longer one out of it. -/
theorem searchOffset_first_square :
    (¬∃ p, Candidate square originCell ⟨1, 0⟩ p) ∧
    First (fun o => 1 < o.length ∧ Misses square originCell o) ⟨-4, 0⟩ ∧
    (∃ p, Candidate square originCell ⟨3, -4⟩ p) ∧
    First (Closest square originCell ⟨3, -4⟩) ⟨3, -4⟩ := by
  have hnone : ¬∃ p, Candidate square originCell ⟨1, 0⟩ p := by
    rintro ⟨p, hp⟩
    have hs : p.length ≤ 1 := hp.short
    refine hp.misses ⟨0, 0⟩ (by decide) (Region.contains_iff.2 ⟨_, List.mem_cons_self, ?_⟩)
    rw [Pos.length] at hs
    simp only [CellRect.contains_iff]
    omega
  have hsome : Candidate square originCell ⟨3, -4⟩ ⟨3, -4⟩ :=
    ⟨by decide, by decide, fits_iff_misses.1 (by decide)⟩
  have hleft : searchOffset square originCell ⟨1, 0⟩ = ⟨-4, 0⟩ := by decide
  have hup : searchOffset square originCell ⟨3, -4⟩ = ⟨3, -4⟩ := by decide +kernel
  refine ⟨hnone, ?_, ⟨_, hsome⟩, ?_⟩
  · rw [← hleft]
    exact ((searchOffset_first square originCell ⟨1, 0⟩).2.2 hnone).2
  · have h := (searchOffset_first square originCell ⟨3, -4⟩).2.1 ⟨_, hsome⟩
    rwa [hup] at h

end Packing

end Pedigree
