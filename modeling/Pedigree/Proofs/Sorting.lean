import Pedigree.Drawing.Sorting
import Pedigree.Proofs.Lists

/-! Laws of sorting and grouping: what comes out is sorted, a sorted list stays, keys ascend
strictly, and each group holds the elements of its key. -/
namespace Pedigree.Drawing

theorem eraseRepsLoop_eq [BEq α] (a : α) (xs acc : List α) :
    List.eraseRepsBy.loop (· == ·) a xs acc =
      acc.reverse ++ List.eraseRepsBy.loop (· == ·) a xs [] := by
  induction xs generalizing a acc with
  | nil => simp [List.eraseRepsBy.loop]
  | cons b xs ih =>
    unfold List.eraseRepsBy.loop
    split
    · exact ih a acc
    · rw [ih b (a :: acc), ih b [a]]
      simp

@[simp] theorem eraseReps_nil [BEq α] : ([] : List α).eraseReps = [] := rfl

@[simp] theorem eraseReps_singleton [BEq α] (a : α) : [a].eraseReps = [a] := rfl

theorem eraseReps_cons_cons [DecidableEq α] (a b : α) (xs : List α) :
    (a :: b :: xs).eraseReps =
      if a = b then (b :: xs).eraseReps else a :: (b :: xs).eraseReps := by
  have step : (a :: b :: xs).eraseReps = match a == b with
      | true => List.eraseRepsBy.loop (· == ·) a xs []
      | false => List.eraseRepsBy.loop (· == ·) b xs [a] := rfl
  rw [step]
  by_cases h : a = b
  · subst h; simp [List.eraseReps, List.eraseRepsBy]
  · rw [if_neg h, beq_false_of_ne h]
    exact eraseRepsLoop_eq b xs [a]

theorem head_eraseReps [DecidableEq α] (a : α) (xs : List α) :
    ∃ ys, (a :: xs).eraseReps = a :: ys := by
  induction xs generalizing a with
  | nil => exact ⟨[], rfl⟩
  | cons b xs ih =>
    rw [eraseReps_cons_cons]
    split
    · next h =>
      obtain ⟨ys, hys⟩ := ih b
      exact ⟨ys, by rw [hys, h]⟩
    · exact ⟨_, rfl⟩

theorem head?_eraseReps [DecidableEq α] (xs : List α) : xs.eraseReps.head? = xs.head? := by
  cases xs with
  | nil => rfl
  | cons a xs =>
    obtain ⟨ys, hys⟩ := head_eraseReps a xs
    rw [hys]
    rfl

theorem getLast?_eraseReps [DecidableEq α] (xs : List α) :
    xs.eraseReps.getLast? = xs.getLast? := by
  induction xs with
  | nil => rfl
  | cons a xs ih =>
    cases xs with
    | nil => rfl
    | cons b xs =>
      rw [eraseReps_cons_cons, List.getLast?_cons_cons]
      split
      · exact ih
      · obtain ⟨ys, hys⟩ := head_eraseReps b xs
        rw [hys] at ih ⊢
        rw [List.getLast?_cons_cons, ih]

@[simp] theorem mem_eraseReps [DecidableEq α] {x : α} {xs : List α} :
    x ∈ xs.eraseReps ↔ x ∈ xs := by
  induction xs with
  | nil => simp
  | cons a xs ih =>
    cases xs with
    | nil => simp
    | cons b xs =>
      rw [eraseReps_cons_cons]
      split
      · next h => rw [ih, h]; simp
      · rw [List.mem_cons, ih, List.mem_cons (a := x) (b := a)]

/-- An element put in front of equal keys keeps its place among them. -/
theorem pairwise_insertBy {key : α → Int} {R : α → α → Prop} {x : α} {ys : List α}
    (hx : ∀ y ∈ ys, R x y)
    (h : ys.Pairwise fun a b => key a < key b ∨ key a = key b ∧ R a b) :
    (insertBy key x ys).Pairwise fun a b => key a < key b ∨ key a = key b ∧ R a b := by
  induction ys with
  | nil => simp [insertBy]
  | cons y ys ih =>
    obtain ⟨hy, hys⟩ := List.pairwise_cons.1 h
    unfold insertBy
    split
    · next hxy =>
      refine List.pairwise_cons.2 ⟨fun z hz => ?_, h⟩
      have hRz := hx z hz
      have hxz : key x ≤ key z := by
        obtain rfl | hz := List.mem_cons.1 hz
        · exact hxy
        · have := hy z hz
          omega
      obtain hlt | heq := Int.lt_or_eq_of_le hxz
      · exact Or.inl hlt
      · exact Or.inr ⟨heq, hRz⟩
    · next hxy =>
      refine List.pairwise_cons.2 ⟨fun z hz => ?_, ih (fun z hz => hx z ?_) hys⟩
      · obtain rfl | hz := mem_insertBy.1 hz
        · exact Or.inl (by omega)
        · exact hy z hz
      · exact List.mem_cons_of_mem _ hz

/-- Sorting is stable: elements with equal keys keep their order. -/
theorem pairwise_sortBy_of_pairwise (key : α → Int) {R : α → α → Prop} {xs : List α}
    (h : xs.Pairwise R) :
    (sortBy key xs).Pairwise fun a b => key a < key b ∨ key a = key b ∧ R a b := by
  induction xs with
  | nil => exact List.Pairwise.nil
  | cons x xs ih =>
    obtain ⟨hx, hxs⟩ := List.pairwise_cons.1 h
    exact pairwise_insertBy (fun y hy => hx y (mem_sortBy.1 hy)) (ih hxs)

theorem pairwise_sortBy (key : α → Int) (xs : List α) :
    (sortBy key xs).Pairwise (key · ≤ key ·) := by
  have htrue : xs.Pairwise fun _ _ => True := List.pairwise_iff_forall_sublist.2 fun _ => trivial
  refine (pairwise_sortBy_of_pairwise key htrue).imp fun h => ?_
  omega

theorem perm_insertBy (key : α → Int) (x : α) (ys : List α) :
    (insertBy key x ys).Perm (x :: ys) := by
  induction ys with
  | nil => exact List.Perm.refl _
  | cons y ys ih =>
    unfold insertBy
    split
    · exact List.Perm.refl _
    · exact (ih.cons y).trans (List.Perm.swap x y ys)

theorem perm_sortBy (key : α → Int) (xs : List α) : (sortBy key xs).Perm xs := by
  induction xs with
  | nil => exact List.Perm.nil
  | cons x xs ih => exact (perm_insertBy key x _).trans (ih.cons x)

theorem insertBy_of_le {key : α → Int} {x : α} {ys : List α} (h : ∀ y ∈ ys, key x ≤ key y) :
    insertBy key x ys = x :: ys := by
  cases ys with
  | nil => rfl
  | cons y ys => rw [insertBy, if_pos (h y List.mem_cons_self)]

theorem sortBy_cons_of_le {key : α → Int} {x : α} {xs : List α} (h : ∀ y ∈ xs, key x ≤ key y) :
    sortBy key (x :: xs) = x :: sortBy key xs :=
  insertBy_of_le fun y hy => h y (mem_sortBy.1 hy)

theorem sortBy_of_pairwise {key : α → Int} {xs : List α} (h : xs.Pairwise (key · ≤ key ·)) :
    sortBy key xs = xs := by
  induction xs with
  | nil => rfl
  | cons x xs ih =>
    obtain ⟨hx, hxs⟩ := List.pairwise_cons.1 h
    rw [sortBy_cons_of_le hx, ih hxs]

theorem insertBy_cons_of_lt {key : α → Int} {x y : α} (h : key y < key x) (ys : List α) :
    insertBy key x (y :: ys) = y :: insertBy key x ys := by
  rw [insertBy, if_neg (Int.not_le.2 h)]

theorem filter_insertBy {key : α → Int} (p : α → Bool) (x : α) {ys : List α}
    (h : ys.Pairwise (key · ≤ key ·)) : (insertBy key x ys).filter p =
      if p x then insertBy key x (ys.filter p) else ys.filter p := by
  induction ys with
  | nil => cases hp : p x <;> simp [insertBy, hp]
  | cons y ys ih =>
    obtain ⟨hy, hys⟩ := List.pairwise_cons.1 h
    obtain hyx | hxy := Int.lt_or_le (key y) (key x)
    · rw [insertBy_cons_of_lt hyx, List.filter_cons, ih hys, List.filter_cons (x := y)]
      cases p x <;> cases p y <;> simp [insertBy_cons_of_lt hyx]
    · have hle : ∀ z ∈ y :: ys, key x ≤ key z := List.forall_mem_cons.2
        ⟨hxy, fun z hz => Int.le_trans hxy (hy z hz)⟩
      rw [insertBy_of_le hle, insertBy_of_le fun z hz => hle z (List.mem_filter.1 hz).1,
        List.filter_cons]

/-- Sorting keeps the order of equal keys, so it may come before or after filtering. -/
theorem filter_sortBy (key : α → Int) (p : α → Bool) (xs : List α) :
    (sortBy key xs).filter p = sortBy key (xs.filter p) := by
  induction xs with
  | nil => rfl
  | cons x xs ih =>
    have hs : sortBy key (x :: xs) = insertBy key x (sortBy key xs) := rfl
    rw [hs, filter_insertBy p x (pairwise_sortBy key xs), ih, List.filter_cons]
    split <;> rfl

/-- The head of a sorted list is the first one of those with the least key. -/
theorem first_of_head?_sortBy {key : α → Int} {xs : List α} {x : α}
    (h : (sortBy key xs).head? = some x) : ∃ before after, xs = before ++ x :: after ∧
      (∀ y ∈ before, key x < key y) ∧ ∀ y ∈ after, key x ≤ key y := by
  induction xs with
  | nil => cases h
  | cons a xs ih =>
    have hs : sortBy key (a :: xs) = insertBy key a (sortBy key xs) := rfl
    rw [hs] at h
    cases hxs : sortBy key xs with
    | nil =>
      rw [hxs] at h
      cases h
      have hnil : xs = [] := by simpa [hxs] using perm_sortBy key xs
      subst hnil
      exact ⟨[], [], rfl, by simp, by simp⟩
    | cons y ys =>
      rw [hxs, insertBy] at h
      split at h
      · next hay =>
        cases h
        have hp := pairwise_sortBy key xs
        rw [hxs] at hp
        refine ⟨[], xs, rfl, by simp, fun z hz => ?_⟩
        rw [← (perm_sortBy key xs).mem_iff, hxs] at hz
        obtain rfl | hz := List.mem_cons.1 hz
        · exact hay
        · exact Int.le_trans hay ((List.pairwise_cons.1 hp).1 z hz)
      · next hay =>
        cases h
        obtain ⟨before, after, rfl, hb, ha⟩ := ih (by rw [hxs]; rfl)
        refine ⟨a :: before, after, rfl, fun z hz => ?_, ha⟩
        obtain rfl | hz := List.mem_cons.1 hz
        · omega
        · exact hb z hz

/-- Sorting by one key and then by another one brings the first of the least to the front. -/
theorem first_of_head?_sortBy_sortBy {major minor : α → Int} {xs : List α} {x : α}
    (h : (sortBy major (sortBy minor xs)).head? = some x) : ∃ before after,
      xs = before ++ x :: after ∧
        (∀ y ∈ before, major x < major y ∨ major x = major y ∧ minor x < minor y) ∧
        ∀ y ∈ after, major x < major y ∨ major x = major y ∧ minor x ≤ minor y := by
  obtain ⟨front, back, hsplit, hfront, hback⟩ := first_of_head?_sortBy h
  -- Among those of the same major key it is the first one of the least minor key.
  have hleast : ∀ y ∈ xs, major x ≤ major y := fun y hy => by
    rw [← (perm_sortBy minor xs).mem_iff, hsplit] at hy
    obtain hy | hy := List.mem_append.1 hy
    · exact Int.le_of_lt (hfront y hy)
    · obtain rfl | hy := List.mem_cons.1 hy
      · exact Int.le_refl _
      · exact hback y hy
  have hnone : front.filter (fun y => major y == major x) = [] :=
    List.filter_eq_nil_iff.2 fun y hy => by
      have := hfront y hy
      rw [beq_iff_eq]
      omega
  have hhead : (sortBy minor (xs.filter fun y => major y == major x)).head? = some x := by
    rw [← filter_sortBy, hsplit, List.filter_append, hnone, List.nil_append, List.filter_cons,
      if_pos (beq_self_eq_true _), List.head?_cons]
  obtain ⟨before, after, hrow, hb, ha⟩ := first_of_head?_sortBy hhead
  rw [← List.filterMap_eq_filter] at hrow
  obtain ⟨pre, x', post, rfl, hx', rfl, rfl⟩ := exists_split_of_filterMap hrow
  obtain ⟨rfl, -⟩ := Option.guard_eq_some_iff.1 hx'
  rw [List.filterMap_eq_filter] at hb ha
  have row {ys : List α} {y : α} (hy : y ∈ ys) (hm : major y = major x') :
      y ∈ ys.filter fun y => major y == major x' := List.mem_filter.2 ⟨hy, beq_iff_eq.2 hm⟩
  refine ⟨pre, post, rfl, fun y hy => ?_, fun y hy => ?_⟩
  · obtain hlt | heq := Int.lt_or_eq_of_le (hleast y (List.mem_append_left _ hy))
    · exact Or.inl hlt
    · exact Or.inr ⟨heq, hb y (row hy heq.symm)⟩
  · obtain hlt | heq := Int.lt_or_eq_of_le
      (hleast y (List.mem_append_right _ (List.mem_cons_of_mem _ hy)))
    · exact Or.inl hlt
    · exact Or.inr ⟨heq, ha y (row hy heq.symm)⟩

theorem pairwise_lt_eraseReps {xs : List Int} (h : xs.Pairwise (· ≤ ·)) :
    xs.eraseReps.Pairwise (· < ·) := by
  induction xs with
  | nil => simp
  | cons a xs ih =>
    obtain ⟨ha, hxs⟩ := List.pairwise_cons.1 h
    cases xs with
    | nil => simp
    | cons b xs =>
      rw [eraseReps_cons_cons]
      split
      · exact ih hxs
      · next hne =>
        refine List.pairwise_cons.2 ⟨fun c hc => ?_, ih hxs⟩
        have hab := ha b (by simp)
        have hbc : b ≤ c := by
          obtain rfl | hc := List.mem_cons.1 (mem_eraseReps.1 hc)
          · exact Int.le_refl _
          · exact (List.pairwise_cons.1 hxs).1 c hc
        omega

theorem pairwise_keys (key : α → Int) (xs : List α) : (keys key xs).Pairwise (· < ·) :=
  pairwise_lt_eraseReps (pairwise_sortBy id _)

theorem mem_keys {key : α → Int} {xs : List α} {k : Int} :
    k ∈ keys key xs ↔ ∃ x ∈ xs, key x = k := by
  simp [keys]

theorem mem_groupsBy {key : α → Int} {xs : List α} {g : Int × List α} :
    g ∈ groupsBy key xs ↔ g.1 ∈ keys key xs ∧ g.2 = xs.filter (key · == g.1) := by
  obtain ⟨k, ys⟩ := g
  unfold groupsBy
  rw [List.mem_map]
  constructor
  · rintro ⟨l, hl, h⟩
    cases h
    exact ⟨hl, rfl⟩
  · rintro ⟨hk, h⟩
    exact ⟨k, hk, congrArg (k, ·) h.symm⟩

theorem mem_group {key : α → Int} {xs : List α} {g : Int × List α} (hg : g ∈ groupsBy key xs)
    {x : α} : x ∈ g.2 ↔ x ∈ xs ∧ key x = g.1 := by
  rw [(mem_groupsBy.1 hg).2, List.mem_filter, beq_iff_eq]

theorem group_ne_nil {key : α → Int} {xs : List α} {g : Int × List α}
    (hg : g ∈ groupsBy key xs) : g.2 ≠ [] := by
  obtain ⟨x, hx, hk⟩ := mem_keys.1 (mem_groupsBy.1 hg).1
  exact List.ne_nil_of_mem ((mem_group hg).2 ⟨hx, hk⟩)

theorem exists_group (key : α → Int) {xs : List α} {x : α} (hx : x ∈ xs) :
    ∃ g ∈ groupsBy key xs, g.1 = key x ∧ x ∈ g.2 := by
  have hg : (key x, xs.filter (key · == key x)) ∈ groupsBy key xs :=
    mem_groupsBy.2 ⟨mem_keys.2 ⟨x, hx, rfl⟩, rfl⟩
  exact ⟨_, hg, rfl, (mem_group hg).2 ⟨hx, rfl⟩⟩

theorem pairwise_groupsBy (key : α → Int) (xs : List α) :
    (groupsBy key xs).Pairwise (·.1 < ·.1) :=
  List.pairwise_map.2 (pairwise_keys key xs)

theorem keys_cons_of_lt {key : α → Int} {a : α} {xs : List α} (h : ∀ x ∈ xs, key a < key x) :
    keys key (a :: xs) = key a :: keys key xs := by
  have hk : ∀ k ∈ xs.map key, key a < k := by
    intro k hk
    obtain ⟨x, hx, rfl⟩ := List.mem_map.1 hk
    exact h x hx
  have hs : sortBy id ((a :: xs).map key) = key a :: sortBy id (xs.map key) :=
    sortBy_cons_of_le fun k hm => Int.le_of_lt (hk k hm)
  unfold keys
  rw [hs]
  cases he : sortBy id (xs.map key) with
  | nil => rfl
  | cons k ks =>
    have hlt := hk k (mem_sortBy.1 (he ▸ List.mem_cons_self))
    rw [eraseReps_cons_cons, if_neg (by omega)]

/-- An element with a smaller key than all others is a group of its own, the first one. -/
theorem groupsBy_cons_of_lt {key : α → Int} {a : α} {xs : List α}
    (h : ∀ x ∈ xs, key a < key x) :
    groupsBy key (a :: xs) = (key a, [a]) :: groupsBy key xs := by
  unfold groupsBy
  rw [keys_cons_of_lt h, List.map_cons]
  congr 1
  · have hnone : xs.filter (key · == key a) = [] := by
      rw [List.filter_eq_nil_iff]
      intro x hx he
      have hlt := h x hx
      rw [beq_iff_eq] at he
      omega
    rw [List.filter_cons, if_pos (beq_self_eq_true _), hnone]
  · refine List.map_congr_left fun k hk => ?_
    obtain ⟨x, hx, rfl⟩ := mem_keys.1 hk
    have hlt := h x hx
    rw [List.filter_cons_of_neg]
    rw [beq_iff_eq]
    omega

end Pedigree.Drawing
