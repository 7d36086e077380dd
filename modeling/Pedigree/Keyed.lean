/-! Lists of pairs of a key and a value, in which every key stands once. -/
namespace Pedigree.Keyed

variable {α β : Type} [BEq α] [LawfulBEq α]

/-- Gives a key its value; an earlier one is forgotten. -/
def set (entries : List (α × β)) (k : α) (v : β) : List (α × β) :=
  (k, v) :: entries.filter (·.1 != k)

theorem mem_of_lookup {entries : List (α × β)} {k : α} {v : β} (h : entries.lookup k = some v) :
    (k, v) ∈ entries := by
  induction entries with
  | nil => cases h
  | cons e es ih =>
    obtain ⟨i, w⟩ := e
    rw [List.lookup_cons] at h
    split at h
    · next hk =>
      cases h
      rw [beq_iff_eq.1 hk]
      exact List.mem_cons_self
    · exact List.mem_cons_of_mem _ (ih h)

theorem lookup_of_mem {entries : List (α × β)} (hn : (entries.map (·.1)).Nodup) {e : α × β}
    (he : e ∈ entries) : entries.lookup e.1 = some e.2 := by
  induction entries with
  | nil => cases he
  | cons x xs ih =>
    obtain ⟨i, v⟩ := x
    rw [List.map_cons, List.nodup_cons] at hn
    cases List.mem_cons.mp he with
    | inl h => subst h; simp
    | inr h =>
      have hne : e.1 ≠ i := fun heq => hn.1 (List.mem_map.mpr ⟨e, h, heq⟩)
      rw [List.lookup_cons, beq_eq_false_iff_ne.mpr hne]
      exact ih hn.2 h

theorem lookup_filter_ne (entries : List (α × β)) {k l : α} (h : l ≠ k) :
    (entries.filter (·.1 != k)).lookup l = entries.lookup l := by
  induction entries with
  | nil => rfl
  | cons e es ih =>
    obtain ⟨i, v⟩ := e
    by_cases hi : i = k
    · subst hi; simp [beq_eq_false_iff_ne.2 h, List.lookup_cons, ih]
    · simp [hi, List.lookup_cons, ih]

theorem lookup_set [DecidableEq α] (entries : List (α × β)) (k l : α) (v : β) :
    (set entries k v).lookup l = if l = k then some v else entries.lookup l := by
  by_cases h : l = k
  · simp [set, h]
  · have hb : (l == k) = false := by simp [h]
    simp [set, List.lookup_cons, hb, h, lookup_filter_ne]

end Pedigree.Keyed
