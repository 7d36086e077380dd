import Pedigree.Packing.Links

/-! What links are between: two different blocks of the list. -/
namespace Pedigree

open Drawing

namespace Link

theorem index_lt_of_mem_roots {blocks : List Block} {m : Id} {i : Nat} {r : Rect}
    (h : (m, i, r) ∈ roots blocks) : i < blocks.length := by
  obtain ⟨⟨b, j⟩, hb, h⟩ := List.mem_flatMap.1 h
  obtain ⟨root, -, h⟩ := List.mem_filterMap.1 h
  obtain ⟨m', -, h⟩ := Option.map_eq_some_iff.1 h
  cases h
  have := (List.mk_mem_zipIdx_iff_le_and_getElem?_sub.1 hb).2
  exact (List.getElem?_eq_some_iff.1 this).1

/-- A person makes a link to the block in which the member is listed as a root, unless it is the
person's own. -/
theorem ofPerson?_eq_some_iff {roots : List (Id × Nat × Rect)} {anchor : Nat} {p : Person}
    {l : Link} : ofPerson? roots anchor p = some l ↔
      (∃ m, p.member = some m ∧ roots.lookup m = some (l.family, l.root)) ∧
        l.anchor = anchor ∧ l.family ≠ anchor ∧ l.person = p.rect := by
  constructor
  · intro h
    obtain ⟨m, hm, h⟩ := Option.bind_eq_some_iff.1 h
    obtain ⟨⟨family, root⟩, hr, h⟩ := Option.bind_eq_some_iff.1 h
    dsimp only at h
    split at h
    · cases h
    · next hne =>
      cases h
      exact ⟨⟨m, hm, hr⟩, rfl, hne, rfl⟩
  · rintro ⟨⟨m, hm, hr⟩, rfl, hne, hp⟩
    unfold ofPerson?
    simp [hm, hr, hne, ← hp]

theorem mem_candidates {roots : List (Id × Nat × Rect)} {b : Block} {anchor : Nat} {l : Link} :
    l ∈ candidates roots b anchor ↔ ∃ p ∈ descendants b, ofPerson? roots anchor p = some l := by
  unfold candidates
  rw [mem_sortBy, mem_sortBy, List.mem_filterMap]

theorem anchor_of_mem_candidates {roots : List (Id × Nat × Rect)} {b : Block} {anchor : Nat}
    {l : Link} (h : l ∈ candidates roots b anchor) : l.anchor = anchor := by
  obtain ⟨p, -, hp⟩ := mem_candidates.1 h
  exact (ofPerson?_eq_some_iff.1 hp).2.1

theorem firstOfPairs_sublist (taken ls : List Link) : (firstOfPairs taken ls).Sublist ls := by
  induction ls generalizing taken with
  | nil => exact List.Sublist.refl _
  | cons l ls ih =>
    unfold firstOfPairs
    split
    · exact (ih taken).cons l
    · exact (ih (l :: taken)).cons_cons l

/-- A link joins two different blocks. -/
theorem valid_of_mem_find {blocks : List Block} {l : Link} (h : l ∈ find blocks) :
    l.anchor ≠ l.family ∧ l.family < blocks.length := by
  have hm := (firstOfPairs_sublist _ _).subset h
  obtain ⟨⟨b, i⟩, -, hm⟩ := List.mem_flatMap.1 hm
  obtain ⟨p, -, hp⟩ := mem_candidates.1 hm
  obtain ⟨⟨m, -, hr⟩, ha, hf, -⟩ := ofPerson?_eq_some_iff.1 hp
  exact ⟨fun he => hf (he ▸ ha), index_lt_of_mem_roots (Keyed.mem_of_lookup hr)⟩

end Link

end Pedigree
