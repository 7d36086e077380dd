import Pedigree.Identity.Resolver
import Pedigree.Proofs.Links

/-! Which blocks are linked. A member who stands below a root of one block and is a root of others
links the first of these to the block, and no other one; where that is the block itself, nothing is
linked. So two blocks stay without a link exactly if every member they share is a root of an earlier
block than the one in question. -/
namespace Pedigree

open Drawing Checked

namespace Link

/-- A member stands below a root of a block, and not as a partner. -/
def DescendsIn (blocks : List Block) (m : Id) (i : Nat) : Prop :=
  ∃ b, blocks[i]? = some b ∧ ∃ r ∈ b.roots, ∃ p, r.person.Below p ∧ p.partner = false ∧
    p.member = some m

theorem descendsIn_iff {blocks : List Block} {m : Id} {i : Nat} : DescendsIn blocks m i ↔
    ∃ b, blocks[i]? = some b ∧ ∃ p ∈ descendants b, p.member = some m := by
  refine exists_congr fun b => and_congr_right fun _ => ?_
  simp only [mem_descendants_iff]
  constructor
  · rintro ⟨r, hr, p, hp, hn, hm⟩
    exact ⟨p, ⟨hn, r, hr, hp⟩, hm⟩
  · rintro ⟨p, ⟨hn, r, hr, hp⟩, hm⟩
    exact ⟨r, hr, p, hp, hn, hm⟩

theorem Joins.symm {l : Link} {a b : Nat} (h : l.Joins a b) : l.Joins b a := Or.symm h

theorem Best.exists_member {blocks : List Block} {l : Link} (h : Best blocks l) :
    ∃ m, DescendsIn blocks m l.anchor ∧ IsLeast {i | RootIn blocks m i} l.family := by
  obtain ⟨b, p, hmade⟩ := h.made
  obtain ⟨r, hr, hp⟩ := hmade.below
  obtain ⟨m, hm, hfirst⟩ := hmade.leads
  exact ⟨m, ⟨b, hmade.anchor, r, hr, p, hp, hmade.notPartner, hm⟩, hfirst.isLeast⟩

theorem exists_link_of_isLeast {blocks : List Block} {m : Id} {a b : Nat}
    (hd : DescendsIn blocks m a) (hr : IsLeast {i | RootIn blocks m i} b) (hne : a ≠ b) :
    ∃ l ∈ find blocks, l.Joins a b := by
  obtain ⟨block, hblock, p, hp, hm⟩ := descendsIn_iff.1 hd
  have hroot : RootIn blocks m b := hr.1
  obtain ⟨family, box, hlookup⟩ := hroot.exists_firstRoot
  have hfirst := lookup_roots_iff.1 hlookup
  have hb : b = family := hr.unique hfirst.isLeast
  subst hb
  exact exists_joining (mem_offered hblock hp ⟨m, hm, hfirst⟩ hne.symm).2

/-- Two blocks are linked exactly if a member descends in one of them and the other one is the first
block of all in which that member is a root. -/
theorem find_joins_iff (blocks : List Block) (a b : Nat) :
    (∃ l ∈ find blocks, l.Joins a b) ↔ a ≠ b ∧ ∃ m,
      DescendsIn blocks m a ∧ IsLeast {i | RootIn blocks m i} b ∨
        DescendsIn blocks m b ∧ IsLeast {i | RootIn blocks m i} a := by
  constructor
  · rintro ⟨l, hl, hj⟩
    have hbest := best_of_mem_find hl
    obtain ⟨m, hd, hr⟩ := hbest.exists_member
    have hother := hbest.other
    obtain ⟨rfl, rfl⟩ | ⟨rfl, rfl⟩ := hj
    · exact ⟨hother.symm, m, Or.inl ⟨hd, hr⟩⟩
    · exact ⟨hother, m, Or.inr ⟨hd, hr⟩⟩
  · rintro ⟨hne, m, ⟨hd, hr⟩ | ⟨hd, hr⟩⟩
    · exact exists_link_of_isLeast hd hr hne
    · obtain ⟨l, hl, hj⟩ := exists_link_of_isLeast hd hr hne.symm
      exact ⟨l, hl, hj.symm⟩

/-- A son who has a family of his own in his father's block, and another one in a second block. -/
def sonWithTwoHomes : String := "Smith\nBob = Tom\nJohn = Bob\n\nJones\nSmith Bob = Kate\n"

/-- The son descends in the first block and is a root of the second one, but there is no link, as he is
a root of the first block too. -/
theorem find_misses_sonWithTwoHomes : ∃ s blocks,
    (Snapshot.parse sonWithTwoHomes).map (·.1) = .ok s ∧
      (Layout.stacked default (Binary32.ofInt 1) s).run = .ok blocks ∧
      (∃ m, DescendsIn blocks m 0 ∧ RootIn blocks m 1) ∧
      ¬∃ l ∈ find blocks, l.Joins 0 1 := by
  have hp : ((Snapshot.parse sonWithTwoHomes).map fun s =>
      ((Layout.stacked default (Binary32.ofInt 1) s.1).run.map fun blocks =>
        (blocks.map fun b => ((descendants b).any (·.member == some ⟨"Smith::Bob"⟩),
          b.roots.any (·.person.member == some ⟨"Smith::Bob"⟩)),
          (find blocks).length)).toOption).toOption =
      some (some ([(true, true), (false, true)], 0)) := by decide +kernel
  obtain ⟨s, hs, hp⟩ := eq_ok_of_toOption_map hp
  obtain ⟨blocks, hb, hp⟩ := eq_ok_of_toOption_map hp
  obtain ⟨hmembers, hnone⟩ := Prod.mk.inj hp
  obtain ⟨smith, rest, rfl, hsmith, hrest⟩ := List.map_eq_cons_iff.mp hmembers
  obtain ⟨jones, none, rfl, hjones, -⟩ := List.map_eq_cons_iff.mp hrest
  obtain ⟨p, hp, hm⟩ := List.any_eq_true.mp (Prod.mk.inj hsmith).1
  obtain ⟨r, hr, hrm⟩ := List.any_eq_true.mp (Prod.mk.inj hjones).2
  refine ⟨s.1, _, by rw [hs]; rfl, hb, ⟨⟨"Smith::Bob"⟩, ?_, jones, rfl, r, hr, beq_iff_eq.mp hrm⟩, ?_⟩
  · exact descendsIn_iff.mpr ⟨smith, rfl, p, hp, beq_iff_eq.mp hm⟩
  · rw [List.length_eq_zero_iff.mp hnone]
    rintro ⟨l, hl, -⟩
    cases hl

end Link

end Pedigree
