import Mathlib.Logic.Relation
import Mathlib.Order.Bounds.Basic
import Pedigree.Proofs.Generations
import Pedigree.Proofs.Linked
import Pedigree.Proofs.Sorting

/-! Which links are found. Somebody below a root of a block leads to the block in which the same
member is a root first. Of all who lead from one block to another, the one furthest up makes the
link, in a row the one furthest left, and in one place the one that the walk meets first. Two blocks
get one link, which starts at the earlier block if both lead to each other. -/
namespace Pedigree

open Drawing

/-- The order of places: from top to bottom, and within a row from left to right. -/
def Rect.Precedes (r q : Rect) : Prop := r.y < q.y ∨ r.y = q.y ∧ r.x < q.x

namespace Drawing.Person

/-- The second person stands below the first one, at whatever depth. -/
def Below (p q : Person) : Prop := Relation.TransGen (fun p q => q ∈ p.children) p q

mutual

theorem reaches_of_mem_walk {q : Person} : (p : Person) → q ∈ p.walk →
    Relation.ReflTransGen (fun p q => q ∈ p.children) p q
  | ⟨rect, name, partner, member, children⟩, h => by
    rw [walk] at h
    cases List.mem_cons.1 h with
    | inl h =>
      subst h
      exact Relation.ReflTransGen.refl
    | inr h =>
      obtain ⟨c, hc, hq⟩ := exists_reaches_of_mem_walkAll children h
      exact Relation.ReflTransGen.head hc hq

theorem exists_reaches_of_mem_walkAll {q : Person} : (ps : List Person) → q ∈ walkAll ps →
    ∃ p ∈ ps, Relation.ReflTransGen (fun p q => q ∈ p.children) p q
  | [], h => by
    rw [walkAll] at h
    cases h
  | p :: ps, h => by
    rw [walkAll] at h
    cases List.mem_append.1 h with
    | inl h => exact ⟨p, List.mem_cons_self, reaches_of_mem_walk p h⟩
    | inr h =>
      obtain ⟨c, hc, hq⟩ := exists_reaches_of_mem_walkAll ps h
      exact ⟨c, List.mem_cons_of_mem _ hc, hq⟩

end

theorem mem_walk_of_reaches {p q : Person}
    (h : Relation.ReflTransGen (fun p q => q ∈ p.children) p q) : q ∈ p.walk := by
  induction h using Relation.ReflTransGen.head_induction_on with
  | refl => exact self_mem_walk q
  | head hc _ ih =>
    rw [walk_eq]
    exact List.mem_cons_of_mem _ (List.mem_flatMap.2 ⟨_, hc, ih⟩)

theorem mem_walkAll_children_iff {p q : Person} : q ∈ walkAll p.children ↔ p.Below q := by
  constructor
  · intro h
    obtain ⟨c, hc, hq⟩ := exists_reaches_of_mem_walkAll _ h
    exact Relation.TransGen.head' hc hq
  · intro h
    obtain ⟨c, hc, hq⟩ := Relation.TransGen.head'_iff.1 h
    rw [walkAll_eq]
    exact List.mem_flatMap.2 ⟨c, hc, mem_walk_of_reaches hq⟩

end Drawing.Person

namespace Link

theorem mem_descendants_iff {b : Block} {p : Person} :
    p ∈ descendants b ↔ p.partner = false ∧ ∃ r ∈ b.roots, r.person.Below p := by
  unfold descendants
  simp only [List.mem_flatMap, List.mem_filter, Person.mem_walkAll_children_iff, Bool.not_eq_true']
  constructor
  · rintro ⟨r, hr, hp, hn⟩
    exact ⟨hn, r, hr, hp⟩
  · rintro ⟨hn, r, hr, hp⟩
    exact ⟨r, hr, hp, hn⟩

/-! ### The first root of a member -/

/-- A member is a root of a block. -/
def RootIn (blocks : List Block) (m : Id) (i : Nat) : Prop :=
  ∃ b, blocks[i]? = some b ∧ ∃ r ∈ b.roots, r.person.member = some m

/-- The box of a member where it is a root first, in the order of blocks and in a block in the
order of its roots. -/
structure FirstRoot (blocks : List Block) (m : Id) (family : Nat) (box : Rect) : Prop where
  root : ∃ b r, blocks[family]? = some b ∧
    b.roots.find? (fun r => r.person.member = some m) = some r ∧ r.person.rect = box
  first : ∀ i < family, ¬RootIn blocks m i

theorem FirstRoot.rootIn {blocks : List Block} {m : Id} {family : Nat} {box : Rect}
    (h : FirstRoot blocks m family box) : RootIn blocks m family := by
  obtain ⟨b, r, hb, hr, -⟩ := h.root
  exact ⟨b, hb, r, List.mem_of_find?_eq_some hr, by simpa using List.find?_some hr⟩

theorem FirstRoot.isLeast {blocks : List Block} {m : Id} {family : Nat} {box : Rect}
    (h : FirstRoot blocks m family box) : IsLeast {i | RootIn blocks m i} family :=
  ⟨h.rootIn, fun i hi => Nat.le_of_not_lt fun hlt => h.first i hlt hi⟩

theorem FirstRoot.unique {blocks : List Block} {m : Id} {i j : Nat} {box box' : Rect}
    (h : FirstRoot blocks m i box) (h' : FirstRoot blocks m j box') : i = j ∧ box = box' := by
  have hij : i = j := h.isLeast.unique h'.isLeast
  subst hij
  obtain ⟨b, r, hb, hr, rfl⟩ := h.root
  obtain ⟨b', r', hb', hr', rfl⟩ := h'.root
  cases hb.symm.trans hb'
  cases hr.symm.trans hr'
  exact ⟨rfl, rfl⟩

/-- The roots of a block as they are listed, with the number of the block. -/
def rootsOf (e : Block × Nat) : List (Id × Nat × Rect) :=
  e.1.roots.filterMap fun r => r.person.member.map fun m => (m, e.2, r.person.rect)

theorem lookup_rootsOf (e : Block × Nat) (m : Id) : (rootsOf e).lookup m =
    (e.1.roots.find? fun r => r.person.member = some m).map fun r => (e.2, r.person.rect) := by
  unfold rootsOf
  induction e.1.roots with
  | nil => rfl
  | cons r rs ih =>
    rw [List.filterMap_cons, List.find?_cons]
    cases r.person.member with
    | none => exact ih
    | some k =>
      rw [Option.map_some, List.lookup_cons]
      by_cases hk : m = k
      · simp [hk]
      · have hkm : some k ≠ some m := fun h => hk (Option.some.inj h).symm
        rw [beq_eq_false_iff_ne.2 hk, decide_eq_false hkm]
        exact ih

theorem lookup_roots (blocks : List Block) (m : Id) : (roots blocks).lookup m =
    blocks.zipIdx.findSome? fun e => (rootsOf e).lookup m :=
  lookup_flatMap rootsOf blocks.zipIdx m

theorem firstRoot_of_lookup {blocks : List Block} {m : Id} {family : Nat} {box : Rect}
    (h : (roots blocks).lookup m = some (family, box)) : FirstRoot blocks m family box := by
  rw [lookup_roots] at h
  obtain ⟨i, b, hb, hi, hfirst⟩ := first_of_findSome?_zipIdx h
  rw [lookup_rootsOf] at hi
  obtain ⟨r, hr, he⟩ := Option.map_eq_some_iff.1 hi
  cases he
  refine ⟨⟨b, r, hb, hr, rfl⟩, ?_⟩
  rintro j hj ⟨c, hc, q, hq, hm⟩
  have hnone := hfirst j hj c hc
  rw [lookup_rootsOf, Option.map_eq_none_iff, List.find?_eq_none] at hnone
  exact hnone q hq (decide_eq_true hm)

theorem RootIn.exists_firstRoot {blocks : List Block} {m : Id} {i : Nat}
    (h : RootIn blocks m i) : ∃ family box, (roots blocks).lookup m = some (family, box) := by
  obtain ⟨b, hb, r, hr, hm⟩ := h
  have hfind : (b.roots.find? fun r => r.person.member = some m).isSome :=
    List.find?_isSome.2 ⟨r, hr, decide_eq_true hm⟩
  have hsome : ((roots blocks).lookup m).isSome := by
    rw [lookup_roots, List.findSome?_isSome_iff]
    refine ⟨(b, i), List.mk_mem_zipIdx_iff_getElem?.2 hb, ?_⟩
    rw [lookup_rootsOf, Option.isSome_map]
    exact hfind
  obtain ⟨⟨family, box⟩, he⟩ := Option.isSome_iff_exists.1 hsome
  exact ⟨family, box, he⟩

theorem lookup_roots_iff {blocks : List Block} {m : Id} {family : Nat} {box : Rect} :
    (roots blocks).lookup m = some (family, box) ↔ FirstRoot blocks m family box := by
  constructor
  · exact firstRoot_of_lookup
  · intro h
    obtain ⟨i, box', he⟩ := h.rootIn.exists_firstRoot
    obtain ⟨rfl, rfl⟩ := h.unique (firstRoot_of_lookup he)
    exact he

/-! ### Who leads to a block -/

/-- A person leads to the block in which the member is a root first, and to the box of that root. -/
def Leads (blocks : List Block) (p : Person) (family : Nat) (box : Rect) : Prop :=
  ∃ m, p.member = some m ∧ FirstRoot blocks m family box

theorem ofPerson?_roots_iff {blocks : List Block} {anchor : Nat} {p : Person} {l : Link} :
    ofPerson? (roots blocks) anchor p = some l ↔ Leads blocks p l.family l.root ∧
      l.anchor = anchor ∧ l.family ≠ anchor ∧ l.person = p.rect := by
  rw [ofPerson?_eq_some_iff]
  simp only [Leads, lookup_roots_iff]

/-- A link is made by somebody below a root of its anchor who leads to its other block: of all who do,
the one who stands furthest up, in a row furthest left and in one place first in the walk. -/
structure MadeBy (blocks : List Block) (l : Link) (b : Block) (p : Person) : Prop where
  anchor : blocks[l.anchor]? = some b
  notPartner : p.partner = false
  below : ∃ r ∈ b.roots, r.person.Below p
  rect : p.rect = l.person
  leads : Leads blocks p l.family l.root
  first : ∃ before after, descendants b = before ++ p :: after ∧
    (∀ q ∈ before, ∀ box, Leads blocks q l.family box → p.rect.Precedes q.rect) ∧
    ∀ q ∈ after, ∀ box, Leads blocks q l.family box → ¬q.rect.Precedes p.rect

/-- The best link of a block to another one. -/
structure Best (blocks : List Block) (l : Link) : Prop where
  other : l.family ≠ l.anchor
  made : ∃ b p, MadeBy blocks l b p

/-- The link is between two blocks, whichever of them is its anchor. -/
def Joins (l : Link) (a b : Nat) : Prop :=
  l.anchor = a ∧ l.family = b ∨ l.anchor = b ∧ l.family = a

theorem samePair_iff {l k : Link} : samePair l k ↔ l.Joins k.anchor k.family := by
  simp [samePair, Joins]

theorem samePair_self (l : Link) : samePair l l :=
  samePair_iff.2 (Or.inl ⟨rfl, rfl⟩)

theorem samePair_comm {l k : Link} : samePair l k ↔ samePair k l := by
  rw [samePair_iff, samePair_iff]
  unfold Joins
  omega

theorem samePair_congr {l k : Link} (h : samePair l k) (j : Link) :
    samePair l j = samePair k j := by
  rw [Bool.eq_iff_iff, samePair_iff, samePair_iff]
  rw [samePair_iff] at h
  unfold Joins at *
  omega

/-- The best link of a block to another one is the first of its candidates. -/
theorem best_of_find?_candidates {blocks : List Block} {b : Block} {i : Nat} {l : Link}
    (hb : blocks[i]? = some b)
    (h : (candidates (roots blocks) b i).find? (samePair l) = some l) : Best blocks l := by
  rw [← List.head?_filter] at h
  unfold candidates at h
  rw [filter_sortBy, filter_sortBy, List.filter_filterMap] at h
  obtain ⟨front, back, hs, hfront, hback⟩ := first_of_head?_sortBy_sortBy h
  obtain ⟨before, p, after, hd, hp, rfl, rfl⟩ := exists_split_of_filterMap hs
  obtain ⟨hleads, rfl, hne, hrect⟩ := ofPerson?_roots_iff.1 (Option.filter_eq_some_iff.1 hp).1
  -- Whoever leads to the same block makes a candidate for the same pair.
  have candidate {qs : List Person} {q : Person} (hq : q ∈ qs) {box : Rect}
      (hbox : Leads blocks q l.family box) : (⟨l.anchor, l.family, q.rect, box⟩ : Link) ∈
        qs.filterMap fun q => (ofPerson? (roots blocks) l.anchor q).filter (samePair l) := by
    refine List.mem_filterMap.2 ⟨q, hq, Option.filter_eq_some_iff.2 ⟨?_, ?_⟩⟩
    · exact ofPerson?_roots_iff.2 ⟨hbox, rfl, hne, rfl⟩
    · exact samePair_iff.2 (Or.inl ⟨rfl, rfl⟩)
  have hmem : p ∈ descendants b := by
    rw [hd]
    exact List.mem_append_right _ List.mem_cons_self
  obtain ⟨hpartner, hbelow⟩ := mem_descendants_iff.1 hmem
  refine ⟨hne, b, p, hb, hpartner, hbelow, hrect.symm, hleads, before, after, hd, ?_, ?_⟩
  · intro q hq box hbox
    have := hfront _ (candidate hq hbox)
    rwa [hrect] at this
  · intro q hq box hbox hbefore
    have := hback _ (candidate hq hbox)
    rw [hrect] at this
    unfold Rect.Precedes at hbefore
    dsimp only at this
    omega

/-! ### The first link of each pair -/

theorem mem_firstOfPairs_iff {taken ls : List Link} {l : Link} :
    l ∈ firstOfPairs taken ls ↔
      ls.find? (samePair l) = some l ∧ ∀ k ∈ taken, ¬samePair l k := by
  induction ls generalizing taken with
  | nil => simp [firstOfPairs]
  | cons k ks ih =>
    unfold firstOfPairs
    split
    · next hk =>
      obtain ⟨t, ht, hkt⟩ := List.any_eq_true.1 hk
      rw [ih]
      refine and_congr_left fun hfree => ?_
      have hlk : samePair l k = false := by
        rw [Bool.eq_false_iff]
        intro hlk
        rw [← samePair_congr hlk] at hkt
        exact hfree t ht hkt
      rw [List.find?_cons, hlk]
    · next hk =>
      have hnew : ∀ t ∈ taken, ¬samePair k t := fun t ht hkt =>
        hk (List.any_eq_true.2 ⟨t, ht, hkt⟩)
      rw [List.mem_cons, ih, List.find?_cons, List.forall_mem_cons]
      cases hlk : samePair l k with
      | true =>
        constructor
        · rintro (rfl | ⟨-, hn, -⟩)
          · exact ⟨rfl, hnew⟩
          · exact absurd rfl hn
        · rintro ⟨he, -⟩
          exact Or.inl (Option.some.inj he).symm
      | false =>
        have hne : l ≠ k := by
          rintro rfl
          rw [samePair_self] at hlk
          cases hlk
        simp [hne]

theorem pairwise_firstOfPairs (taken ls : List Link) :
    (firstOfPairs taken ls).Pairwise fun l k => ¬samePair l k := by
  induction ls generalizing taken with
  | nil => exact List.Pairwise.nil
  | cons l ls ih =>
    unfold firstOfPairs
    split
    · exact ih taken
    · refine List.pairwise_cons.2 ⟨fun k hk hlk => ?_, ih (l :: taken)⟩
      exact (mem_firstOfPairs_iff.1 hk).2 l List.mem_cons_self (samePair_comm.1 hlk)

/-- The candidates of all blocks. -/
def offered (blocks : List Block) : List Link :=
  blocks.zipIdx.flatMap fun e => candidates (roots blocks) e.1 e.2

theorem mem_find_iff {blocks : List Block} {l : Link} :
    l ∈ find blocks ↔ (offered blocks).find? (samePair l) = some l := by
  have hfind : find blocks = firstOfPairs [] (offered blocks) := rfl
  rw [hfind, mem_firstOfPairs_iff, and_iff_left]
  intro k hk
  cases hk

theorem mem_offered {blocks : List Block} {b : Block} {i : Nat} {p : Person} {family : Nat}
    {box : Rect} (hb : blocks[i]? = some b) (hp : p ∈ descendants b)
    (hleads : Leads blocks p family box) (hne : family ≠ i) :
    (⟨i, family, p.rect, box⟩ : Link) ∈ candidates (roots blocks) b i ∧
      (⟨i, family, p.rect, box⟩ : Link) ∈ offered blocks := by
  have hc : (⟨i, family, p.rect, box⟩ : Link) ∈ candidates (roots blocks) b i :=
    mem_candidates.2 ⟨p, hp, ofPerson?_roots_iff.2 ⟨hleads, rfl, hne, rfl⟩⟩
  exact ⟨hc, List.mem_flatMap.2 ⟨(b, i), List.mk_mem_zipIdx_iff_getElem?.2 hb, hc⟩⟩

theorem pairwise_candidates (blocks : List Block) (b : Block) (i : Nat) :
    (candidates (roots blocks) b i).Pairwise fun l k => ¬k.person.Precedes l.person := by
  unfold candidates
  have hx := pairwise_sortBy (·.person.x) ((descendants b).filterMap (ofPerson? (roots blocks) i))
  refine (pairwise_sortBy_of_pairwise (·.person.y) hx).imp ?_
  intro l k h
  unfold Rect.Precedes
  omega

theorem pairwise_offered (blocks : List Block) : (offered blocks).Pairwise fun l k =>
    l.anchor < k.anchor ∨ l.anchor = k.anchor ∧ ¬k.person.Precedes l.person := by
  have hnumbers : blocks.zipIdx.Pairwise (·.2 < ·.2) := by
    have h := List.pairwise_lt_range' (s := 0) (n := blocks.length)
    rwa [← List.zipIdx_map_snd 0 blocks, List.pairwise_map] at h
  unfold offered
  rw [List.pairwise_flatMap]
  constructor
  · intro e _
    refine (pairwise_candidates blocks e.1 e.2).imp_of_mem ?_
    intro l k hl hk h
    rw [anchor_of_mem_candidates hl, anchor_of_mem_candidates hk]
    exact Or.inr ⟨rfl, h⟩
  · refine hnumbers.imp ?_
    intro e f hef l hl k hk
    rw [anchor_of_mem_candidates hl, anchor_of_mem_candidates hk]
    exact Or.inl hef

/-! ### The links that are found -/

/-- The links between some blocks: one for each two blocks of which one leads to the other. -/
structure WellChosen (blocks : List Block) (links : List Link) : Prop where
  best : ∀ l ∈ links, Best blocks l
  /-- No two links are between the same two blocks. -/
  apart : links.Pairwise fun l k => ¬l.Joins k.anchor k.family
  ordered : links.Pairwise fun l k =>
    l.anchor < k.anchor ∨ l.anchor = k.anchor ∧ ¬k.person.Precedes l.person
  /-- Nobody who leads to another block is without a link between the two. -/
  complete : ∀ i b, blocks[i]? = some b → ∀ p ∈ descendants b, ∀ family box,
    Leads blocks p family box → family ≠ i → ∃ l ∈ links, l.Joins i family
  /-- A link starts at the later block only if the earlier one does not lead back. -/
  direction : ∀ l ∈ links, l.family < l.anchor → ∀ b, blocks[l.family]? = some b →
    ∀ p ∈ descendants b, ∀ box, ¬Leads blocks p l.anchor box

theorem exists_joining {blocks : List Block} {l : Link} (h : l ∈ offered blocks) :
    ∃ k ∈ find blocks, k.Joins l.anchor l.family := by
  have hsome : ((offered blocks).find? (samePair l)).isSome :=
    List.find?_isSome.2 ⟨l, h, samePair_self l⟩
  obtain ⟨k, hk⟩ := Option.isSome_iff_exists.1 hsome
  have hlk : samePair l k := List.find?_some hk
  refine ⟨k, mem_find_iff.2 ?_, samePair_iff.1 (samePair_comm.1 hlk)⟩
  have hsame : samePair l = samePair k := funext (samePair_congr hlk)
  rwa [← hsame]

/-- Whoever makes a link is the best of the block, and no earlier block leads to the same pair. -/
theorem exists_of_mem_find {blocks : List Block} {l : Link} (h : l ∈ find blocks) :
    ∃ b, blocks[l.anchor]? = some b ∧
      (candidates (roots blocks) b l.anchor).find? (samePair l) = some l ∧
      ∀ j < l.anchor, ∀ c, blocks[j]? = some c →
        (candidates (roots blocks) c j).find? (samePair l) = none := by
  rw [mem_find_iff, offered, List.find?_flatMap] at h
  obtain ⟨i, b, hb, hi, hfirst⟩ := first_of_findSome?_zipIdx h
  have ha := anchor_of_mem_candidates (List.mem_of_find?_eq_some hi)
  subst ha
  exact ⟨b, hb, hi, hfirst⟩

theorem best_of_mem_find {blocks : List Block} {l : Link} (h : l ∈ find blocks) :
    Best blocks l := by
  obtain ⟨b, hb, hfind, -⟩ := exists_of_mem_find h
  exact best_of_find?_candidates hb hfind

/-- Packing follows one link for each two blocks of which one leads to the other, and the best one of
its anchor. -/
theorem find_wellChosen (blocks : List Block) : WellChosen blocks (find blocks) := by
  constructor
  case best => exact fun l hl => best_of_mem_find hl
  case apart =>
    refine (pairwise_firstOfPairs [] (offered blocks)).imp ?_
    intro l k h hj
    exact h (samePair_iff.2 hj)
  case ordered =>
    exact (pairwise_offered blocks).sublist (firstOfPairs_sublist [] (offered blocks))
  case complete =>
    intro i b hb p hp family box hleads hne
    exact exists_joining (mem_offered hb hp hleads hne).2
  case direction =>
    intro l hl hlt b hb p hp box hleads
    obtain ⟨-, -, -, hfirst⟩ := exists_of_mem_find hl
    have hne : l.anchor ≠ l.family := Nat.ne_of_gt hlt
    have hnone := List.find?_eq_none.1 (hfirst l.family hlt b hb)
    exact hnone _ (mem_offered hb hp hleads hne).1 (samePair_iff.2 (Or.inr ⟨rfl, rfl⟩))

end Link

end Pedigree
