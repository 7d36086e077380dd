import Mathlib
import Pedigree.Proofs.Lists
import Pedigree.Proofs.Trees

/-! The persons of a family are a forest, whoever a reference may denote: each of them is a root or
stands in one union, which a person before it opens. So reading the branches off from the roots ends
and meets everyone once. -/
namespace Pedigree

open scoped List

namespace Kinship

/-- Whom a person has in its unions, partners before children. -/
def Person.below (p : Person) : List Nat := p.unions.flatMap fun u => u.partners ++ u.children

/-- The roots, and whom the persons have in their unions. -/
def places (k : Kinship) : List Nat := k.roots ++ k.persons.toList.flatMap (·.below)

/-- Whether the first person has the second one in a union. -/
def Above (k : Kinship) (i j : Nat) : Prop := ∃ p, k.persons[i]? = some p ∧ j ∈ p.below

/-- Everyone has one place, and not above those whom it has in its unions. -/
structure Forest (k : Kinship) : Prop where
  once : ∀ i < k.size, k.places.count i = 1
  inside : ∀ i ∈ k.places, i < k.size
  later : ∀ i j, k.Above i j → i < j

/-- A forest but for some persons, who still wait for their place. -/
structure Growing (k : Kinship) (waiting : List Nat) : Prop where
  once : (k.places ++ waiting).Perm (List.range k.size)
  later : ∀ i j, k.Above i j → i < j

theorem Growing.forest {k : Kinship} (h : k.Growing []) : k.Forest := by
  have hp : k.places.Perm (List.range k.size) := by simpa using h.once
  refine ⟨?_, ?_, h.later⟩
  · intro i hi
    rw [hp.count_eq]
    exact List.count_eq_one_of_mem List.nodup_range (List.mem_range.2 hi)
  · intro i hi
    exact List.mem_range.1 (hp.mem_iff.1 hi)

theorem growing_empty (label : String) : Growing ⟨label, #[], []⟩ [] := by
  refine ⟨List.Perm.refl _, ?_⟩
  rintro i j ⟨p, hp, -⟩
  cases hp

/-- Persons without unions have nobody above or below them. -/
theorem below_append {persons added : List Person} (hu : ∀ p ∈ added, p.unions = []) :
    (persons ++ added).flatMap (·.below) = persons.flatMap (·.below) := by
  rw [List.flatMap_append, List.append_right_eq_self, List.flatMap_eq_nil_iff]
  intro p hp
  rw [Person.below, hu p hp, List.flatMap_nil]

theorem above_append {k : Kinship} {label : String} {roots : List Nat} {added : List Person}
    (hu : ∀ p ∈ added, p.unions = []) {i j : Nat}
    (h : Above ⟨label, k.persons ++ added.toArray, roots⟩ i j) : k.Above i j := by
  obtain ⟨p, hp, hj⟩ := h
  rw [Array.getElem?_append] at hp
  split at hp
  · exact ⟨p, hp, hj⟩
  · rw [List.getElem?_toArray] at hp
    rw [Person.below, hu p (List.mem_of_getElem? hp), List.flatMap_nil] at hj
    cases hj

theorem Growing.root {k : Kinship} {waiting : List Nat} (h : k.Growing waiting) {p : Person}
    (hu : p.unions = []) : (k.root p).1.Growing waiting := by
  have hp : ∀ q ∈ [p], q.unions = [] := by simpa using hu
  have hpush : k.persons.push p = k.persons ++ [p].toArray := by simp
  refine ⟨?_, ?_⟩
  · have hplaces : (k.root p).1.places = k.roots ++ [k.size] ++
        k.persons.toList.flatMap (·.below) := by
      simp only [places, Kinship.root, Array.toList_push]
      rw [below_append hp]
    have hsize : (k.root p).1.size = k.size + 1 := by
      simp [size, Kinship.root]
    rw [hplaces, hsize, List.range_succ]
    calc k.roots ++ [k.size] ++ k.persons.toList.flatMap (·.below) ++ waiting
        = k.roots ++ ([k.size] ++ (k.persons.toList.flatMap (·.below) ++ waiting)) := by simp
      _ ~ k.roots ++ ((k.persons.toList.flatMap (·.below) ++ waiting) ++ [k.size]) :=
        List.perm_append_comm.append_left _
      _ = k.places ++ waiting ++ [k.size] := by simp [places]
      _ ~ List.range k.size ++ [k.size] := h.once.append_right _
  · intro i j hij
    apply h.later
    apply above_append hp
    simpa only [Kinship.root, hpush] using hij

theorem Growing.register {k : Kinship} {waiting : List Nat} (h : k.Growing waiting)
    {added : List Person} (hu : ∀ p ∈ added, p.unions = []) :
    (k.register added).1.Growing (waiting ++ (k.register added).2) := by
  refine ⟨?_, ?_⟩
  · have hplaces : (k.register added).1.places = k.places := by
      simp only [places, Kinship.register, Array.toList_append]
      rw [below_append hu]
    have hsize : (k.register added).1.size = k.size + added.length := by
      simp [size, Kinship.register]
    have hrange : List.range (k.size + added.length) =
        List.range k.size ++ List.range' k.size added.length := by
      rw [List.range_eq_range', List.range_eq_range', ← List.range'_append]
      simp
    rw [hplaces, hsize, hrange, ← List.append_assoc]
    exact h.once.append_right _
  · intro i j hij
    exact h.later i j (above_append hu hij)

theorem below_union (p : Person) (u : Union) :
    Person.below { p with unions := p.unions ++ [u] } = p.below ++ (u.partners ++ u.children) := by
  simp [Person.below]

/-- Those who wait get their place in a union of someone before them. -/
theorem Growing.openUnion {k : Kinship} {waiting : List Nat} {opener : Nat} {u : Union}
    (h : k.Growing (waiting ++ u.partners ++ u.children)) (ho : opener < k.size)
    (hlt : ∀ j ∈ u.partners ++ u.children, opener < j) :
    (k.openUnion opener u).Growing waiting := by
  refine ⟨?_, ?_⟩
  · have hplaces : (k.openUnion opener u).places.Perm
        (k.places ++ (u.partners ++ u.children)) := by
      simp only [places, Kinship.openUnion, Array.toList_modify, List.append_assoc]
      exact (flatMap_modify (by simpa [size] using ho) (below_union · u)).append_left _
    have hsize : (k.openUnion opener u).size = k.size := by
      simp [size, Kinship.openUnion]
    rw [hsize]
    calc (k.openUnion opener u).places ++ waiting
        ~ k.places ++ (u.partners ++ u.children) ++ waiting := hplaces.append_right _
      _ = k.places ++ ((u.partners ++ u.children) ++ waiting) := List.append_assoc ..
      _ ~ k.places ++ (waiting ++ (u.partners ++ u.children)) :=
        List.perm_append_comm.append_left _
      _ = k.places ++ (waiting ++ u.partners ++ u.children) := by simp
      _ ~ List.range k.size := h.once
  · rintro i j ⟨p, hp, hj⟩
    simp only [Kinship.openUnion, Array.getElem?_modify] at hp
    split at hp
    · next hoi =>
      subst hoi
      obtain ⟨q, hq, rfl⟩ := Option.map_eq_some_iff.1 hp
      rw [below_union] at hj
      obtain hj | hj := List.mem_append.1 hj
      · exact h.later _ _ ⟨q, hq, hj⟩
      · exact hlt j hj
    · exact h.later _ _ ⟨p, hp, hj⟩

variable {memberOf : Snapshot.Reference → Option Id}

theorem latest?_lt {k : Kinship} {member : Id} {i : Nat} (h : k.latest? member = some i) :
    i < k.size := by
  have hi := List.mem_of_find?_eq_some h
  rw [List.mem_reverse] at hi
  exact List.mem_range.1 hi

/-- Whoever opens a union and whatever its references denote, a forest stays one. -/
theorem Growing.add {k : Kinship} (h : k.Growing []) (r : Snapshot.Relation) :
    (k.add memberOf r).Growing [] := by
  unfold Kinship.add
  cases r.sources with
  | nil => exact h
  | cons first rest =>
    have bare (rs : List Snapshot.Reference) : ∀ p ∈ rs.map (personOf memberOf), p.unions = [] := by
      intro p hp
      obtain ⟨s, -, rfl⟩ := List.mem_map.1 hp
      rfl
    have filled {k' : Kinship} {opener : Nat} (h : k'.Growing []) (ho : opener < k'.size) :
        let partners := k'.register (rest.map (personOf memberOf))
        let children := partners.1.register (r.targets.map (personOf memberOf))
        (children.1.openUnion opener ⟨partners.2, children.2⟩).Growing [] := by
      refine Growing.openUnion ((h.register (bare rest)).register (bare r.targets)) ?_ ?_
      · simp only [size, Kinship.register, Array.size_append] at ho ⊢
        omega
      · intro j hj
        simp only [size, Kinship.register, Array.size_append, List.mem_append,
          List.mem_range'_1] at ho hj
        omega
    dsimp only
    cases hl : (memberOf first).bind k.latest? with
    | none => exact filled (h.root rfl) (by simp [size, Kinship.root])
    | some i =>
      obtain ⟨m, -, hm⟩ := Option.bind_eq_some_iff.1 hl
      exact filled h (latest?_lt hm)

theorem growing_ofFamily (f : Snapshot.Family) : (ofFamily memberOf f).Growing [] := by
  unfold ofFamily
  generalize f.relations.filter (·.isUnion) = relations
  have run (k : Kinship) (h : k.Growing []) : (relations.foldl (add memberOf) k).Growing [] := by
    induction relations generalizing k with
    | nil => exact h
    | cons r rs ih => exact ih _ (h.add r)
  exact run _ (growing_empty f.label)

end Kinship

/-! ### Reading the branches off -/

mutual

/-- Whether a branch is what following the unions of a person gives: everyone that is met is a
person of the kinship, and the branch has all that its unions name. -/
def Branch.Follows (k : Kinship) (i : Nat) : Branch → Prop
  | .node index label member bonds => index = i ∧ ∃ p, k.persons[i]? = some p ∧
      label = p.label ∧ member = p.member ∧ followUnions k p.unions bonds

def followUnions (k : Kinship) : List Kinship.Union → List Bond → Prop
  | [], [] => True
  | u :: us, ⟨partners, children⟩ :: bonds =>
    followAll k u.partners partners ∧ followAll k u.children children ∧ followUnions k us bonds
  | _, _ => False

def followAll (k : Kinship) : List Nat → List Branch → Prop
  | [], [] => True
  | i :: is, b :: bs => Branch.Follows k i b ∧ followAll k is bs
  | _, _ => False

end

namespace Kinship

theorem getElem?_branchesFrom (i : Nat) (ps : List Person) (j : Nat) :
    (branchesFrom i ps)[j]? = ps[j]?.map fun p => branchOf (fun m => if i + j < m then
      (branchesFrom i ps)[m - i]? else none) (i + j) p := by
  induction ps generalizing i j with
  | nil => rfl
  | cons p ps ih =>
    have shift (m l : Nat) (hl : i < l) :
        (if l < m then (branchesFrom i (p :: ps))[m - i]? else none) =
          if l < m then (branchesFrom (i + 1) ps)[m - (i + 1)]? else none := by
      split
      · next h =>
        rw [branchesFrom, show m - i = m - (i + 1) + 1 by omega, List.getElem?_cons_succ]
      · rfl
    cases j with
    | zero =>
      simp only [branchesFrom, List.getElem?_cons_zero, Option.map_some, Nat.add_zero]
      congr 2
      funext m
      split
      · next h => rw [show m - i = m - (i + 1) + 1 by omega, List.getElem?_cons_succ]
      · rfl
    | succ j =>
      have h := ih (i + 1) j
      rw [Nat.add_assoc, Nat.add_comm 1 j] at h
      simp only [shift _ (i + (j + 1)) (by omega), List.getElem?_cons_succ]
      rw [branchesFrom, List.getElem?_cons_succ, h]

theorem getElem?_branches (k : Kinship) (i : Nat) : k.branches[i]? = k.persons[i]?.map fun p =>
    branchOf (fun m => if i < m then k.branches[m]? else none) i p := by
  have h := getElem?_branchesFrom 0 k.persons.toList i
  simpa only [branches, Nat.zero_add, Nat.sub_zero, Array.getElem?_toList] using h

/-- The numbers of whoever is met from a person on. -/
def numbersAt (k : Kinship) (i : Nat) : List Nat := (k.branches[i]?.map Branch.numbers).getD []

theorem numbers_filterMap (later : Nat → Option Branch) (is : List Nat) :
    (peopleOfAll (is.filterMap later)).map (·.1) =
      is.flatMap fun i => ((later i).map Branch.numbers).getD [] := by
  induction is with
  | nil => rfl
  | cons i is ih =>
    rw [List.filterMap_cons, List.flatMap_cons, ← ih]
    cases later i with
    | none => rfl
    | some b => rw [peopleOfAll, List.map_append]; rfl

theorem numbers_branchOf (later : Nat → Option Branch) (i : Nat) (p : Person) :
    (branchOf later i p).numbers =
      i :: p.below.flatMap fun j => ((later j).map Branch.numbers).getD [] := by
  rw [branchOf, Branch.numbers, Branch.people, List.map_cons, Person.below]
  congr 1
  induction p.unions with
  | nil => rfl
  | cons u us ih =>
    rw [List.map_cons, peopleOfBonds, List.map_append, List.map_append, numbers_filterMap,
      numbers_filterMap, ih, List.flatMap_cons, List.flatMap_append, List.flatMap_append]

variable {k : Kinship}

theorem Forest.lt_of_above (h : k.Forest) {i j : Nat} (hij : k.Above i j) : j < k.size := by
  obtain ⟨p, hp, hj⟩ := hij
  apply h.inside
  refine List.mem_append_right _ (List.mem_flatMap.2 ⟨p, ?_, hj⟩)
  exact Array.mem_toList_iff.2 (Array.mem_of_getElem? hp)

theorem Forest.root_lt (h : k.Forest) {r : Nat} (hr : r ∈ k.roots) : r < k.size :=
  h.inside r (List.mem_append_left _ hr)

theorem Forest.numbersAt_eq (h : k.Forest) {i : Nat} {p : Person} (hp : k.persons[i]? = some p) :
    k.numbersAt i = i :: p.below.flatMap k.numbersAt := by
  rw [numbersAt, getElem?_branches, hp, Option.map_some, Option.map_some, Option.getD_some,
    numbers_branchOf]
  congr 1
  apply List.flatMap_congr
  intro j hj
  rw [if_pos (h.later i j ⟨p, hp, hj⟩), numbersAt]

/-- What holds of a person if it holds of everyone in its unions holds of all persons. -/
theorem Forest.induction (h : k.Forest) {P : Nat → Prop}
    (step : ∀ i p, k.persons[i]? = some p → (∀ j ∈ p.below, P j) → P i) :
    ∀ i < k.size, P i := by
  intro i hi
  induction hn : k.size - i using Nat.strongRecOn generalizing i with
  | ind n ih =>
    refine step i k.persons[i] (Array.getElem?_eq_getElem hi) ?_
    intro j hj
    have hij : k.Above i j := ⟨_, Array.getElem?_eq_getElem hi, hj⟩
    have hlt := h.later i j hij
    have hj := h.lt_of_above hij
    exact ih (k.size - j) (by omega) j hj rfl

theorem followAll_filterMap {later : Nat → Option Branch} {is : List Nat}
    (h : ∀ i ∈ is, ∃ b, later i = some b ∧ b.Follows k i) :
    followAll k is (is.filterMap later) := by
  induction is with
  | nil => rw [List.filterMap_nil, followAll]; trivial
  | cons i is ih =>
    obtain ⟨b, hb, hf⟩ := h i List.mem_cons_self
    rw [List.filterMap_cons_some hb, followAll]
    exact ⟨hf, ih fun j hj => h j (List.mem_cons_of_mem _ hj)⟩

theorem followUnions_map {later : Nat → Option Branch} {us : List Union}
    (h : ∀ i ∈ us.flatMap fun u => u.partners ++ u.children,
      ∃ b, later i = some b ∧ b.Follows k i) :
    followUnions k us
      (us.map fun u => ⟨u.partners.filterMap later, u.children.filterMap later⟩) := by
  induction us with
  | nil => rw [List.map_nil, followUnions]; trivial
  | cons u us ih =>
    simp only [List.flatMap_cons, List.mem_append] at h
    rw [List.map_cons, followUnions]
    exact ⟨followAll_filterMap fun i hi => h i (.inl (.inl hi)),
      followAll_filterMap fun i hi => h i (.inl (.inr hi)), ih fun i hi => h i (.inr hi)⟩

theorem Forest.exists_follows (h : k.Forest) :
    ∀ i < k.size, ∃ b, k.branches[i]? = some b ∧ b.Follows k i := by
  refine h.induction (P := fun i => ∃ b, k.branches[i]? = some b ∧ b.Follows k i) ?_
  intro i p hp hbelow
  rw [getElem?_branches, hp, Option.map_some]
  refine ⟨_, rfl, ?_⟩
  rw [branchOf, Branch.Follows]
  refine ⟨rfl, p, hp, rfl, rfl, followUnions_map ?_⟩
  intro j hj
  rw [if_pos (h.later i j ⟨p, hp, hj⟩)]
  exact hbelow j hj

/-- The branches of the roots are all there, and each is what following unions gives. -/
theorem Forest.follows_trees (h : k.Forest) :
    List.Forall₂ (fun i b => Branch.Follows k i b) k.roots k.trees := by
  have hr : ∀ i ∈ k.roots, i < k.size := fun _ => h.root_lt
  unfold trees
  generalize k.roots = roots at hr
  induction roots with
  | nil => exact .nil
  | cons i is ih =>
    obtain ⟨b, hb, hf⟩ := h.exists_follows i (hr i List.mem_cons_self)
    rw [List.filterMap_cons_some hb]
    exact .cons hf (ih fun j hj => hr j (List.mem_cons_of_mem _ hj))

theorem Forest.mem_numbersAt_iff (h : k.Forest) {i j : Nat} (hi : i < k.size) (hj : j < k.size) :
    j ∈ k.numbersAt i ↔ Relation.ReflTransGen k.Above i j := by
  constructor
  · refine h.induction (P := fun i => j ∈ k.numbersAt i → Relation.ReflTransGen k.Above i j) ?_ i hi
    intro i p hp ih hmem
    rw [h.numbersAt_eq hp] at hmem
    obtain rfl | hmem := List.mem_cons.1 hmem
    · exact .refl
    · obtain ⟨m, hm, hmem⟩ := List.mem_flatMap.1 hmem
      exact .head ⟨p, hp, hm⟩ (ih m hm hmem)
  · intro hr
    induction hr using Relation.ReflTransGen.head_induction_on with
    | refl =>
      rw [h.numbersAt_eq (Array.getElem?_eq_getElem hj)]
      exact List.mem_cons_self
    | head hstep _ ih =>
      obtain ⟨p, hp, hm⟩ := id hstep
      rw [h.numbersAt_eq hp]
      exact List.mem_cons_of_mem _ (List.mem_flatMap.2 ⟨_, hm, ih (h.lt_of_above hstep)⟩)

theorem Forest.perm_places (h : k.Forest) : k.places ~ List.range k.size := by
  rw [List.perm_iff_count]
  intro i
  by_cases hi : i < k.size
  · rw [h.once i hi, List.count_eq_one_of_mem List.nodup_range (List.mem_range.2 hi)]
  · rw [List.count_eq_zero.2 fun hm => hi (h.inside i hm),
      List.count_eq_zero.2 fun hm => hi (List.mem_range.1 hm)]

theorem numbers_trees (k : Kinship) :
    k.trees.flatMap Branch.numbers = k.roots.flatMap k.numbersAt := by
  unfold trees numbersAt
  induction k.roots with
  | nil => rfl
  | cons i is ih =>
    rw [List.filterMap_cons, List.flatMap_cons, ← ih]
    cases k.branches[i]? <;> rfl

/-- Following the unions from all roots meets everyone once: what is met from anyone on is that
person and what is met from those in its unions on, and everyone but the roots is in one union. -/
theorem Forest.perm_numbers (h : k.Forest) :
    k.trees.flatMap Branch.numbers ~ List.range k.size := by
  let belowAt (i : Nat) : List Nat := (k.persons.toList[i]?.map (·.below)).getD []
  have unfolded : ∀ i ∈ List.range k.size,
      k.numbersAt i = [i] ++ (belowAt i).flatMap k.numbersAt := by
    intro i hi
    have hp := Array.getElem?_eq_getElem (List.mem_range.1 hi)
    rw [h.numbersAt_eq hp]
    simp [belowAt, Array.getElem?_toList, hp]
  have belowAll : (List.range k.size).flatMap belowAt = k.persons.toList.flatMap (·.below) := by
    rw [← flatMap_range k.persons.toList, Array.length_toList]
    rfl
  have all := calc
    k.roots.flatMap k.numbersAt ++ (k.persons.toList.flatMap (·.below)).flatMap k.numbersAt
        = k.places.flatMap k.numbersAt := by rw [places, List.flatMap_append]
      _ ~ (List.range k.size).flatMap k.numbersAt := h.perm_places.flatMap_right _
      _ = (List.range k.size).flatMap fun i => [i] ++ (belowAt i).flatMap k.numbersAt :=
        List.flatMap_congr unfolded
      _ ~ (List.range k.size).flatMap (fun i => [i]) ++
          (List.range k.size).flatMap fun i => (belowAt i).flatMap k.numbersAt :=
        (List.flatMap_append_perm _ _ _).symm
      _ = List.range k.size ++ (k.persons.toList.flatMap (·.below)).flatMap k.numbersAt := by
        rw [← belowAll, List.flatMap_assoc, List.flatMap_singleton']
  rw [numbers_trees]
  exact (List.perm_append_right_iff _).1 all

theorem Forest.nodup_numbers (h : k.Forest) {t : Branch} (ht : t ∈ k.trees) : t.numbers.Nodup := by
  have hn := h.perm_numbers.nodup_iff.2 List.nodup_range
  exact (List.nodup_flatMap.1 hn).1 t ht

/-- Exactly one root has a person above it, at some distance. -/
theorem Forest.existsUnique_root (h : k.Forest) {j : Nat} (hj : j < k.size) :
    ∃! r, r ∈ k.roots ∧ Relation.ReflTransGen k.Above r j := by
  have hr : ∀ i ∈ k.roots, i < k.size := fun _ => h.root_lt
  have hperm := h.perm_numbers
  rw [numbers_trees] at hperm
  obtain ⟨r, hmem, hrj⟩ := List.mem_flatMap.1 (hperm.mem_iff.2 (List.mem_range.2 hj))
  refine ⟨r, ⟨hmem, (h.mem_numbersAt_iff (hr r hmem) hj).1 hrj⟩, ?_⟩
  rintro q ⟨hq, hqj⟩
  rw [← h.mem_numbersAt_iff (hr q hq) hj] at hqj
  have hdisjoint := (List.nodup_flatMap.1 (hperm.nodup_iff.2 List.nodup_range)).2
  obtain he | hd | hd := rel_of_mem hdisjoint hq hmem
  · exact he
  · exact (hd hqj hrj).elim
  · exact (hd hrj hqj).elim

/-- From a person on nobody is met twice, be it a root or not. -/
theorem Forest.nodup_numbersAt (h : k.Forest) {i : Nat} (hi : i < k.size) :
    (k.numbersAt i).Nodup := by
  obtain ⟨r, ⟨hr, hri⟩, -⟩ := h.existsUnique_root hi
  have hn := h.perm_numbers.nodup_iff.2 List.nodup_range
  rw [numbers_trees] at hn
  -- Whoever stands below meets a part of those who are met from above.
  induction hri with
  | refl => exact (List.nodup_flatMap.1 hn).1 r hr
  | tail _ hstep ih =>
    obtain ⟨p, hp, hm⟩ := hstep
    have ih := ih (Array.getElem?_eq_some_iff.1 hp).1
    rw [h.numbersAt_eq hp, List.nodup_cons] at ih
    exact (List.nodup_flatMap.1 ih.2).1 _ hm

end Kinship

theorem forest_of_mem_kinships {s : Snapshot} {k : Kinship} (hk : k ∈ s.kinships) : k.Forest := by
  obtain ⟨f, -, rfl⟩ := List.mem_map.1 hk
  exact (Kinship.growing_ofFamily f).forest

/-- The persons of every family are a forest, whatever the references of the document denote: each
number is in one place, below a smaller one if it is no root, and one root has it below. The trees
of the roots are what following the unions gives, and sizing and drawing them meets every person
once and nobody else. -/
theorem Snapshot.kinship_is_forest {s : Snapshot} {k : Kinship} (hk : k ∈ s.kinships) :
    (∀ i < k.size, k.places.count i = 1) ∧ (∀ i ∈ k.places, i < k.size) ∧
    (∀ i j, k.Above i j → i < j) ∧
    (∀ j < k.size, ∃! r, r ∈ k.roots ∧ Relation.ReflTransGen k.Above r j) ∧
    List.Forall₂ (fun i b => Branch.Follows k i b) k.roots k.trees ∧
    (∀ (style : Style Binary32) (ratio : Binary32),
      (k.trees.flatMap fun t => (Subtree.sizing style ratio t).walk.map (·.payload)) ~
        List.range k.size) ∧
    ∀ (boxes : List (Nat × Rect)) (left : Int), ∃ drawn, drawn ~ List.range k.size ∧
      (k.trees.flatMap fun t => (Subtree.draw boxes left false t).value.walk.map (·.rect)) =
        drawn.map (Subtree.placedBox boxes left) := by
  have h := forest_of_mem_kinships hk
  refine ⟨h.once, h.inside, h.later, fun j hj => h.existsUnique_root hj, h.follows_trees, ?_, ?_⟩
  · intro style ratio
    have hp (t : Branch) : (Subtree.sizing style ratio t).walk.map (·.payload) = t.numbers := by
      have hl := congrArg (List.map (·.1)) (Subtree.labels_sizing style ratio t)
      rw [List.map_map, List.map_map] at hl
      exact hl
    simp only [hp]
    exact h.perm_numbers
  · intro boxes left
    refine ⟨_, h.perm_numbers, ?_⟩
    rw [List.map_flatMap]
    apply List.flatMap_congr
    intro t _
    rw [Subtree.rects_draw, Branch.numbers, List.map_map]
    rfl

/-- Ann has a child that is taken for her, and the child has one of its own. -/
def ownParent : Snapshot :=
  let ann : Id := ⟨"Ash::Ann"⟩
  ⟨[⟨"Ash", [⟨[⟨0, "Ann"⟩, ⟨1, "Ben"⟩], [⟨2, "Cy"⟩, ⟨3, "Ann"⟩], true⟩,
      ⟨[⟨4, "Ann"⟩], [⟨5, "Dan"⟩], true⟩, ⟨[⟨6, "Eve"⟩], [⟨7, "Ann"⟩], false⟩,
      ⟨[⟨8, "Fay"⟩], [⟨9, "Ann"⟩], true⟩]⟩],
    ⟨[(0, ann), (1, ann), (3, ann), (4, ann), (7, ann), (9, ann)]⟩⟩

theorem Snapshot.kinship_is_forest_ownParent : ∃ k, k ∈ ownParent.kinships ∧ k.roots = [0, 5] ∧
    k.persons.toList.map (·.below) = [[1, 2, 3], [], [], [4], [], [6], []] ∧
    (∀ i < k.size, k.places.count i = 1) ∧
    (∃! r, r ∈ k.roots ∧ Relation.ReflTransGen k.Above r 4) ∧
    List.Forall₂ (fun i b => Branch.Follows k i b) k.roots k.trees := by
  refine ⟨_, List.mem_singleton_self _, by decide, by decide, ?_⟩
  have h := @Snapshot.kinship_is_forest ownParent _ (List.mem_singleton_self _)
  exact ⟨h.1, h.2.2.2.1 4 (by decide), h.2.2.2.2.1⟩

end Pedigree
