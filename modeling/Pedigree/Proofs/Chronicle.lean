import Pedigree.Proofs.Forest

/-! Every relation of a family that makes kin and has a source becomes one union. A log of these
relations, kept beside the kinship, tells who opens each union and who came with it. -/
namespace Pedigree

open scoped List

namespace Kinship

/-- A relation that became a union. -/
structure Entry where
  first : Snapshot.Reference
  others : List Snapshot.Reference
  targets : List Snapshot.Reference
  /-- Whoever opens the union. -/
  opener : Nat
  /-- Whether the opener came with the relation, as a new root. -/
  founding : Bool
  union : Union

namespace Entry

def relation (e : Entry) : Snapshot.Relation := ⟨e.first :: e.others, e.targets, true⟩

/-- Those who came with the relation, in the order of its references. -/
def registered (e : Entry) : List Nat :=
  (if e.founding then [e.opener] else []) ++ e.union.partners ++ e.union.children

end Entry

/-- What a person is called and which member it stands for. -/
def who? (k : Kinship) (i : Nat) : Option (String × Option Id) :=
  k.persons[i]?.map fun p => (p.label, p.member)

def StandsFor (k : Kinship) (m : Id) (i : Nat) : Prop := ∃ label, k.who? i = some (label, some m)

variable (memberOf : Snapshot.Reference → Option Id)

/-- What a log says of one entry, if some persons were registered before it: its union is opened by
the one who was registered last for the member of its first source, or else by a new person, and the
other references are the partners and the children. -/
structure Entry.Tells (k : Kinship) (known : List Nat) (e : Entry) : Prop where
  reused : e.founding = false →
    ∃ m, memberOf e.first = some m ∧ IsLast (k.StandsFor m) known e.opener
  founded : e.founding = true → (∀ m, memberOf e.first = some m → ∀ i ∈ known, ¬k.StandsFor m i) ∧
    k.who? e.opener = some (e.first.label, memberOf e.first)
  partners : e.union.partners.map k.who? = e.others.map fun r => some (r.label, memberOf r)
  children : e.union.children.map k.who? = e.targets.map fun r => some (r.label, memberOf r)

/-- A log of the relations that made a kinship. Everyone was registered once, in the order of the
numbers, and the unions of a person are those of the entries it opens, in their order. -/
structure Logged (k : Kinship) (log : List Entry) : Prop where
  registered : log.flatMap (·.registered) = List.range k.size
  roots : k.roots = (log.filter (·.founding)).map (·.opener)
  unions : ∀ i p, k.persons[i]? = some p →
    p.unions = (log.filter (·.opener == i)).map (·.union)
  once : (k.persons.toList.flatMap (·.unions)) ~ log.map (·.union)
  tells : ∀ before e after, log = before ++ e :: after →
    e.Tells memberOf k (before.flatMap (·.registered))

/-! ### What a relation adds -/

/-- The references of those who come with an entry. -/
def Entry.arrivals (e : Entry) : List Snapshot.Reference :=
  (if e.founding then [e.first] else []) ++ e.others ++ e.targets

/-- The entry that a relation makes. -/
def entry (k : Kinship) (first : Snapshot.Reference) (others targets : List Snapshot.Reference) :
    Entry :=
  let found := (memberOf first).bind k.latest?
  let start := k.size + (if found.isNone then [first] else []).length
  ⟨first, others, targets, found.getD k.size, found.isNone,
    ⟨List.range' start others.length, List.range' (start + others.length) targets.length⟩⟩

/-- Takes in those who come with an entry. -/
def arrive (k : Kinship) (e : Entry) : Kinship where
  label := k.label
  persons := k.persons ++ (e.arrivals.map (personOf memberOf)).toArray
  roots := k.roots ++ if e.founding then [e.opener] else []

variable {memberOf}

theorem add_eq (k : Kinship) {r : Snapshot.Relation} {first : Snapshot.Reference}
    {others : List Snapshot.Reference} (h : r.sources = first :: others) :
    k.add memberOf r = (k.arrive memberOf (k.entry memberOf first others r.targets)).openUnion
      (k.entry memberOf first others r.targets).opener
      (k.entry memberOf first others r.targets).union := by
  unfold add
  rw [h]
  cases hf : (memberOf first).bind k.latest? with
  | none =>
    simp [entry, arrive, Entry.arrivals, hf, root, register, size, openUnion, Nat.add_assoc,
      Nat.add_comm 1]
  | some i => simp [entry, arrive, Entry.arrivals, hf, register, size, openUnion]

variable {k k' : Kinship} {e : Entry}

theorem size_openUnion (k : Kinship) (opener : Nat) (u : Union) :
    (k.openUnion opener u).size = k.size := by
  simp [size, openUnion]

theorem size_arrive (k : Kinship) (e : Entry) :
    (k.arrive memberOf e).size = k.size + e.arrivals.length := by
  simp [size, arrive]

theorem getElem?_openUnion (k : Kinship) (opener : Nat) (u : Union) (i : Nat) :
    (k.openUnion opener u).persons[i]? = k.persons[i]?.map fun p =>
      if opener = i then { p with unions := p.unions ++ [u] } else p := by
  rw [openUnion, Array.getElem?_modify]
  split
  · rfl
  · simp

@[simp] theorem who?_openUnion (k : Kinship) (opener : Nat) (u : Union) (i : Nat) :
    (k.openUnion opener u).who? i = k.who? i := by
  unfold who?
  rw [getElem?_openUnion, Option.map_map]
  apply Option.map_congr
  intro p _
  dsimp only [Function.comp_apply]
  split
  · rfl
  · rfl

theorem who?_arrive_of_lt {i : Nat} (h : i < k.size) : (k.arrive memberOf e).who? i = k.who? i := by
  unfold who? arrive
  rw [Array.getElem?_append_left h]

/-- Arrivals are called and taken for members as their references are. -/
theorem map_who?_arrive (memberOf : Snapshot.Reference → Option Id) (k : Kinship) (e : Entry)
    (before here after : List Snapshot.Reference) (h : e.arrivals = before ++ here ++ after) :
    (List.range' (k.size + before.length) here.length).map (k.arrive memberOf e).who? =
      here.map fun r => some (r.label, memberOf r) := by
  apply List.ext_getElem
  · simp
  intro i hi _
  rw [List.length_map, List.length_range'] at hi
  have hp : ((before ++ here ++ after).map (personOf memberOf))[before.length + i]? =
      some (personOf memberOf here[i]) := by
    rw [List.getElem?_map, List.append_assoc, List.getElem?_append_right (Nat.le_add_right _ _),
      Nat.add_sub_cancel_left, List.getElem?_append_left hi, List.getElem?_eq_getElem hi]
    rfl
  have hi' : k.size + before.length + i - k.persons.size = before.length + i := by
    simp only [size]
    omega
  simp only [List.getElem_map, List.getElem_range', Nat.one_mul, who?, arrive]
  rw [Array.getElem?_append_right (by simp only [size]; omega), hi', h, List.getElem?_toArray, hp]
  rfl

theorem standsFor_congr {m : Id} {i : Nat} (h : k'.who? i = k.who? i) :
    k'.StandsFor m i ↔ k.StandsFor m i := by
  unfold StandsFor
  rw [h]

theorem bind_member_eq_some_iff {m : Id} {i : Nat} :
    k.persons[i]?.bind (·.member) = some m ↔ k.StandsFor m i := by
  unfold StandsFor who?
  cases k.persons[i]? <;> simp

/-- Looking from the last person back finds the one registered last. -/
theorem latest?_eq_some_iff {m : Id} {i : Nat} :
    k.latest? m = some i ↔ IsLast (k.StandsFor m) (List.range k.size) i := by
  unfold latest?
  rw [find?_reverse_iff]
  simp only [beq_iff_eq, bind_member_eq_some_iff]

theorem latest?_eq_none_iff {m : Id} :
    k.latest? m = none ↔ ∀ i ∈ List.range k.size, ¬k.StandsFor m i := by
  simp [latest?, bind_member_eq_some_iff]

/-- What is said of an entry stays true where the persons that are spoken of stay the same. -/
theorem Entry.Tells.congr {known : List Nat} (h : e.Tells memberOf k known)
    (hw : ∀ i ∈ known ++ e.registered, k'.who? i = k.who? i) : e.Tells memberOf k' known := by
  have hknown : ∀ i ∈ known, k'.who? i = k.who? i := fun i hi => hw i (List.mem_append_left _ hi)
  have hcame : ∀ i ∈ e.registered, k'.who? i = k.who? i :=
    fun i hi => hw i (List.mem_append_right _ hi)
  constructor
  · intro hf
    obtain ⟨m, hm, hl⟩ := h.reused hf
    exact ⟨m, hm, (isLast_congr fun i hi => (standsFor_congr (hknown i hi)).symm).mp hl⟩
  · intro hf
    obtain ⟨hn, ho⟩ := h.founded hf
    constructor
    · intro m hm i hi
      rw [standsFor_congr (hknown i hi)]
      exact hn m hm i hi
    · rw [hcame _ (by simp [Entry.registered, hf])]
      exact ho
  · rw [← h.partners]
    apply List.map_congr_left
    intro i hi
    exact hcame i (by simp [Entry.registered, hi])
  · rw [← h.children]
    apply List.map_congr_left
    intro i hi
    exact hcame i (by simp [Entry.registered, hi])

theorem Entry.Tells.opener_mem {known : List Nat} (h : e.Tells memberOf k known) :
    e.opener ∈ known ++ e.registered := by
  cases hf : e.founding with
  | false =>
    obtain ⟨m, -, hl⟩ := h.reused hf
    exact List.mem_append_left _ hl.mem
  | true => simp [Entry.registered, hf]

section Step

variable (memberOf k) (first : Snapshot.Reference) (others targets : List Snapshot.Reference)

theorem registered_entry : (k.entry memberOf first others targets).registered =
    List.range' k.size (k.entry memberOf first others targets).arrivals.length := by
  have hfirst : (if (k.entry memberOf first others targets).founding
      then [(k.entry memberOf first others targets).opener] else []) =
        List.range' k.size
          (if ((memberOf first).bind k.latest?).isNone then [first] else []).length := by
    unfold entry
    cases (memberOf first).bind k.latest? with
    | none => rfl
    | some i => rfl
  rw [Entry.arrivals, List.length_append, List.length_append, ← List.range'_append_1,
    ← List.range'_append_1, Entry.registered, hfirst]
  simp only [entry, Nat.add_assoc]

/-- The entry of a relation is true where those who come with it have arrived. -/
theorem tells_entry : (k.entry memberOf first others targets).Tells memberOf
    (k.arrive memberOf (k.entry memberOf first others targets)) (List.range k.size) := by
  have hold : ∀ m, ∀ i ∈ List.range k.size, (k.arrive memberOf
      (k.entry memberOf first others targets)).StandsFor m i ↔ k.StandsFor m i := by
    intro m i hi
    exact standsFor_congr (who?_arrive_of_lt (List.mem_range.mp hi))
  constructor
  · intro hf
    have hs : ((memberOf first).bind k.latest?).isSome := by simpa [entry] using hf
    obtain ⟨i, hi⟩ := Option.isSome_iff_exists.mp hs
    obtain ⟨m, hm, hl⟩ := Option.bind_eq_some_iff.mp hi
    refine ⟨m, hm, (isLast_congr (hold m)).mpr ?_⟩
    simp only [entry, hi, Option.getD_some]
    exact latest?_eq_some_iff.mp hl
  · intro hf
    have hn : (memberOf first).bind k.latest? = none := by simpa [entry] using hf
    constructor
    · intro m hm i hi
      rw [hold m i hi]
      exact latest?_eq_none_iff.mp (Option.bind_eq_none_iff.mp hn m hm) i hi
    · have h := map_who?_arrive memberOf k (k.entry memberOf first others targets) [] [first]
        (others ++ targets) (by simp [Entry.arrivals, entry, hn])
      simpa [entry, hn] using h
  · exact map_who?_arrive memberOf k (k.entry memberOf first others targets)
      (if ((memberOf first).bind k.latest?).isNone then [first] else []) others targets rfl
  · have h := map_who?_arrive memberOf k (k.entry memberOf first others targets) _ targets []
      (List.append_nil _).symm
    rw [List.length_append, ← Nat.add_assoc] at h
    exact h

end Step

variable {log : List Entry}

theorem Logged.lt_of_mem (h : k.Logged memberOf log) {before after : List Entry}
    (hl : log = before ++ e :: after) {i : Nat}
    (hi : i ∈ before.flatMap (·.registered) ++ e.registered) : i < k.size := by
  rw [← List.mem_range, ← h.registered, hl, List.flatMap_append, List.flatMap_cons,
    ← List.append_assoc]
  exact List.mem_append_left _ hi

theorem Logged.opener_lt (h : k.Logged memberOf log) (he : e ∈ log) : e.opener < k.size := by
  obtain ⟨before, after, hl⟩ := List.append_of_mem he
  exact h.lt_of_mem hl (h.tells before e after hl).opener_mem

/-- Whoever has just arrived has no unions. -/
theorem unions_of_arrived (h : ∀ i p, k.persons[i]? = some p →
      p.unions = (log.filter (·.opener == i)).map (·.union)) (hlt : ∀ e ∈ log, e.opener < k.size)
    {i : Nat} {p : Person} (hp : (k.arrive memberOf e).persons[i]? = some p) :
    p.unions = (log.filter (·.opener == i)).map (·.union) := by
  rw [arrive, Array.getElem?_append] at hp
  split at hp
  · exact h i p hp
  · next hi =>
    have hnone : log.filter (·.opener == i) = [] := by
      rw [List.filter_eq_nil_iff]
      intro e he heq
      rw [beq_iff_eq] at heq
      exact hi (heq ▸ hlt e he)
    rw [List.getElem?_toArray, List.getElem?_map, Option.map_eq_some_iff] at hp
    obtain ⟨r, -, rfl⟩ := hp
    rw [hnone]
    rfl

/-- A relation with a source adds its entry to the log. -/
theorem Logged.add (h : k.Logged memberOf log) {r : Snapshot.Relation}
    {first : Snapshot.Reference} {others : List Snapshot.Reference}
    (hs : r.sources = first :: others) :
    (k.add memberOf r).Logged memberOf (log ++ [k.entry memberOf first others r.targets]) := by
  have htells := tells_entry memberOf k first others r.targets
  have hreg := registered_entry memberOf k first others r.targets
  rw [add_eq k hs]
  generalize k.entry memberOf first others r.targets = e at htells hreg
  have hrange : List.range (k.arrive memberOf e).size = List.range k.size ++ e.registered := by
    rw [size_arrive, hreg, List.range_eq_range', List.range_eq_range', ← List.range'_append_1,
      Nat.zero_add]
  have ho : e.opener < (k.arrive memberOf e).size := by
    rw [← List.mem_range, hrange]
    exact htells.opener_mem
  constructor
  · rw [size_openUnion, hrange, List.flatMap_append, h.registered, List.flatMap_singleton]
  · rw [List.filter_append, List.map_append, ← h.roots]
    simp only [openUnion, arrive]
    cases hf : e.founding with
    | false => simp [hf]
    | true => simp [hf]
  · intro i p hp
    rw [getElem?_openUnion, Option.map_eq_some_iff] at hp
    obtain ⟨q, hq, rfl⟩ := hp
    have hu := unions_of_arrived h.unions (fun _ => h.opener_lt) hq
    rw [List.filter_append, List.map_append]
    split
    · next hi => simp [hu, hi]
    · next hi => simp [hu, hi]
  · have harrive : (k.arrive memberOf e).persons.toList.flatMap (·.unions) =
        k.persons.toList.flatMap (·.unions) := by
      simp [arrive, personOf]
    have hi : e.opener < (k.arrive memberOf e).persons.toList.length := by simpa [size] using ho
    have hm := flatMap_modify hi (f := fun p => { p with unions := p.unions ++ [e.union] })
      (g := fun p => p.unions) fun _ => rfl
    rw [harrive] at hm
    simp only [openUnion, Array.toList_modify, List.map_append, List.map_singleton]
    exact hm.trans (h.once.append_right _)
  · intro before e' after hl
    rcases List.eq_nil_or_concat after with rfl | ⟨after, last, rfl⟩
    · obtain ⟨rfl, he⟩ := List.append_inj' hl rfl
      cases he
      rw [h.registered]
      exact htells.congr fun i _ => who?_openUnion ..
    · rw [List.concat_eq_append, ← List.cons_append, ← List.append_assoc] at hl
      obtain ⟨rfl, -⟩ := List.append_inj' hl rfl
      refine (h.tells before e' after rfl).congr fun i hi => ?_
      rw [who?_openUnion, who?_arrive_of_lt (h.lt_of_mem rfl hi)]

/-- A relation without sources leaves everything as it is. -/
theorem add_of_no_sources {r : Snapshot.Relation} (hs : r.sources = []) :
    k.add memberOf r = k := by
  rw [Kinship.add, hs]

theorem exists_logged (h : k.Logged memberOf log) {rs : List Snapshot.Relation}
    (hu : ∀ r ∈ rs, r.isUnion) : ∃ new, (rs.foldl (Kinship.add memberOf) k).Logged memberOf
      (log ++ new) ∧ new.map (·.relation) = rs.filter (!·.sources.isEmpty) := by
  induction rs generalizing k log with
  | nil => exact ⟨[], by simpa using h, rfl⟩
  | cons r rs ih =>
    have hrs : ∀ r ∈ rs, r.isUnion := fun r hr => hu r (List.mem_cons_of_mem _ hr)
    rw [List.foldl_cons]
    cases hs : r.sources with
    | nil =>
      rw [add_of_no_sources hs, List.filter_cons_of_neg (by simp [hs])]
      exact ih h hrs
    | cons first others =>
      obtain ⟨new, hlog, hnew⟩ := ih (h.add hs) hrs
      refine ⟨k.entry memberOf first others r.targets :: new, ?_, ?_⟩
      · simpa using hlog
      · have hr : (k.entry memberOf first others r.targets).relation = r := by
          obtain ⟨sources, targets, isUnion⟩ := r
          have hunion : isUnion = true := hu _ List.mem_cons_self
          dsimp only at hs
          subst hunion hs
          rfl
        rw [List.map_cons, hr, hnew, List.filter_cons_of_pos (by simp [hs])]

theorem logged_empty (memberOf : Snapshot.Reference → Option Id) (label : String) :
    Logged memberOf ⟨label, #[], []⟩ [] where
  registered := rfl
  roots := rfl
  unions i p hp := by cases hp
  once := .refl _
  tells before e after hl := by simp at hl

theorem exists_logged_ofFamily (f : Snapshot.Family) : ∃ log,
    (ofFamily memberOf f).Logged memberOf log ∧
      log.map (·.relation) = f.relations.filter fun r => r.isUnion && !r.sources.isEmpty := by
  have hu : ∀ r ∈ f.relations.filter (·.isUnion), r.isUnion := fun r hr => List.of_mem_filter hr
  obtain ⟨log, hlog, hrel⟩ := exists_logged (logged_empty memberOf f.label) hu
  refine ⟨log, hlog, ?_⟩
  rw [hrel, List.filter_filter]
  simp only [Bool.and_comm]

theorem label_foldl_add (k : Kinship) (rs : List Snapshot.Relation) :
    (rs.foldl (Kinship.add memberOf) k).label = k.label := by
  induction rs generalizing k with
  | nil => rfl
  | cons r rs ih =>
    rw [List.foldl_cons, ih]
    cases hs : r.sources with
    | nil => rw [add_of_no_sources hs]
    | cons first others => rw [add_eq k hs]; rfl

end Kinship

/-- The relations of a family that make kin and have a source are its unions, one for one: a log of
them tells who opened each union, who came with it and where it stands. Everyone is a root, a partner
or a child. -/
theorem Snapshot.relations_become_unions (s : Snapshot) : List.Forall₂ (fun f k =>
    k.label = f.label ∧ (∃ log, Kinship.Logged s.memberOf k log ∧
      log.map (·.relation) = f.relations.filter fun r => r.isUnion && !r.sources.isEmpty) ∧
    k.size = k.roots.length + (k.persons.toList.flatMap (·.below)).length)
    s.families s.kinships := by
  rw [Snapshot.kinships, List.forall₂_map_right_iff, List.forall₂_same]
  intro f _
  refine ⟨Kinship.label_foldl_add _ _, Kinship.exists_logged_ofFamily f, ?_⟩
  have hforest : (Kinship.ofFamily s.memberOf f).Forest := (Kinship.growing_ofFamily f).forest
  have h := hforest.perm_places.length_eq
  rw [Kinship.places, List.length_append, List.length_range] at h
  exact h.symm

end Pedigree
