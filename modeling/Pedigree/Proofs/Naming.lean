import Pedigree.Identity.Resolver
import Pedigree.Proofs.Lists
import Pedigree.Proofs.Offsets

/-! Whom a reference denotes, told by the document alone. Where several families declare an alias or
several children move into a family under one name, the last one in the text counts. The tables of the
resolver say the same. -/
namespace Pedigree

namespace Markup

/-- A mention with the family and the role in which it stands. -/
structure Occurrence where
  family : String
  role : Role
  mention : Mention
  deriving DecidableEq, Repr

def Occurrence.start (o : Occurrence) : Nat := o.mention.span.start

def Relation.occurrences (family : String) (r : Relation) : List Occurrence :=
  r.sources.map (⟨family, .source, ·⟩) ++ r.targets.map (⟨family, .target, ·⟩)

/-- The mentions of a document in the order of the text, with their places. -/
def occurrences (d : Document) : List Occurrence :=
  d.flatMap fun f => f.relations.flatMap (·.occurrences f.name)

/-- The family that a surname stands for: the last one that declares it as an alias, or else the one
of that name. -/
inductive StandsFor (d : Document) (surname : String) : String → Prop where
  | alias {f : Family} : IsLast (fun f => surname ∈ f.aliases) d f → StandsFor d surname f.name
  | own : (∀ f ∈ d, surname ∉ f.aliases) → StandsFor d surname surname

/-- Whether some section of the family lists the name as a child. -/
def Bears (d : Document) (family name : String) : Prop :=
  ∃ o ∈ occurrences d, o.family = family ∧ o.role = .target ∧
    ∃ second, o.mention.wording = .words name second

/-- A child with a new surname that stands for the family. -/
def MovesTo (d : Document) (family name : String) (o : Occurrence) : Prop :=
  o.role = .target ∧ ∃ surname, o.mention.wording = .words name (some surname) ∧
    StandsFor d surname family

/-- Whether the member adopted into the family under the name was born in another one. -/
def Adopted (d : Document) (family name birth : String) : Prop :=
  ∃ o, IsLast (MovesTo d family name) (occurrences d) o ∧ o.family = birth

/-- Whether some section of the family has the name alone as a source, and nobody was adopted under
it. -/
def Founds (d : Document) (family name : String) : Prop :=
  (∀ birth, ¬Adopted d family name birth) ∧ ∃ o ∈ occurrences d, o.family = family ∧
    o.role = .source ∧ o.mention.wording = .words name none

/-- Whether the family has a member of that name. -/
def Defined (d : Document) (family name : String) : Prop :=
  Bears d family name ∨ Founds d family name

/-- The member that an occurrence denotes, by the family of birth and the given name. -/
inductive Denotes (d : Document) (o : Occurrence) : String → String → Prop where
  | child {name : String} {second : Option String} : o.role = .target →
      o.mention.wording = .words name second → Denotes d o o.family name
  | adopted {name birth : String} : o.role = .source → o.mention.wording = .words name none →
      Adopted d o.family name birth → Denotes d o birth name
  | founder {name : String} : o.role = .source → o.mention.wording = .words name none →
      (∀ birth, ¬Adopted d o.family name birth) → Denotes d o o.family name
  | member {surname family name : String} : o.role = .source →
      o.mention.wording = .words surname (some name) → StandsFor d surname family →
      Defined d family name → Denotes d o family name
  | moved {surname family name birth : String} : o.role = .source →
      o.mention.wording = .words surname (some name) → StandsFor d surname family →
      ¬Defined d family name → Adopted d family name birth → Denotes d o birth name

section Denotations

variable {d : Document} {o : Occurrence} {family name first surname birth : String}

/-- Only one member is adopted into a family under a name. -/
theorem Adopted.eq_iff (h : Adopted d family name birth) {other : String} :
    Adopted d family name other ↔ other = birth := by
  constructor
  · rintro ⟨o, ho, rfl⟩
    obtain ⟨o', ho', rfl⟩ := h
    rw [ho.unique ho']
  · rintro rfl
    exact h

theorem not_denotes_unknown (hw : o.mention.wording = .unknown) : ¬Denotes d o family name := by
  rintro (⟨-, h⟩ | ⟨-, h, -⟩ | ⟨-, h, -⟩ | ⟨-, h, -⟩ | ⟨-, h, -⟩) <;> simp [hw] at h

theorem denotes_child_iff {second : Option String} (hr : o.role = .target)
    (hw : o.mention.wording = .words first second) :
    Denotes d o family name ↔ family = o.family ∧ name = first := by
  constructor
  · rintro (⟨-, h⟩ | ⟨h, -, -⟩ | ⟨h, -, -⟩ | ⟨h, -, -⟩ | ⟨h, -, -⟩)
    · rw [hw] at h
      cases h
      exact ⟨rfl, rfl⟩
    all_goals simp [hr] at h
  · rintro ⟨rfl, rfl⟩
    exact .child hr hw

theorem denotes_short_iff (hr : o.role = .source) (hw : o.mention.wording = .words first none) :
    Denotes d o family name ↔ name = first ∧ (Adopted d o.family first family ∨
      (∀ birth, ¬Adopted d o.family first birth) ∧ family = o.family) := by
  constructor
  · rintro (⟨h, -⟩ | ⟨-, h, ha⟩ | ⟨-, h, ha⟩ | ⟨-, h, -⟩ | ⟨-, h, -⟩)
    · simp [hr] at h
    · rw [hw] at h
      cases h
      exact ⟨rfl, .inl ha⟩
    · rw [hw] at h
      cases h
      exact ⟨rfl, .inr ⟨ha, rfl⟩⟩
    all_goals simp [hw] at h
  · rintro ⟨rfl, ha | ⟨ha, rfl⟩⟩
    · exact .adopted hr hw ha
    · exact .founder hr hw ha

theorem denotes_full_iff (hr : o.role = .source)
    (hw : o.mention.wording = .words surname (some first)) :
    Denotes d o family name ↔ name = first ∧ ∃ known, StandsFor d surname known ∧
      (Defined d known first ∧ family = known ∨
        ¬Defined d known first ∧ Adopted d known first family) := by
  constructor
  · rintro (⟨h, -⟩ | ⟨-, h, -⟩ | ⟨-, h, -⟩ | ⟨-, h, hs, hd⟩ | ⟨-, h, hs, hd, ha⟩)
    · simp [hr] at h
    · simp [hw] at h
    · simp [hw] at h
    · rw [hw] at h
      cases h
      exact ⟨rfl, _, hs, .inl ⟨hd, rfl⟩⟩
    · rw [hw] at h
      cases h
      exact ⟨rfl, _, hs, .inr ⟨hd, ha⟩⟩
  · rintro ⟨rfl, known, hs, ⟨hd, rfl⟩ | ⟨hd, ha⟩⟩
    · exact .member hr hw hs hd
    · exact .moved hr hw hs hd ha

end Denotations

theorem Mention.givenName?_target_iff {m : Mention} {name : String} :
    m.givenName? .target = some name ↔ ∃ second, m.wording = .words name second := by
  match m with
  | ⟨_, .unknown⟩ => simp [givenName?]
  | ⟨_, .words first second⟩ => simp [givenName?]

end Markup

namespace Resolver

open Markup Mention

variable {d : Document} {family name surname birth : String}

/-! ### The tables of the resolver -/

theorem lookup_aliases_iff : (ofDocument d).aliases.lookup surname = some family ↔
    ∃ f, IsLast (fun f => surname ∈ f.aliases) d f ∧ f.name = family := by
  have key (f : Family) : (∃ e ∈ f.aliases.map (·, f.name), e.1 = surname) ↔
      surname ∈ f.aliases := by
    refine ⟨?_, fun h => ⟨_, List.mem_map_of_mem h, rfl⟩⟩
    rintro ⟨e, he, rfl⟩
    obtain ⟨s, hs, rfl⟩ := List.mem_map.mp he
    exact hs
  rw [ofDocument, lookup_reverse_iff, isLast_flatMap]
  simp only [key]
  refine exists_congr fun f => and_congr_right fun hf => ⟨fun h => ?_, ?_⟩
  · obtain ⟨s, -, he⟩ := List.mem_map.mp h.mem
    exact congrArg Prod.snd he
  · rintro rfl
    obtain ⟨e, he⟩ := exists_isLast_iff.mpr ((key f).mpr hf.holds)
    obtain ⟨s, -, rfl⟩ := List.mem_map.mp he.mem
    obtain rfl : s = surname := he.holds
    exact he

theorem canonical_eq_iff : (ofDocument d).canonical surname = family ↔ StandsFor d surname family := by
  rw [canonical]
  cases hl : (ofDocument d).aliases.lookup surname with
  | some g =>
    obtain ⟨f, hf, rfl⟩ := lookup_aliases_iff.mp hl
    constructor
    · rintro rfl
      exact .alias hf
    · rintro (h | h)
      · exact congrArg Family.name (hf.unique h)
      · exact absurd hf.holds (h f hf.mem)
  | none =>
    have hn (f : Family) (hf : f ∈ d) : surname ∉ f.aliases := fun hs => by
      obtain ⟨g, hg⟩ := exists_isLast_iff (P := fun f => surname ∈ f.aliases) |>.mpr ⟨f, hf, hs⟩
      rw [lookup_aliases_iff.mpr ⟨g, hg, rfl⟩] at hl
      cases hl
    constructor
    · rintro rfl
      exact .own hn
    · rintro (h | h)
      · exact absurd h.holds (hn _ h.mem)
      · rfl

/-- The entry that an occurrence makes in the table of adopted members. -/
def adoptionAt? (d : Document) (o : Occurrence) : Option ((String × String) × Id) :=
  if o.role = .target then adoption? (ofDocument d).canonical o.family o.mention else none

theorem adopted_ofDocument (d : Document) :
    (ofDocument d).adopted = ((occurrences d).filterMap (adoptionAt? d)).reverse := by
  have hr (f : Family) (r : Relation) : (r.occurrences f.name).filterMap (adoptionAt? d) =
      r.targets.filterMap (adoption? (ofDocument d).canonical f.name) := by
    simp [Relation.occurrences, List.filterMap_map, Function.comp_def, adoptionAt?]
  simp only [occurrences, List.filterMap_flatMap, hr]
  rfl

theorem adoptionAt?_eq_some_iff {o : Occurrence} {id : Id} :
    adoptionAt? d o = some ((family, name), id) ↔
      MovesTo d family name o ∧ id = .member o.family name := by
  obtain ⟨birth, role, span, wording⟩ := o
  simp only [adoptionAt?, MovesTo, ← canonical_eq_iff]
  match role, wording with
  | .source, _ => simp
  | .target, .unknown => simp [adoption?, Mention.givenName?]
  | .target, .words first none => simp [adoption?, Mention.givenName?, Mention.surname?]
  | .target, .words first (some second) =>
    simp only [adoption?, Mention.givenName?, Mention.surname?, if_true, Option.some.injEq,
      Prod.mk.injEq, Wording.words.injEq, true_and]
    constructor
    · rintro ⟨⟨rfl, rfl⟩, rfl⟩
      exact ⟨⟨second, ⟨rfl, rfl⟩, rfl⟩, rfl⟩
    · rintro ⟨⟨s, ⟨rfl, rfl⟩, rfl⟩, rfl⟩
      exact ⟨⟨rfl, rfl⟩, rfl⟩

theorem adopted?_eq_some_iff {id : Id} : (ofDocument d).adopted? family name = some id ↔
    ∃ birth, Adopted d family name birth ∧ id = .member birth name := by
  have key (o : Occurrence) : (∃ e ∈ (adoptionAt? d o).toList, e.1 = (family, name)) ↔
      MovesTo d family name o := by
    constructor
    · rintro ⟨⟨_, id⟩, he, rfl⟩
      exact (adoptionAt?_eq_some_iff.mp (Option.mem_toList.mp he)).1
    · exact fun h => ⟨_, Option.mem_toList.mpr (adoptionAt?_eq_some_iff.mpr ⟨h, rfl⟩), rfl⟩
  rw [adopted?, adopted_ofDocument, lookup_reverse_iff, List.filterMap_eq_flatMap_toList,
    isLast_flatMap]
  simp only [key]
  constructor
  · rintro ⟨o, ho, he⟩
    exact ⟨o.family, ⟨o, ho, rfl⟩, (adoptionAt?_eq_some_iff.mp (Option.mem_toList.mp he.mem)).2⟩
  · rintro ⟨birth, ⟨o, ho, rfl⟩, rfl⟩
    have he := adoptionAt?_eq_some_iff.mpr ⟨ho.holds, rfl⟩
    refine ⟨o, ho, [], [], ?_⟩
    simp [he]

theorem adopted?_eq_none_iff : (ofDocument d).adopted? family name = none ↔
    ∀ birth, ¬Adopted d family name birth := by
  rw [Option.eq_none_iff_forall_ne_some]
  simp only [Ne, adopted?_eq_some_iff]
  exact ⟨fun h birth ha => h _ ⟨birth, ha, rfl⟩, fun h id ⟨birth, ha, _⟩ => h birth ha⟩

theorem foundedBy_iff {m : Mention} : (ofDocument d).foundedBy family name m ↔
    m.wording = .words name none ∧ ∀ birth, ¬Adopted d family name birth := by
  simp only [foundedBy, Bool.and_eq_true, Option.isNone_iff_eq_none, adopted?_eq_none_iff]
  refine and_congr_left fun _ => ?_
  match m with
  | ⟨_, .unknown⟩ => simp [Mention.givenName?]
  | ⟨_, .words first none⟩ => simp [Mention.givenName?, Mention.surname?]
  | ⟨_, .words first (some second)⟩ => simp [Mention.givenName?, Mention.surname?]

/-- Whether an occurrence makes a member of the family. -/
def definesAt (r : Resolver) (family name : String) (o : Occurrence) : Bool :=
  o.family == family && match o.role with
    | .source => r.foundedBy family name o.mention
    | .target => o.mention.givenName? .target == some name

theorem defines_eq_any (d : Document) (family name : String) :
    (ofDocument d).defines family name =
      (occurrences d).any ((ofDocument d).definesAt family name) := by
  have hdoc : (ofDocument d).document = d := rfl
  simp only [defines, hdoc, occurrences, Relation.occurrences, List.any_flatMap, List.any_append,
    List.any_map, Function.comp_def, definesAt]
  congr 1
  funext f
  cases hf : f.name == family <;> simp

theorem defines_iff : (ofDocument d).defines family name ↔ Defined d family name := by
  rw [defines_eq_any, List.any_eq_true]
  simp only [definesAt, Bool.and_eq_true, beq_iff_eq]
  constructor
  · rintro ⟨⟨birth, role, m⟩, ho, rfl, hm⟩
    cases role with
    | source =>
      obtain ⟨hw, hn⟩ := foundedBy_iff.mp hm
      exact .inr ⟨hn, _, ho, rfl, rfl, hw⟩
    | target => exact .inl ⟨_, ho, rfl, rfl, givenName?_target_iff.mp (beq_iff_eq.mp hm)⟩
  · rintro (⟨⟨birth, role, m⟩, ho, rfl, rfl, hm⟩ | ⟨hn, ⟨birth, role, m⟩, ho, rfl, rfl, hm⟩)
    · exact ⟨_, ho, rfl, beq_iff_eq.mpr (givenName?_target_iff.mpr hm)⟩
    · exact ⟨_, ho, rfl, foundedBy_iff.mpr ⟨hm, hn⟩⟩

/-! ### Whom a reference denotes -/

theorem resolve_eq_none_iff {o : Occurrence} :
    (ofDocument d).resolve o.family o.mention o.role = .ok none ↔
      o.mention.wording = .unknown := by
  obtain ⟨birth, role, span, wording⟩ := o
  match role, wording with
  | _, .unknown => simp [resolve, Mention.givenName?]
  | .target, .words first second => simp [resolve, Mention.givenName?]
  | .source, .words first none => simp [resolve, Mention.givenName?, Mention.surname?]
  | .source, .words first (some second) =>
    simp only [resolve, Mention.givenName?, Mention.surname?, Option.getD_some, reduceCtorEq,
      iff_false]
    split
    · simp
    · split <;> simp

theorem resolve_eq_some_iff {o : Occurrence} {id : Id} :
    (ofDocument d).resolve o.family o.mention o.role = .ok (some id) ↔
      ∃ family name, Denotes d o family name ∧ id = .member family name := by
  obtain ⟨birth, role, span, wording⟩ := o
  match role, wording with
  | _, .unknown =>
    simp [resolve, Mention.givenName?, not_denotes_unknown]
  | .target, .words first second =>
    simp only [denotes_child_iff (o := ⟨birth, .target, ⟨span, .words first second⟩⟩) rfl rfl]
    simp [resolve, Mention.givenName?, eq_comm]
  | .source, .words first none =>
    simp only [denotes_short_iff (o := ⟨birth, .source, ⟨span, .words first none⟩⟩) rfl rfl,
      and_assoc, exists_eq_left, resolve, Mention.givenName?, Mention.surname?, Option.getD_none,
      Except.ok.injEq, Option.some.injEq]
    cases ha : (ofDocument d).adopted? birth first with
    | none =>
      have hn := adopted?_eq_none_iff.mp ha
      simp [hn, eq_comm]
    | some member =>
      obtain ⟨b, hb, rfl⟩ := adopted?_eq_some_iff.mp ha
      simp [hb.eq_iff, eq_comm]
  | .source, .words first (some second) =>
    simp only [denotes_full_iff (o := ⟨birth, .source, ⟨span, .words first (some second)⟩⟩) rfl rfl,
      ← canonical_eq_iff, and_assoc, exists_eq_left, exists_eq_left', resolve, Mention.givenName?,
      Mention.surname?, Option.getD_some]
    split
    · next hd =>
      have hd := defines_iff.mp hd
      simp [hd, eq_comm]
    · next hd =>
      rw [defines_iff] at hd
      split
      · next member ha =>
        obtain ⟨b, hb, rfl⟩ := adopted?_eq_some_iff.mp ha
        simp [hd, hb.eq_iff, eq_comm]
      · next ha =>
        simp [hd, adopted?_eq_none_iff.mp ha]

end Resolver

/-! ### Deciding what a document says -/

theorem Id.member_left_inj {family other name : String} :
    Id.member family name = Id.member other name ↔ family = other := by
  refine ⟨fun h => ?_, fun h => h ▸ rfl⟩
  simpa [member, nested, Id.eq_iff_text_eq, String.ext_iff] using h

namespace Markup

variable {d : Document} {surname family name birth : String}

instance : Decidable (StandsFor d surname family) := decidable_of_iff _ Resolver.canonical_eq_iff

instance : Decidable (Bears d family name) :=
  decidable_of_iff (∃ o ∈ occurrences d, o.family = family ∧ o.role = .target ∧
      o.mention.givenName? .target = some name) <| by
    simp only [Bears, Mention.givenName?_target_iff]

instance : Decidable (Adopted d family name birth) :=
  decidable_of_iff ((Resolver.ofDocument d).adopted? family name = some (.member birth name)) <| by
    simp only [Resolver.adopted?_eq_some_iff, Id.member_left_inj, exists_eq_right']

instance : Decidable (Defined d family name) := decidable_of_iff _ Resolver.defines_iff

end Markup

end Pedigree
