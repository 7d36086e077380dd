import Pedigree.Markup.Reader

/-! The ways of writing a document. First, what its lines say, one after the other: headers,
relations with their targets or with lists of children below them, and blank lines. Second, how lines
are put down: with white space around what they say, comments and line ends. -/
namespace Pedigree.Markup

namespace Plain

/-- A relation without spans. -/
structure Relation where
  sources : List Wording
  targets : List Wording
  isUnion : Bool
  deriving DecidableEq, Repr

/-- A family without spans. -/
structure Family where
  name : String
  aliases : List String
  relations : List Relation
  deriving DecidableEq, Repr

end Plain

def Relation.plain (r : Relation) : Plain.Relation :=
  ⟨r.sources.map (·.wording), r.targets.map (·.wording), r.isUnion⟩

def Family.plain (f : Family) : Plain.Family :=
  ⟨f.name, f.aliases, f.relations.map (·.plain)⟩

namespace Spelling

/-- Spaces and tabs. -/
def Blank (cs : List Char) : Prop := ∀ c ∈ cs, CharClass.isBlank c

instance (cs : List Char) : Decidable (Blank cs) := List.decidableBAll _ cs

theorem blank_nil : Blank [] := by simp [Blank]

theorem blank_space : Blank [' '] := by decide

/-- White space of any kind within a line. -/
def White (cs : List Char) : Prop := ∀ c ∈ cs, CharClass.isSpace c ∧ c ≠ '\n'

instance (cs : List Char) : Decidable (White cs) := List.decidableBAll _ cs

theorem white_nil : White [] := by simp [White]

inductive Name : String → List Char → Prop where
  | word {s : String} : s.toList ≠ [] → (∀ c ∈ s.toList, CharClass.isName c) → Name s s.toList

inductive Person : Wording → List Char → Prop where
  | unknown : Person .unknown ['?']
  | one {s : String} {cs : List Char} : Name s cs → Person (.words s none) cs
  | two {s t : String} {cs gap ds : List Char} : Name s cs → gap ≠ [] → Blank gap → Name t ds →
      Person (.words s (some t)) (cs ++ gap ++ ds)

/-- One or more items with separators between them. -/
inductive Items (Item : α → List Char → Prop) (separator : Char) : List α → List Char → Prop where
  | one {x : α} {cs : List Char} : Item x cs → Items Item separator [x] cs
  | more {x : α} {xs : List α} {cs before after ds : List Char} : Item x cs → Blank before →
      Blank after → Items Item separator xs ds →
      Items Item separator (x :: xs) (cs ++ before ++ separator :: (after ++ ds))

def operator (isUnion : Bool) : List Char := if isUnion then ['='] else ['-', '>']

/-- The sources of a relation and its operator. -/
inductive Opening (r : Plain.Relation) : List Char → Prop where
  | sources {cs gap : List Char} : Items Person '+' r.sources cs → Blank gap →
      Opening r (cs ++ gap ++ operator r.isUnion)

/-- A relation with its targets in the same line. -/
inductive Inline (r : Plain.Relation) : List Char → Prop where
  | targets {cs gap ds : List Char} : Opening r cs → Blank gap → Items Person ',' r.targets ds →
      Inline r (cs ++ gap ++ ds)

/-- What may stand before the children of a line. -/
inductive Number : List Char → Prop where
  | none : Number []
  | digits {ds gap : List Char} : ds ≠ [] → (∀ c ∈ ds, c.isDigit) → Blank gap →
      Number (ds ++ '.' :: gap)

inductive Children (ws : List Wording) : List Char → Prop where
  | list {number cs : List Char} : Number number → Items Person ',' ws cs →
      Children ws (number ++ cs)

inductive Header (f : Plain.Family) : List Char → Prop where
  | bare {cs : List Char} : Name f.name cs → f.aliases = [] → Header f cs
  | aliased {cs gap before ds after : List Char} : Name f.name cs → Blank gap → Blank before →
      Items Name ',' f.aliases ds → Blank after →
      Header f (cs ++ gap ++ '(' :: (before ++ ds ++ after ++ [')']))

/-! ### What the lines of a document say -/

/-- Lines of children. -/
inductive ChildLines : List Wording → List (List Char) → Prop where
  | none : ChildLines [] []
  | line {ws vs : List Wording} {core : List Char} {lines : List (List Char)} : Children ws core →
      ChildLines vs lines → ChildLines (ws ++ vs) (core :: lines)

/-- A relation in one line, or with its targets, if any, in lines below it and a blank line. -/
inductive RelationLines (r : Plain.Relation) : List (List Char) → Prop where
  | inline {core : List Char} : Inline r core → RelationLines r [core]
  | listed {core : List Char} {lines : List (List Char)} : Opening r core →
      ChildLines r.targets lines → RelationLines r (core :: lines ++ [[]])

inductive BodyLines : List Plain.Relation → List (List Char) → Prop where
  | none : BodyLines [] []
  | blank {rs : List Plain.Relation} {lines : List (List Char)} : BodyLines rs lines →
      BodyLines rs ([] :: lines)
  | relation {r : Plain.Relation} {rs : List Plain.Relation} {lines rest : List (List Char)} :
      RelationLines r lines → BodyLines rs rest → BodyLines (r :: rs) (lines ++ rest)

inductive DocumentLines : List Plain.Family → List (List Char) → Prop where
  | none : DocumentLines [] []
  | blank {fs : List Plain.Family} {lines : List (List Char)} : DocumentLines fs lines →
      DocumentLines fs ([] :: lines)
  | family {f : Plain.Family} {fs : List Plain.Family} {core : List Char}
      {body rest : List (List Char)} : Header f core → BodyLines f.relations body →
      DocumentLines fs rest → DocumentLines (f :: fs) (core :: body ++ rest)

/-! ### How lines are put down -/

/-- A line that says something, or nothing. -/
inductive Line (core : List Char) : List Char → Prop where
  | bare {before after : List Char} : White before → White after →
      Line core (before ++ core ++ after)
  | commented {before after comment : List Char} : White before → White after →
      '\n' ∉ comment → Line core (before ++ core ++ after ++ '/' :: '/' :: comment)

/-- Lines with their ends, of which the last line may have none. -/
inductive Text : List (List Char) → List Char → Prop where
  | none : Text [] []
  | last {core line : List Char} : Line core line → Text [core] line
  | lineFeed {core line text : List Char} {lines : List (List Char)} : Line core line →
      Text lines text → Text (core :: lines) (line ++ '\n' :: text)
  | carriageReturn {core line text : List Char} {lines : List (List Char)} : Line core line →
      Text lines text → Text (core :: lines) (line ++ '\r' :: '\n' :: text)

end Spelling

/-- Whether a text is one of the ways of writing a document. -/
def Spells (document : List Plain.Family) (source : String) : Prop :=
  ∃ lines, Spelling.DocumentLines document lines ∧ Spelling.Text lines source.toList

/-! ### Which documents can be written -/

/-- A non-empty run of characters of names. -/
def IsWord (s : String) : Prop := s.toList ≠ [] ∧ ∀ c ∈ s.toList, CharClass.isName c

instance (s : String) : Decidable (IsWord s) :=
  haveI := List.decidableBAll (fun c => CharClass.isName c = true) s.toList
  inferInstanceAs (Decidable (s.toList ≠ [] ∧ ∀ c ∈ s.toList, CharClass.isName c))

def Wording.Writable : Wording → Prop
  | .unknown => True
  | .words first second => IsWord first ∧ ∀ s ∈ second, IsWord s

namespace Plain

structure Relation.Writable (r : Relation) : Prop where
  sources_ne_nil : r.sources ≠ []
  sources : ∀ w ∈ r.sources, w.Writable
  targets : ∀ w ∈ r.targets, w.Writable

structure Family.Writable (f : Family) : Prop where
  name : IsWord f.name
  aliases : ∀ s ∈ f.aliases, IsWord s
  relations : ∀ r ∈ f.relations, r.Writable

end Plain

namespace Spelling

variable {Item : α → List Char → Prop} {separator : Char}

theorem name_iff {s : String} : IsWord s ↔ ∃ cs, Name s cs :=
  ⟨fun h => ⟨_, .word h.1 h.2⟩, fun ⟨_, .word h h'⟩ => ⟨h, h'⟩⟩

theorem person_iff {w : Wording} : w.Writable ↔ ∃ cs, Person w cs := by
  constructor
  · intro h
    cases w with
    | unknown => exact ⟨_, .unknown⟩
    | words first second =>
      obtain ⟨cs, hcs⟩ := name_iff.mp h.1
      cases second with
      | none => exact ⟨_, .one hcs⟩
      | some s =>
        obtain ⟨ds, hds⟩ := name_iff.mp (h.2 s rfl)
        exact ⟨_, .two hcs (by simp) blank_space hds⟩
  · rintro ⟨cs, h⟩
    cases h with
    | unknown => trivial
    | one h => exact ⟨name_iff.mpr ⟨_, h⟩, by simp⟩
    | two h _ _ h' => exact ⟨name_iff.mpr ⟨_, h⟩, by simpa using name_iff.mpr ⟨_, h'⟩⟩

theorem items_iff {xs : List α} :
    (∃ cs, Items Item separator xs cs) ↔ xs ≠ [] ∧ ∀ x ∈ xs, ∃ cs, Item x cs := by
  constructor
  · rintro ⟨cs, h⟩
    induction h with
    | one h => simpa using ⟨_, h⟩
    | more h _ _ _ ih => simpa using ⟨⟨_, h⟩, ih.2⟩
  · rintro ⟨hne, h⟩
    induction xs with
    | nil => contradiction
    | cons x xs ih =>
      rw [List.forall_mem_cons] at h
      obtain ⟨⟨cs, hx⟩, hxs⟩ := h
      cases xs with
      | nil => exact ⟨_, .one hx⟩
      | cons y ys =>
        obtain ⟨ds, hds⟩ := ih (by simp) hxs
        exact ⟨_, .more hx blank_nil blank_nil hds⟩

theorem people_iff {ws : List Wording} :
    (∃ cs, Items Person separator ws cs) ↔ ws ≠ [] ∧ ∀ w ∈ ws, w.Writable := by
  simp [items_iff, person_iff]

theorem childLines_iff {ws : List Wording} :
    (∃ lines, ChildLines ws lines) ↔ ∀ w ∈ ws, w.Writable := by
  constructor
  · rintro ⟨lines, h⟩
    induction h with
    | none => simp
    | line hc _ ih =>
      obtain ⟨-, hi⟩ := hc
      exact List.forall_mem_append.mpr ⟨(people_iff.mp ⟨_, hi⟩).2, ih⟩
  · intro h
    by_cases hne : ws = []
    · exact ⟨[], hne ▸ .none⟩
    · obtain ⟨cs, hi⟩ := people_iff.mpr ⟨hne, h⟩
      exact ⟨_, by simpa using ChildLines.line (.list .none hi) .none⟩

theorem relationLines_iff {r : Plain.Relation} :
    r.Writable ↔ ∃ lines, RelationLines r lines := by
  constructor
  · intro h
    obtain ⟨cs, hi⟩ := people_iff.mpr ⟨h.sources_ne_nil, h.sources⟩
    obtain ⟨lines, hl⟩ := childLines_iff.mpr h.targets
    exact ⟨_, .listed (.sources hi blank_nil) hl⟩
  · rintro ⟨lines, h⟩
    cases h with
    | inline h =>
      obtain ⟨⟨hi, -⟩, -, ht⟩ := h
      have hs := people_iff.mp ⟨_, hi⟩
      exact ⟨hs.1, hs.2, (people_iff.mp ⟨_, ht⟩).2⟩
    | listed h hl =>
      obtain ⟨hi, -⟩ := h
      have hs := people_iff.mp ⟨_, hi⟩
      exact ⟨hs.1, hs.2, childLines_iff.mp ⟨_, hl⟩⟩

theorem bodyLines_iff {rs : List Plain.Relation} :
    (∀ r ∈ rs, r.Writable) ↔ ∃ lines, BodyLines rs lines := by
  constructor
  · intro h
    induction rs with
    | nil => exact ⟨[], .none⟩
    | cons r rs ih =>
      rw [List.forall_mem_cons] at h
      obtain ⟨lines, hl⟩ := relationLines_iff.mp h.1
      obtain ⟨rest, hr⟩ := ih h.2
      exact ⟨_, .relation hl hr⟩
  · rintro ⟨lines, h⟩
    induction h with
    | none => simp
    | blank _ ih => exact ih
    | relation hr _ ih => exact List.forall_mem_cons.mpr ⟨relationLines_iff.mpr ⟨_, hr⟩, ih⟩

theorem header_iff {f : Plain.Family} :
    (∃ cs, Header f cs) ↔ IsWord f.name ∧ ∀ s ∈ f.aliases, IsWord s := by
  constructor
  · rintro ⟨cs, h⟩
    cases h with
    | bare h ha => exact ⟨name_iff.mpr ⟨_, h⟩, by simp [ha]⟩
    | aliased h _ _ hi =>
      exact ⟨name_iff.mpr ⟨_, h⟩, fun s hs => name_iff.mpr ((items_iff.mp ⟨_, hi⟩).2 s hs)⟩
  · rintro ⟨hn, ha⟩
    obtain ⟨cs, hcs⟩ := name_iff.mp hn
    by_cases hne : f.aliases = []
    · exact ⟨cs, .bare hcs hne⟩
    · obtain ⟨ds, hi⟩ := items_iff.mpr ⟨hne, fun s hs => name_iff.mp (ha s hs)⟩
      exact ⟨_, .aliased hcs blank_nil blank_nil hi blank_nil⟩

theorem documentLines_iff {fs : List Plain.Family} :
    (∀ f ∈ fs, f.Writable) ↔ ∃ lines, DocumentLines fs lines := by
  constructor
  · intro h
    induction fs with
    | nil => exact ⟨[], .none⟩
    | cons f fs ih =>
      rw [List.forall_mem_cons] at h
      obtain ⟨cs, hcs⟩ := header_iff.mpr ⟨h.1.name, h.1.aliases⟩
      obtain ⟨body, hb⟩ := bodyLines_iff.mp h.1.relations
      obtain ⟨rest, hr⟩ := ih h.2
      exact ⟨_, .family hcs hb hr⟩
  · rintro ⟨lines, h⟩
    induction h with
    | none => simp
    | blank _ ih => exact ih
    | family hh hb _ ih =>
      have hf := header_iff.mp ⟨_, hh⟩
      exact List.forall_mem_cons.mpr ⟨⟨hf.1, hf.2, bodyLines_iff.mpr ⟨_, hb⟩⟩, ih⟩

theorem line_self (core : List Char) : Line core core := by
  simpa using Line.bare white_nil white_nil

theorem exists_text (lines : List (List Char)) : ∃ text, Text lines text := by
  induction lines with
  | nil => exact ⟨[], .none⟩
  | cons core lines ih =>
    obtain ⟨text, ht⟩ := ih
    exact ⟨_, .lineFeed (line_self core) ht⟩

end Spelling

/-- The documents that can be written are those of words, with sources in every relation. -/
theorem exists_spells_iff {document : List Plain.Family} :
    (∃ source, Spells document source) ↔ ∀ f ∈ document, f.Writable := by
  rw [Spelling.documentLines_iff]
  constructor
  · rintro ⟨_, lines, hd, -⟩
    exact ⟨lines, hd⟩
  · rintro ⟨lines, hd⟩
    obtain ⟨text, ht⟩ := Spelling.exists_text lines
    exact ⟨String.ofList text, lines, hd, by simpa using ht⟩

end Pedigree.Markup
