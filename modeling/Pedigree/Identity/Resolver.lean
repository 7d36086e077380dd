import Pedigree.Markup.Reader
import Pedigree.Snapshot

/-! Who is meant. A member `F::N` is defined by a child `N` in family `F` or by a source `N` of
`F`. A question mark denotes nobody. A target `N` or `N S` in `F` is `F::N`. A source `S N` is
`S::N`, where an alias stands for its family. A source `N` in `F` is the member adopted into `F`
under that name, that is, a child of another family written `N F` there, or else `F::N`. -/
namespace Pedigree

open Markup (Document Mention Role)

/-- A reference to a member that nobody defines. -/
structure UnknownMember where
  family : String
  surname : String
  name : String
  deriving DecidableEq, Repr, Inhabited

structure Resolver where
  document : Document
  /-- Aliases and their families, latest first. -/
  aliases : List (String × String)
  /-- New surname and given name of adopted members, latest first. -/
  adopted : List ((String × String) × Id)

namespace Resolver

def canonical (r : Resolver) (surname : String) : String :=
  (r.aliases.lookup surname).getD surname

/-- The member that a target with a new surname denotes under that surname. -/
def adoption? (canonical : String → String) (family : String) (m : Mention) :
    Option ((String × String) × Id) :=
  match m.givenName? .target, m.surname? .target with
  | some name, some surname => some ((canonical surname, name), .member family name)
  | _, _ => none

def ofDocument (document : Document) : Resolver :=
  let aliases := (document.flatMap fun f => f.aliases.map (·, f.name)).reverse
  let r : Resolver := ⟨document, aliases, []⟩
  let adopted := document.flatMap fun f => f.relations.flatMap fun relation =>
    relation.targets.filterMap (adoption? r.canonical f.name)
  { r with adopted := adopted.reverse }

def adopted? (r : Resolver) (surname name : String) : Option Id :=
  r.adopted.lookup (surname, name)

/-- Whether a source of one word makes a member of its own family. -/
def foundedBy (r : Resolver) (family name : String) (m : Mention) : Bool :=
  (m.surname? .source).isNone && m.givenName? .source == some name &&
    (r.adopted? family name).isNone

/-- Whether some section of the family defines the member. -/
def defines (r : Resolver) (family name : String) : Bool :=
  r.document.any fun f => f.name == family && f.relations.any fun relation =>
    relation.sources.any (r.foundedBy family name) ||
      relation.targets.any fun m => m.givenName? .target == some name

/-- The member that a mention in a family denotes; `none` for a question mark. -/
def resolve (r : Resolver) (family : String) (m : Mention) (role : Role) :
    Except UnknownMember (Option Id) :=
  match m.givenName? role with
  | none => .ok none
  | some name =>
    match role, m.surname? role with
    | .target, _ => .ok (some (.member family name))
    | .source, none => .ok (some ((r.adopted? family name).getD (.member family name)))
    | .source, some written =>
      let surname := r.canonical written
      if r.defines surname name then .ok (some (.member surname name))
      else
        match r.adopted? surname name with
        | some member => .ok (some member)
        | none => .error ⟨family, surname, name⟩

/-- Identities and warnings so far, the latest warning first. -/
structure Findings where
  identities : IdentityIndex
  warnings : List UnknownMember
  deriving Repr, Inhabited

def note (r : Resolver) (family : String) (role : Role) (found : Findings) (m : Mention) :
    Findings :=
  match r.resolve family m role with
  | .ok none => found
  | .ok (some member) =>
    { found with identities := found.identities.insert m.span.start member }
  | .error unknown => { found with warnings := unknown :: found.warnings }

def noteRelation (r : Resolver) (family : String) (found : Findings)
    (relation : Markup.Relation) : Findings :=
  relation.targets.foldl (r.note family .target)
    (relation.sources.foldl (r.note family .source) found)

def findings (r : Resolver) : Findings :=
  r.document.foldl (fun found f => f.relations.foldl (r.noteRelation f.name) found) ⟨.empty, []⟩

def reference (role : Role) (m : Mention) : Snapshot.Reference := ⟨m.span.start, m.shown role⟩

/-- The families of a document with all words replaced by what they are shown as. -/
def families (document : Document) : List Snapshot.Family :=
  document.map fun f => ⟨f.name, f.relations.map fun relation =>
    ⟨relation.sources.map (reference .source), relation.targets.map (reference .target),
      relation.isUnion⟩⟩

end Resolver

namespace Snapshot

/-- The snapshot of a document and the references that denote no member, in order. -/
def ofDocument (document : Document) : Snapshot × List UnknownMember :=
  let found := (Resolver.ofDocument document).findings
  (⟨Resolver.families document, found.identities⟩, found.warnings.reverse)

/-- Reads a source and resolves its references. -/
def parse (source : String) : Except (List Diagnostic) (Snapshot × List UnknownMember) :=
  (Markup.read source).map ofDocument

end Snapshot

end Pedigree
