import Pedigree.Identity.Index

/-! What a layout starts from: the families of a document in order, and which member each of their
references denotes. -/
namespace Pedigree

namespace Snapshot

/-- A person as written, known by the byte offset. -/
structure Reference where
  offset : Nat
  label : String
  deriving DecidableEq, Repr, Inhabited

structure Relation where
  sources : List Reference
  targets : List Reference
  isUnion : Bool
  deriving DecidableEq, Repr, Inhabited

structure Family where
  label : String
  relations : List Relation
  deriving DecidableEq, Repr, Inhabited

end Snapshot

structure Snapshot where
  families : List Snapshot.Family
  identities : IdentityIndex
  deriving Repr, Inhabited

namespace Snapshot

def memberOf (s : Snapshot) (r : Reference) : Option Id := s.identities.get? r.offset

/-- The references of a family, relation by relation, sources before targets. -/
def Family.references (f : Family) : List Reference :=
  f.relations.flatMap fun r => r.sources ++ r.targets

end Snapshot

end Pedigree
