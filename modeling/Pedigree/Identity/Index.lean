import Pedigree.Identity.Id
import Pedigree.Keyed

/-! Which member each written reference denotes. A reference is known by the byte offset at which
it is written. -/
namespace Pedigree

/-- Pairs of a reference and its member, each reference once. -/
structure IdentityIndex where
  entries : List (Nat × Id)
  deriving Repr, Inhabited

namespace IdentityIndex

def empty : IdentityIndex := ⟨[]⟩

/-- Records a member; an earlier one of the same reference is forgotten. -/
def insert (index : IdentityIndex) (reference : Nat) (member : Id) : IdentityIndex :=
  ⟨Keyed.set index.entries reference member⟩

def get? (index : IdentityIndex) (reference : Nat) : Option Id :=
  index.entries.lookup reference

def size (index : IdentityIndex) : Nat := index.entries.length

def isEmpty (index : IdentityIndex) : Bool := index.entries.isEmpty

end IdentityIndex

end Pedigree
