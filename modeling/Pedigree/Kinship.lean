import Pedigree.Snapshot

/-! The persons of a family and the unions they open. Persons are numbered in the order in which
they are registered, so partners and children have greater numbers than whoever opens the union
(`Kinship.branches` reads the trees off from the last person to the first). -/
namespace Pedigree

namespace Kinship

/-- The partners of whoever opens the union, and the children. -/
structure Union where
  partners : List Nat
  children : List Nat
  deriving DecidableEq, Repr, Inhabited

structure Person where
  label : String
  member : Option Id
  unions : List Union
  deriving DecidableEq, Repr, Inhabited

end Kinship

structure Kinship where
  label : String
  persons : Array Kinship.Person
  roots : List Nat
  deriving Repr, Inhabited

namespace Kinship

def size (k : Kinship) : Nat := k.persons.size

/-- Registers persons and gives their numbers. -/
def register (k : Kinship) (persons : List Person) : Kinship × List Nat :=
  ({ k with persons := k.persons ++ persons.toArray }, List.range' k.size persons.length)

/-- The person registered last for a member. -/
def latest? (k : Kinship) (member : Id) : Option Nat :=
  (List.range k.size).reverse.find? fun i => (k.persons[i]?.bind (·.member)) == some member

def root (k : Kinship) (person : Person) : Kinship × Nat :=
  ({ k with persons := k.persons.push person, roots := k.roots ++ [k.size] }, k.size)

def openUnion (k : Kinship) (opener : Nat) (union : Union) : Kinship :=
  { k with persons := k.persons.modify opener fun p => { p with unions := p.unions ++ [union] } }

variable (memberOf : Snapshot.Reference → Option Id)

def personOf (r : Snapshot.Reference) : Person := ⟨r.label, memberOf r, []⟩

/-- The first source opens the union: the person registered last for its member, or a new root. -/
def add (k : Kinship) (relation : Snapshot.Relation) : Kinship :=
  match relation.sources with
  | [] => k
  | first :: rest =>
    let (k, opener) := match (memberOf first).bind k.latest? with
      | some i => (k, i)
      | none => k.root (personOf memberOf first)
    let (k, partners) := k.register (rest.map (personOf memberOf))
    let (k, children) := k.register (relation.targets.map (personOf memberOf))
    k.openUnion opener ⟨partners, children⟩

/-- Only unions make kin. -/
def ofFamily (f : Snapshot.Family) : Kinship :=
  (f.relations.filter (·.isUnion)).foldl (add memberOf) ⟨f.label, #[], []⟩

end Kinship

def Snapshot.kinships (s : Snapshot) : List Kinship :=
  s.families.map (Kinship.ofFamily s.memberOf)

mutual

/-- A person with everyone below. -/
inductive Branch where
  | node (index : Nat) (label : String) (member : Option Id) (bonds : List Bond)

/-- A union within a branch. -/
inductive Bond where
  | mk (partners children : List Branch)

end

namespace Kinship

def branchOf (later : Nat → Option Branch) (i : Nat) (p : Person) : Branch :=
  .node i p.label p.member
    (p.unions.map fun u => ⟨u.partners.filterMap later, u.children.filterMap later⟩)

/-- The branches of some persons, of whom the first has the given number. -/
def branchesFrom (i : Nat) : List Person → List Branch
  | [] => []
  | p :: ps =>
    let later := branchesFrom (i + 1) ps
    branchOf (fun j => if i < j then later[j - (i + 1)]? else none) i p :: later

def branches (k : Kinship) : List Branch := branchesFrom 0 k.persons.toList

/-- The branches of the roots. -/
def trees (k : Kinship) : List Branch := k.roots.filterMap fun i => k.branches[i]?

end Kinship

end Pedigree
