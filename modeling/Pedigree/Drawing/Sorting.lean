/-! Sorting and grouping by a number. -/
namespace Pedigree.Drawing

/-- Puts an element before the first one whose key is not smaller. -/
def insertBy (key : α → Int) (x : α) : List α → List α
  | [] => [x]
  | y :: ys => if key x ≤ key y then x :: y :: ys else y :: insertBy key x ys

/-- Sorts by a key and keeps the order of elements with equal keys. -/
def sortBy (key : α → Int) (xs : List α) : List α := xs.foldr (insertBy key) []

/-- The different keys, in ascending order. -/
def keys (key : α → Int) (xs : List α) : List Int := (sortBy id (xs.map key)).eraseReps

/-- Groups by a key, in ascending order of the key; a group keeps the order of the list. -/
def groupsBy (key : α → Int) (xs : List α) : List (Int × List α) :=
  (keys key xs).map fun k => (k, xs.filter fun x => key x == k)

theorem mem_insertBy {key : α → Int} {x y : α} {ys : List α} :
    y ∈ insertBy key x ys ↔ y = x ∨ y ∈ ys := by
  induction ys with
  | nil => simp [insertBy]
  | cons z zs ih =>
    unfold insertBy; split
    · simp
    · simp [ih, or_left_comm]

@[simp] theorem mem_sortBy {key : α → Int} {y : α} {xs : List α} : y ∈ sortBy key xs ↔ y ∈ xs := by
  induction xs with
  | nil => simp [sortBy]
  | cons x xs ih =>
    rw [List.mem_cons, ← ih]
    exact mem_insertBy

end Pedigree.Drawing
