/-! Whole-number arithmetic that remembers which limits it broke. Values are those of unbounded
integers, so a law about them needs no range hypothesis; a drawing is only handed out when no
step left the 32-bit range, gave a box a negative size or divided by zero. -/
namespace Pedigree

inductive Fault where
  | overflow
  | negativeSize
  | zeroDivisor
  deriving DecidableEq, Repr, Inhabited

/-- A value and the faults met while it was computed, in order. -/
structure Checked (α : Type) where
  value : α
  faults : List Fault
  deriving DecidableEq, Repr, Inhabited

namespace Checked

instance : Monad Checked where
  pure a := ⟨a, []⟩
  bind x f := ⟨(f x.value).value, x.faults ++ (f x.value).faults⟩

@[simp] theorem value_pure (a : α) : (pure a : Checked α).value = a := rfl

@[simp] theorem faults_pure (a : α) : (pure a : Checked α).faults = [] := rfl

@[simp] theorem value_bind (x : Checked α) (f : α → Checked β) :
    (x >>= f).value = (f x.value).value := rfl

@[simp] theorem faults_bind (x : Checked α) (f : α → Checked β) :
    (x >>= f).faults = x.faults ++ (f x.value).faults := rfl

theorem ext {x y : Checked α} (hv : x.value = y.value) (hf : x.faults = y.faults) : x = y := by
  cases x; cases y; simp_all

instance : LawfulMonad Checked := LawfulMonad.mk' Checked
  (fun x => ext rfl (by simp [Functor.map]))
  (fun _ _ => ext rfl (by simp))
  (fun _ _ _ => ext rfl (by simp))

@[simp] theorem value_map (f : α → β) (x : Checked α) : (f <$> x).value = f x.value := rfl

@[simp] theorem faults_map (f : α → β) (x : Checked α) : (f <$> x).faults = x.faults := by
  simp [Functor.map]

/-- The value, if no limit was broken. -/
def run (x : Checked α) : Except Fault α :=
  match x.faults with
  | [] => .ok x.value
  | f :: _ => .error f

theorem run_eq_ok_iff {x : Checked α} {a : α} : x.run = .ok a ↔ x.faults = [] ∧ x.value = a := by
  unfold run; split <;> simp_all

/-- The numbers a coordinate may take. -/
def inRange (n : Int) : Bool := -2147483648 ≤ n && n ≤ 2147483647

def narrow (n : Int) : Checked Int := ⟨n, if inRange n then [] else [.overflow]⟩

@[simp] theorem value_narrow (n : Int) : (narrow n).value = n := rfl

@[inline] def add (a b : Int) : Checked Int := narrow (a + b)

@[inline] def sub (a b : Int) : Checked Int := narrow (a - b)

@[inline] def mul (a b : Int) : Checked Int := narrow (a * b)

@[inline] def neg (a : Int) : Checked Int := narrow (-a)

@[inline] def abs (a : Int) : Checked Int := narrow a.natAbs

/-- Division that rounds so that the remainder is not negative. -/
def ediv (a b : Int) : Checked Int :=
  if b = 0 then ⟨0, [.zeroDivisor]⟩ else narrow (a / b)

/-- Insists that a size is not negative. -/
def size (n : Int) : Checked Int := ⟨n, if 0 ≤ n then [] else [.negativeSize]⟩

def sum (xs : List Int) : Checked Int := xs.foldlM add 0

@[simp] theorem value_add (a b : Int) : (add a b).value = a + b := rfl
@[simp] theorem value_sub (a b : Int) : (sub a b).value = a - b := rfl
@[simp] theorem value_mul (a b : Int) : (mul a b).value = a * b := rfl
@[simp] theorem value_neg (a : Int) : (neg a).value = -a := rfl
@[simp] theorem value_abs (a : Int) : (abs a).value = a.natAbs := rfl
@[simp] theorem value_size (n : Int) : (size n).value = n := rfl

@[simp] theorem value_ediv (a b : Int) : (ediv a b).value = a / b := by
  unfold ediv; split
  · next h => simp [h]
  · rfl

@[simp] theorem value_mapM (f : α → Checked β) (xs : List α) :
    (xs.mapM f).value = xs.map fun x => (f x).value := by
  induction xs with
  | nil => rfl
  | cons x xs ih => simp [List.mapM_cons, ih]

@[simp] theorem value_foldlM (f : β → α → Checked β) (xs : List α) (b : β) :
    (xs.foldlM f b).value = xs.foldl (fun b x => (f b x).value) b := by
  induction xs generalizing b with
  | nil => rfl
  | cons x xs ih => simp [List.foldlM_cons, ih]

theorem value_sum (xs : List Int) : (sum xs).value = xs.foldl (· + ·) 0 := by
  simp [sum]

end Checked

end Pedigree
