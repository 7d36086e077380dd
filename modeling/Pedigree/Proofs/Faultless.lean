import Pedigree.Checked

/-! Computations that met no fault. Whatever such a computation insists on along the way is true of
its values. -/
namespace Pedigree

namespace Checked

theorem value_of_run {x : Checked α} {a : α} (h : x.run = .ok a) : x.value = a :=
  (run_eq_ok_iff.1 h).2

theorem run_eq_ok_value {x : Checked α} (h : x.faults = []) : x.run = .ok x.value :=
  run_eq_ok_iff.2 ⟨h, rfl⟩

theorem faults_bind_eq_nil {x : Checked α} {f : α → Checked β} :
    (x >>= f).faults = [] ↔ x.faults = [] ∧ (f x.value).faults = [] := by
  rw [faults_bind, List.append_eq_nil_iff]

theorem run_bind_eq_ok {x : Checked α} {f : α → Except Fault β} {b : β} :
    (x.run >>= f) = .ok b ↔ x.faults = [] ∧ f x.value = .ok b := by
  unfold run
  split
  · next h => exact (and_iff_right h).symm
  · next h => simp [h, bind, Except.bind]

theorem faults_size_eq_nil {n : Int} : (size n).faults = [] ↔ 0 ≤ n := by
  unfold size; split <;> simp_all

theorem faults_narrow_eq_nil {n : Int} :
    (narrow n).faults = [] ↔ -2147483648 ≤ n ∧ n ≤ 2147483647 := by
  unfold narrow inRange
  by_cases h : -2147483648 ≤ n ∧ n ≤ 2147483647
  · simp [h]
  · rw [Classical.not_and_iff_not_or_not] at h
    obtain h | h := h <;> simp [h]

theorem faults_mapM_eq_nil {f : α → Checked β} {xs : List α} :
    (xs.mapM f).faults = [] ↔ ∀ x ∈ xs, (f x).faults = [] := by
  induction xs with
  | nil => simp
  | cons x xs ih =>
    rw [List.mapM_cons, faults_bind_eq_nil, faults_bind_eq_nil, ih]
    simp

theorem exists_of_bind_eq_ok {x : Except ε α} {f : α → Except ε β} {b : β}
    (h : (x >>= f) = .ok b) : ∃ a, x = .ok a ∧ f a = .ok b := by
  cases x with
  | error e => cases h
  | ok a => exact ⟨a, rfl, h⟩

theorem of_bind_eq_error {x : Except ε α} {k : α → Except ε β} {e : ε}
    (h : (x >>= k) = .error e) : x = .error e ∨ ∃ a, x = .ok a ∧ k a = .error e := by
  cases x with
  | error e' =>
    cases h
    exact .inl rfl
  | ok a => exact .inr ⟨a, rfl, h⟩

theorem exists_of_toOption_map_decide {x : Except ε α} {P : α → Prop} [DecidablePred P]
    (h : (x.map fun a => decide (P a)).toOption = some true) : ∃ a, x = .ok a ∧ P a := by
  cases x with
  | error e => cases h
  | ok a => exact ⟨a, rfl, of_decide_eq_true (Option.some.inj h)⟩

theorem eq_ok_of_toOption_map {x : Except ε α} {f : α → β} {b : β}
    (h : (x.map f).toOption = some b) : ∃ a, x = .ok a ∧ f a = b := by
  cases x with
  | error e => cases h
  | ok a => exact ⟨a, rfl, Option.some.inj h⟩

end Checked

end Pedigree
