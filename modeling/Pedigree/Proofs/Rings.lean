import Pedigree.Packing.Search

/-! The offsets ring by ring. Each ring is the one list that holds the offsets of its length once,
by `x` and then `y`, so rings that follow each other hold all offsets of their lengths in the order
of the search. -/
namespace Pedigree

namespace Packing

/-- The order in which offsets are tried: by length, then by `x`, then by `y`. -/
def Earlier (p q : Pos) : Prop :=
  p.length < q.length ∨ p.length = q.length ∧ (p.x < q.x ∨ p.x = q.x ∧ p.y < q.y)

theorem not_earlier_zero (p : Pos) : ¬Earlier p ⟨0, 0⟩ := by
  intro h
  simp only [Earlier, Pos.length] at h
  omega

/-- The offsets of a length in one column, the upper one first. -/
def column (r : Nat) (x : Int) : List Pos :=
  if 0 < r - (x.natAbs : Int) then [⟨x, -(r - x.natAbs)⟩, ⟨x, r - x.natAbs⟩] else [⟨x, 0⟩]

theorem ring_eq (r : Nat) :
    ring r = (List.range (2 * r + 1)).flatMap fun i : Nat => column r (i - r) := rfl

theorem mem_column {r : Nat} {x : Int} (hx : x.natAbs ≤ r) {o : Pos} :
    o ∈ column r x ↔ o.x = x ∧ o.length = r := by
  obtain ⟨u, v⟩ := o
  unfold column Pos.length
  split <;> simp only [List.mem_cons, List.not_mem_nil, or_false, Pos.mk.injEq] <;> omega

theorem pairwise_column (r : Nat) (x : Int) : (column r x).Pairwise Earlier := by
  unfold column
  split
  · rw [List.pairwise_pair, Earlier, Pos.length, Pos.length]
    dsimp only
    omega
  · exact List.pairwise_singleton _ _

theorem mem_ring {r : Nat} {o : Pos} : o ∈ ring r ↔ o.length = r := by
  rw [ring_eq, List.mem_flatMap]
  constructor
  · rintro ⟨i, hi, ho⟩
    rw [List.mem_range] at hi
    exact ((mem_column (by omega)).1 ho).2
  · intro h
    have hx : o.x.natAbs ≤ r := by
      rw [← h, Pos.length]
      omega
    refine ⟨(o.x + r).toNat, List.mem_range.2 (by omega), ?_⟩
    exact (mem_column (by omega)).2 ⟨by omega, h⟩

theorem pairwise_ring (r : Nat) : (ring r).Pairwise Earlier := by
  rw [ring_eq]
  refine List.pairwise_flatMap.2 ⟨fun i _ => pairwise_column r _, ?_⟩
  refine List.Pairwise.imp_of_mem (fun {i j} hi hj hij p hp q hq => ?_) List.pairwise_lt_range
  rw [List.mem_range] at hi hj
  rw [mem_column (by omega)] at hp hq
  exact Or.inr ⟨hp.2.trans hq.2.symm, Or.inl (by omega)⟩

/-! ### One ring as a list -/

/-- A list holds the offsets of a length, each of them once and nothing else, by `x` and then
`y`. -/
structure Enumerates (r : Nat) (offsets : List Pos) : Prop where
  once : ∀ x y : Int, offsets.count ⟨x, y⟩ = if x.natAbs + y.natAbs = r then 1 else 0
  ascending : offsets.Pairwise fun p q => p.x < q.x ∨ p.x = q.x ∧ p.y < q.y

/-- Two such lists hold the same offsets equally often, and there is only one way to sort them. -/
theorem Enumerates.unique {r : Nat} {as bs : List Pos} (ha : Enumerates r as)
    (hb : Enumerates r bs) : as = bs := by
  have hperm : as.Perm bs :=
    List.perm_iff_count.2 fun p => (ha.once p.x p.y).trans (hb.once p.x p.y).symm
  refine List.Perm.eq_of_pairwise (fun p q _ _ hpq hqp => ?_) ha.ascending hb.ascending hperm
  omega

theorem Earlier.ne {p q : Pos} (h : Earlier p q) : p ≠ q := by
  rintro rfl
  unfold Earlier at h
  omega

theorem nodup_ring (r : Nat) : (ring r).Nodup := (pairwise_ring r).imp Earlier.ne

theorem count_ring (r : Nat) (o : Pos) : (ring r).count o = if o.length = r then 1 else 0 := by
  simp only [(nodup_ring r).count, mem_ring]

theorem ascending_ring (r : Nat) :
    (ring r).Pairwise fun p q => p.x < q.x ∨ p.x = q.x ∧ p.y < q.y := by
  refine (pairwise_ring r).imp_of_mem fun {p q} hp hq h => ?_
  -- Both lengths are that of the ring, so only the places tell the two apart.
  have hlen : p.length = q.length := (mem_ring.1 hp).trans (mem_ring.1 hq).symm
  exact (h.resolve_left (Nat.not_lt.2 (Nat.le_of_eq hlen.symm))).2

/-- A ring holds exactly the offsets of its length, each once and in ascending order, and is the
only list that does. -/
theorem enumerates_iff_eq_ring {r : Nat} {offsets : List Pos} :
    Enumerates r offsets ↔ offsets = ring r := by
  have hring : Enumerates r (ring r) := ⟨fun x y => count_ring r ⟨x, y⟩, ascending_ring r⟩
  constructor
  · intro h
    exact h.unique hring
  · rintro rfl
    exact hring

example : ring 1 = [⟨-1, 0⟩, ⟨0, -1⟩, ⟨0, 1⟩, ⟨1, 0⟩] := by decide

/-! ### Rings that follow each other -/

/-- Some rings that follow each other, from a length on. -/
def rings (length count : Nat) : List Pos := (List.range' length count).flatMap ring

theorem mem_rings {length count : Nat} {o : Pos} :
    o ∈ rings length count ↔ length ≤ o.length ∧ o.length < length + count := by
  simp [rings, mem_ring]

theorem pairwise_rings (length count : Nat) : (rings length count).Pairwise Earlier := by
  refine List.pairwise_flatMap.2 ⟨fun r _ => pairwise_ring r, ?_⟩
  refine List.Pairwise.imp (fun {r s} hrs p hp q hq => Or.inl ?_) List.pairwise_lt_range'
  rw [mem_ring.1 hp, mem_ring.1 hq]
  exact hrs

end Packing

end Pedigree
