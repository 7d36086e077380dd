import Mathlib.Data.List.Chain
import Mathlib.Data.List.Forall2
import Mathlib.Order.Bounds.Basic

/-! Lists in order, lists side by side, the last element with a property, and the place from which an
element of a filtered or numbered list comes. -/
namespace Pedigree

theorem rel_of_mem {R : α → α → Prop} {l : List α} (h : l.Pairwise R) {a b : α} (ha : a ∈ l)
    (hb : b ∈ l) : a = b ∨ R a b ∨ R b a := by
  induction l with
  | nil => cases ha
  | cons x xs ih =>
    obtain ⟨hx, hxs⟩ := List.pairwise_cons.1 h
    obtain rfl | ha' := List.mem_cons.1 ha
    · obtain rfl | hb' := List.mem_cons.1 hb
      · exact Or.inl rfl
      · exact Or.inr (Or.inl (hx b hb'))
    · obtain rfl | hb' := List.mem_cons.1 hb
      · exact Or.inr (Or.inr (hx a ha'))
      · exact ih hxs ha' hb'

theorem eq_last_or_rel {R : α → α → Prop} {l : List α} (h : l.Pairwise R) (hne : l ≠ []) :
    ∀ x ∈ l, x = l.getLast hne ∨ R x (l.getLast hne) := by
  intro x hx
  have hs := List.dropLast_concat_getLast hne
  rw [← hs] at h hx
  obtain hx | hx := List.mem_append.1 hx
  · exact Or.inr ((List.pairwise_append.1 h).2.2 x hx _ List.mem_cons_self)
  · exact Or.inl (List.mem_singleton.1 hx)

theorem getD_min?_le {xs : List Int} {x : Int} (h : x ∈ xs) : xs.min?.getD 0 ≤ x := by
  obtain ⟨m, hm⟩ := Option.isSome_iff_exists.mp (List.isSome_min?_of_mem h)
  rw [hm]
  exact (List.min?_eq_some_iff.mp hm).2 x h

theorem le_getD_max? {xs : List Int} {x : Int} (h : x ∈ xs) : x ≤ xs.max?.getD 0 := by
  obtain ⟨m, hm⟩ := Option.isSome_iff_exists.mp (List.isSome_max?_of_mem h)
  rw [hm]
  exact (List.max?_eq_some_iff.mp hm).2 x h

theorem getD_min?_le_getD_max? {xs : List α} {f g : α → Int} (h : ∀ x ∈ xs, f x ≤ g x) :
    (xs.map f).min?.getD 0 ≤ (xs.map g).max?.getD 0 := by
  cases xs with
  | nil => exact Int.le_refl 0
  | cons x xs =>
    have hx : x ∈ x :: xs := List.mem_cons_self
    calc ((x :: xs).map f).min?.getD 0 ≤ f x := getD_min?_le (List.mem_map_of_mem hx)
      _ ≤ g x := h x hx
      _ ≤ ((x :: xs).map g).max?.getD 0 := le_getD_max? (List.mem_map_of_mem hx)

theorem isLeast_getD_min? {xs : List α} (hne : xs ≠ []) (f : α → Int) :
    IsLeast (f '' {x | x ∈ xs}) ((xs.map f).min?.getD 0) := by
  have hmap : xs.map f ≠ [] := mt List.map_eq_nil_iff.1 hne
  obtain ⟨m, hm⟩ := Option.isSome_iff_exists.1 (List.isSome_min?_iff.2 hmap)
  constructor
  · obtain ⟨x, hx, he⟩ := List.mem_map.1 (List.min?_mem hm)
    exact ⟨x, hx, by rw [he, hm, Option.getD_some]⟩
  · rintro _ ⟨x, hx, rfl⟩
    exact getD_min?_le (List.mem_map_of_mem hx)

theorem isGreatest_getD_max? {xs : List α} (hne : xs ≠ []) (f : α → Int) :
    IsGreatest (f '' {x | x ∈ xs}) ((xs.map f).max?.getD 0) := by
  have hmap : xs.map f ≠ [] := mt List.map_eq_nil_iff.1 hne
  obtain ⟨m, hm⟩ := Option.isSome_iff_exists.1 (List.isSome_max?_iff.2 hmap)
  constructor
  · obtain ⟨x, hx, he⟩ := List.mem_map.1 (List.max?_mem hm)
    exact ⟨x, hx, by rw [he, hm, Option.getD_some]⟩
  · rintro _ ⟨x, hx, rfl⟩
    exact le_getD_max? (List.mem_map_of_mem hx)

/-- In an order that is transitive and antisymmetric two lists have the same extreme element if each
element of one of them is outdone by one of the other. -/
theorem extreme_congr {R : α → α → Prop} (htrans : ∀ a b c, R a b → R b c → R a c)
    (hanti : ∀ a b, R a b → R b a → a = b) {xs ys : List α} (hx : ∀ x ∈ xs, ∃ y ∈ ys, R y x)
    (hy : ∀ y ∈ ys, ∃ x ∈ xs, R x y) (a : α) :
    (a ∈ xs ∧ ∀ x ∈ xs, R a x) ↔ a ∈ ys ∧ ∀ y ∈ ys, R a y := by
  have key {xs ys : List α} (hx : ∀ x ∈ xs, ∃ y ∈ ys, R y x) (hy : ∀ y ∈ ys, ∃ x ∈ xs, R x y)
      (ha : a ∈ xs ∧ ∀ x ∈ xs, R a x) : a ∈ ys ∧ ∀ y ∈ ys, R a y := by
    have hle : ∀ y ∈ ys, R a y := fun y hm => by
      obtain ⟨x, hxm, hxy⟩ := hy y hm
      exact htrans a x y (ha.2 x hxm) hxy
    obtain ⟨y, hm, hya⟩ := hx a ha.1
    obtain rfl := hanti a y (hle y hm) hya
    exact ⟨hm, hle⟩
  exact ⟨key hx hy, key hy hx⟩

theorem min?_congr {xs ys : List Int} (hx : ∀ x ∈ xs, ∃ y ∈ ys, y ≤ x)
    (hy : ∀ y ∈ ys, ∃ x ∈ xs, x ≤ y) : xs.min? = ys.min? := by
  refine Option.ext fun a => ?_
  rw [List.min?_eq_some_iff, List.min?_eq_some_iff]
  exact extreme_congr (R := fun a b => a ≤ b) (fun _ _ _ => Int.le_trans)
    (fun _ _ => Int.le_antisymm) hx hy a

theorem max?_congr {xs ys : List Int} (hx : ∀ x ∈ xs, ∃ y ∈ ys, x ≤ y)
    (hy : ∀ y ∈ ys, ∃ x ∈ xs, y ≤ x) : xs.max? = ys.max? := by
  refine Option.ext fun a => ?_
  rw [List.max?_eq_some_iff, List.max?_eq_some_iff]
  exact extreme_congr (R := fun a b => b ≤ a) (fun _ _ _ h h' => Int.le_trans h' h)
    (fun _ _ h h' => Int.le_antisymm h' h) hx hy a

/-- Between two neighbours of an ordered list there is nothing else. -/
theorem isChain_covers {R : α → α → Prop} {l : List α} (h : l.Pairwise R) :
    l.IsChain fun a b => R a b ∧ ∀ x ∈ l, x = a ∨ R x a ∨ x = b ∨ R b x := by
  induction l with
  | nil => exact List.isChain_nil
  | cons a l ih =>
    obtain ⟨ha, hl⟩ := List.pairwise_cons.1 h
    cases l with
    | nil => exact List.isChain_singleton a
    | cons b l =>
      obtain ⟨hb, -⟩ := List.pairwise_cons.1 hl
      refine List.isChain_cons_cons.2 ⟨⟨ha b List.mem_cons_self, fun x hx => ?_⟩, ?_⟩
      · obtain rfl | hx := List.mem_cons.1 hx
        · exact Or.inl rfl
        obtain rfl | hx := List.mem_cons.1 hx
        · exact Or.inr (Or.inr (Or.inl rfl))
        · exact Or.inr (Or.inr (Or.inr (hb x hx)))
      · refine (ih hl).imp_of_mem_imp fun c d hc _ hcd => ⟨hcd.1, fun x hx => ?_⟩
        obtain rfl | hx := List.mem_cons.1 hx
        · exact Or.inr (Or.inl (ha c hc))
        · exact hcd.2 x hx

/-- In a list in order every element but the first one has a neighbour before it, every one but the
last one has a neighbour after it. -/
theorem pairwise_of_isChain {R S : α → α → Prop} {P Q : α → Prop} {l : List α} (hs : l.Pairwise S)
    (h : l.IsChain R) (hP : ∀ a b, S a b → R a b → P a ∧ Q b) :
    l.Pairwise (fun a _ => P a) ∧ l.Pairwise fun _ b => Q b := by
  induction l with
  | nil => exact ⟨List.Pairwise.nil, List.Pairwise.nil⟩
  | cons a l ih =>
    obtain ⟨ha, hs⟩ := List.pairwise_cons.1 hs
    obtain ⟨hp, hq⟩ := ih hs h.of_cons
    cases l with
    | nil => exact ⟨List.pairwise_singleton _ _, List.pairwise_singleton _ _⟩
    | cons b l =>
      have hab := hP a b (ha b List.mem_cons_self) (List.isChain_cons_cons.1 h).1
      refine ⟨List.pairwise_cons.2 ⟨fun _ _ => hab.1, hp⟩, List.pairwise_cons.2 ⟨?_, hq⟩⟩
      intro c hc
      obtain rfl | hc := List.mem_cons.1 hc
      · exact hab.2
      · exact (List.pairwise_cons.1 hq).1 c hc

theorem isChain_and {R S : α → α → Prop} {l : List α} (h : l.IsChain R) (h' : l.IsChain S) :
    l.IsChain fun a b => R a b ∧ S a b := by
  rw [List.isChain_iff_forall_rel_of_append_cons_cons] at h h' ⊢
  intro a b pre post he
  exact ⟨h he, h' he⟩

theorem isChain_of_forall₂ {R : α → β → Prop} {S : α → α → Prop} {T : β → β → Prop}
    (h : ∀ a b, R a b → ∀ a' b', R a' b' → S a a' → T b b') {as : List α} {bs : List β}
    (hr : List.Forall₂ R as bs) (hs : as.IsChain S) : bs.IsChain T := by
  induction hr with
  | nil => exact List.isChain_nil
  | cons hab hr ih =>
    cases hr with
    | nil => exact List.isChain_singleton _
    | cons hab' hr =>
      obtain ⟨hS, hs⟩ := List.isChain_cons_cons.1 hs
      exact List.isChain_cons_cons.2 ⟨h _ _ hab _ _ hab' hS, ih hs⟩

theorem forall₂_trans {R : α → β → Prop} {S : β → γ → Prop} {T : α → γ → Prop}
    (h : ∀ a b c, R a b → S b c → T a c) {xs : List α} {ys : List β} {zs : List γ}
    (hr : List.Forall₂ R xs ys) (hs : List.Forall₂ S ys zs) : List.Forall₂ T xs zs := by
  induction hr generalizing zs with
  | nil =>
    cases hs
    exact .nil
  | cons hab _ ih =>
    cases hs with
    | cons hbc hs => exact .cons (h _ _ _ hab hbc) (ih hs)

theorem exists_mem_of_forall₂ {R : α → β → Prop} {xs : List α} {ys : List β}
    (h : List.Forall₂ R xs ys) {x : α} (hx : x ∈ xs) : ∃ y ∈ ys, R x y := by
  induction h with
  | nil => cases hx
  | cons hr _ ih =>
    obtain rfl | hx := List.mem_cons.1 hx
    · exact ⟨_, List.mem_cons_self, hr⟩
    · obtain ⟨y, hy, hr⟩ := ih hx
      exact ⟨y, List.mem_cons_of_mem _ hy, hr⟩

theorem flatMap_modify {l : List α} {i : Nat} (hi : i < l.length) {f : α → α} {g : α → List β}
    {added : List β} (hg : ∀ a, g (f a) = g a ++ added) :
    ((l.modify i f).flatMap g).Perm (l.flatMap g ++ added) := by
  rw [List.modify_eq_take_cons_drop hi]
  conv_rhs => rw [← List.take_append_drop i l, List.drop_eq_getElem_cons hi]
  simp only [List.flatMap_append, List.flatMap_cons, hg, List.append_assoc]
  exact (List.perm_append_comm.append_left _).append_left _

theorem flatMap_range (l : List α) (f : α → List β) :
    (List.range l.length).flatMap (fun i => (l[i]?.map f).getD []) = l.flatMap f := by
  induction l with
  | nil => rfl
  | cons a l ih =>
    rw [List.length_cons, List.range_succ_eq_map, List.flatMap_cons, List.flatMap_map,
      List.flatMap_cons, ← ih]
    rfl

/-- Where two lists agree, they agree in everything that depends on it. -/
theorem map_congr_of_map_eq {f : α → γ} {g : β → γ} {F : α → δ} {G : β → δ} {l : List α}
    {m : List β} (h : l.map f = m.map g) (hFG : ∀ a ∈ l, ∀ b ∈ m, f a = g b → F a = G b) :
    l.map F = m.map G := by
  induction l generalizing m with
  | nil =>
    rw [List.map_nil, eq_comm, List.map_eq_nil_iff] at h
    rw [h, List.map_nil, List.map_nil]
  | cons a l ih =>
    rw [List.map_cons, eq_comm, List.map_eq_cons_iff] at h
    obtain ⟨b, m, rfl, hb, hm⟩ := h
    rw [List.map_cons, List.map_cons, hFG a (by simp) b (by simp) hb.symm]
    exact congrArg _ (ih hm.symm fun x hx y hy => hFG x (by simp [hx]) y (by simp [hy]))

/-- The last element of a list with a property. -/
def IsLast (P : α → Prop) (l : List α) (a : α) : Prop :=
  ∃ before after, l = before ++ a :: after ∧ P a ∧ ∀ b ∈ after, ¬P b

section Last

variable {P : α → Prop} {l m : List α} {a b x : α}

theorem IsLast.mem (h : IsLast P l a) : a ∈ l := by
  obtain ⟨before, after, rfl, -⟩ := h
  simp

theorem IsLast.holds (h : IsLast P l a) : P a := by
  obtain ⟨-, -, -, ha, -⟩ := h
  exact ha

theorem isLast_congr {Q : α → Prop} (h : ∀ b ∈ l, P b ↔ Q b) : IsLast P l a ↔ IsLast Q l a := by
  have key {P Q : α → Prop} (h : ∀ b ∈ l, P b ↔ Q b) (hP : IsLast P l a) : IsLast Q l a := by
    have ha := (h a hP.mem).mp hP.holds
    obtain ⟨before, after, rfl, -, hn⟩ := hP
    refine ⟨before, after, rfl, ha, ?_⟩
    intro b hb hq
    exact hn b hb ((h b (by simp [hb])).mpr hq)
  exact ⟨key h, key fun b hb => (h b hb).symm⟩

theorem not_isLast_nil : ¬IsLast P [] a := fun h => List.not_mem_nil h.mem

theorem isLast_cons : IsLast P (x :: l) a ↔ IsLast P l a ∨ a = x ∧ P x ∧ ∀ b ∈ l, ¬P b := by
  constructor
  · rintro ⟨before, after, h, ha, hn⟩
    cases before with
    | nil =>
      cases h
      exact .inr ⟨rfl, ha, hn⟩
    | cons y before =>
      cases h
      exact .inl ⟨before, after, rfl, ha, hn⟩
  · rintro (⟨before, after, rfl, ha, hn⟩ | ⟨rfl, ha, hn⟩)
    · exact ⟨x :: before, after, rfl, ha, hn⟩
    · exact ⟨[], l, rfl, ha, hn⟩

theorem isLast_append :
    IsLast P (l ++ m) a ↔ IsLast P m a ∨ IsLast P l a ∧ ∀ b ∈ m, ¬P b := by
  induction l with
  | nil => simp [not_isLast_nil]
  | cons x l ih =>
    rw [List.cons_append, isLast_cons, isLast_cons, ih, List.forall_mem_append, or_and_right,
      or_assoc, and_assoc, and_assoc]

theorem exists_isLast_iff : (∃ a, IsLast P l a) ↔ ∃ a ∈ l, P a := by
  refine ⟨fun ⟨a, h⟩ => ⟨a, h.mem, h.holds⟩, fun h => ?_⟩
  induction l with
  | nil => simp at h
  | cons x l ih =>
    by_cases hl : ∃ a ∈ l, P a
    · obtain ⟨a, ha⟩ := ih hl
      exact ⟨a, isLast_cons.mpr (.inl ha)⟩
    · have hx : P x := by
        obtain ⟨a, ha, hp⟩ := h
        obtain rfl | ha := List.mem_cons.mp ha
        · exact hp
        · exact absurd ⟨a, ha, hp⟩ hl
      exact ⟨x, isLast_cons.mpr (.inr ⟨rfl, hx, fun b hb hp => hl ⟨b, hb, hp⟩⟩)⟩

theorem IsLast.unique (ha : IsLast P l a) (hb : IsLast P l b) : a = b := by
  induction l with
  | nil => exact absurd ha not_isLast_nil
  | cons x l ih =>
    rw [isLast_cons] at ha hb
    obtain ha | ⟨rfl, -, hn⟩ := ha
    · obtain hb | ⟨-, -, hn⟩ := hb
      · exact ih ha hb
      · exact absurd ha.holds (hn a ha.mem)
    · obtain hb | ⟨rfl, -, -⟩ := hb
      · exact absurd hb.holds (hn b hb.mem)
      · rfl

/-- Of the elements made by others the last one is made by the last one that makes any. -/
theorem isLast_flatMap {P : β → Prop} {g : α → List β} {b : β} :
    IsLast P (l.flatMap g) b ↔
      ∃ a, IsLast (fun a => ∃ b ∈ g a, P b) l a ∧ IsLast P (g a) b := by
  induction l with
  | nil => simp [not_isLast_nil]
  | cons x l ih =>
    have hnone : (∀ c ∈ l.flatMap g, ¬P c) ↔ ∀ a ∈ l, ¬∃ c ∈ g a, P c := by
      simp only [List.mem_flatMap, not_exists, not_and]
      exact ⟨fun h a ha c hc => h c ⟨a, ha, hc⟩, fun h c ⟨a, ha, hc⟩ => h a ha c hc⟩
    rw [List.flatMap_cons, isLast_append, ih, hnone]
    simp only [isLast_cons, or_and_right, exists_or]
    refine or_congr_right ⟨fun ⟨hb, hn⟩ => ?_, ?_⟩
    · exact ⟨x, ⟨rfl, ⟨b, hb.mem, hb.holds⟩, hn⟩, hb⟩
    · rintro ⟨a, ⟨rfl, -, hn⟩, hb⟩
      exact ⟨hb, hn⟩

theorem isLast_map {f : α → β} {P : β → Prop} {b : β} :
    IsLast P (l.map f) b ↔ ∃ a, IsLast (fun a => P (f a)) l a ∧ f a = b := by
  induction l with
  | nil => simp [not_isLast_nil]
  | cons x l ih =>
    rw [List.map_cons, isLast_cons, ih, List.forall_mem_map]
    simp only [isLast_cons, or_and_right, exists_or]
    refine or_congr_right ⟨?_, ?_⟩
    · rintro ⟨rfl, hx, hn⟩
      exact ⟨x, ⟨rfl, hx, hn⟩, rfl⟩
    · rintro ⟨a, ⟨rfl, hx, hn⟩, rfl⟩
      exact ⟨rfl, hx, hn⟩

theorem isLast_of_unique (ha : a ∈ l) (hp : P a) (hu : ∀ b ∈ l, P b → b = a) :
    IsLast P l a := by
  obtain ⟨b, hb⟩ := exists_isLast_iff.mpr ⟨a, ha, hp⟩
  exact hu b hb.mem hb.holds ▸ hb

theorem lookup_reverse_iff [BEq κ] [LawfulBEq κ] {entries : List (κ × β)} {k : κ} {v : β} :
    entries.reverse.lookup k = some v ↔ IsLast (fun e => e.1 = k) entries (k, v) := by
  rw [List.lookup_eq_some_iff]
  constructor
  · rintro ⟨after, before, h, hn⟩
    refine ⟨before.reverse, after.reverse, ?_, rfl, fun e he hk => ?_⟩
    · simpa using congrArg List.reverse h
    · simpa [hk] using hn e (List.mem_reverse.mp he)
  · rintro ⟨before, after, rfl, -, hn⟩
    refine ⟨after.reverse, before.reverse, by simp, fun e he => ?_⟩
    exact bne_iff_ne.mpr fun hk => hn e (List.mem_reverse.mp he) hk.symm

theorem find?_reverse_iff {p : α → Bool} :
    l.reverse.find? p = some a ↔ IsLast (fun x => p x) l a := by
  rw [List.find?_eq_some_iff_append]
  constructor
  · intro h
    obtain ⟨hp, after, before, h, hn⟩ := h
    refine ⟨before.reverse, after.reverse, ?_, hp, ?_⟩
    · simpa using congrArg List.reverse h
    · intro b hb
      simpa using hn b (List.mem_reverse.mp hb)
  · intro h
    obtain ⟨before, after, rfl, hp, hn⟩ := h
    refine ⟨hp, after.reverse, before.reverse, by simp, ?_⟩
    intro b hb
    simpa using hn b (List.mem_reverse.mp hb)

end Last

/-- The place in a list from which an element of a filtered one comes. -/
theorem exists_split_of_filterMap {f : α → Option β} {xs : List α} {before after : List β} {y : β}
    (h : xs.filterMap f = before ++ y :: after) : ∃ pre x post, xs = pre ++ x :: post ∧
      f x = some y ∧ pre.filterMap f = before ∧ post.filterMap f = after := by
  obtain ⟨pre, rest, rfl, rfl, hrest⟩ := List.filterMap_eq_append_iff.1 h
  obtain ⟨gap, x, post, rfl, hgap, hx, rfl⟩ := List.filterMap_eq_cons_iff.1 hrest
  refine ⟨pre ++ gap, x, post, (List.append_assoc ..).symm, hx, ?_, rfl⟩
  rw [List.filterMap_append, List.filterMap_eq_nil_iff.2 hgap, List.append_nil]

/-- The first number at which a numbered list has a value. -/
theorem first_of_findSome?_zipIdx {f : α × Nat → Option β} {xs : List α} {y : β}
    (h : xs.zipIdx.findSome? f = some y) : ∃ i a, xs[i]? = some a ∧ f (a, i) = some y ∧
      ∀ j < i, ∀ c, xs[j]? = some c → f (c, j) = none := by
  obtain ⟨pre, x, post, hs, hx, hpre⟩ := List.findSome?_eq_some_iff.1 h
  obtain ⟨as, bs, rfl, rfl, hb⟩ := List.zipIdx_eq_append_iff.1 hs
  obtain ⟨a, cs, rfl, rfl, -⟩ := List.zipIdx_eq_cons_iff.1 hb.symm
  rw [Nat.zero_add] at hx
  refine ⟨as.length, a, by simp, hx, fun j hj c hc => ?_⟩
  rw [List.getElem?_append_left hj] at hc
  exact hpre (c, j) (List.mk_mem_zipIdx_iff_getElem?.2 hc)

theorem lookup_flatMap [BEq β] (f : α → List (β × γ)) (xs : List α) (k : β) :
    (xs.flatMap f).lookup k = xs.findSome? fun x => (f x).lookup k := by
  induction xs with
  | nil => rfl
  | cons x xs ih =>
    rw [List.flatMap_cons, List.lookup_append, ih, List.findSome?_cons]
    cases (f x).lookup k <;> rfl

end Pedigree
