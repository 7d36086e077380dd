import Pedigree.Identity.Resolver
import Pedigree.Proofs.Chronicle
import Pedigree.Proofs.Faultless

/-! Persons that stand for one member. Whoever opens a union is looked up, but every partner and
every child is a new person. So a member has two persons only where a partner or a child is written
whose member was named before. -/
namespace Pedigree

open Checked

namespace Snapshot

variable (memberOf : Reference → Option Id)

/-- The relations of a family that become unions. -/
def Family.kin (f : Family) : List Relation :=
  f.relations.filter fun r => r.isUnion && !r.sources.isEmpty

/-- The member of whoever opens the union. -/
def Relation.openedBy (r : Relation) : Option Id := r.sources.head?.bind memberOf

/-- The members of the partners and of the children. -/
def Relation.joinedBy (r : Relation) : List Id := (r.sources.tail ++ r.targets).filterMap memberOf

/-- The members that a relation names, in order, and whether each of them opens the union. -/
def Relation.named (r : Relation) : List (Bool × Id) :=
  (r.openedBy memberOf).toList.map (true, ·) ++ (r.joinedBy memberOf).map (false, ·)

/-- No partner and no child is of a member that was named before. -/
def Family.NamesOnce (f : Family) : Prop :=
  (f.kin.flatMap (·.named memberOf)).Pairwise fun a b => a.2 = b.2 → b.1

instance (f : Family) : Decidable (f.NamesOnce memberOf) :=
  inferInstanceAs (Decidable (List.Pairwise _ _))

/-- One more relation names no member again if its partners and children are new members. -/
theorem pairwise_append_named_iff {names : List (Bool × Id)} (r : Relation) :
    (names ++ r.named memberOf).Pairwise (fun a b => a.2 = b.2 → b.1) ↔
      names.Pairwise (fun a b => a.2 = b.2 → b.1) ∧ (r.joinedBy memberOf).Nodup ∧
        (∀ m ∈ r.openedBy memberOf, m ∉ r.joinedBy memberOf) ∧
          ∀ m ∈ names.map (·.2), m ∉ r.joinedBy memberOf := by
  have hjoined : ((r.joinedBy memberOf).map (Prod.mk false)).Pairwise
      (fun a b => a.2 = b.2 → b.1) ↔ (r.joinedBy memberOf).Nodup := by
    rw [List.pairwise_map]
    simp [List.Nodup]
  have hopener : ((r.openedBy memberOf).toList.map (Prod.mk true)).Pairwise
      (fun a b => a.2 = b.2 → b.1) := by
    cases r.openedBy memberOf <;> simp
  rw [Relation.named, List.pairwise_append, List.pairwise_append, hjoined, and_iff_right hopener,
    and_assoc]
  refine and_congr_right fun _ => and_congr_right fun _ => and_congr ?_ ?_
  · simp only [List.forall_mem_map, Option.mem_toList, Bool.false_eq_true, imp_false]
    exact forall₂_congr fun m _ => ⟨fun h hm => h m hm rfl, fun h n hn he => h (he ▸ hn)⟩
  · simp only [List.forall_mem_append, List.forall_mem_map, implies_true, true_and,
      Bool.false_eq_true, imp_false]
    exact forall₂_congr fun a _ => ⟨fun h hm => h a.2 hm rfl, fun h n hn he => h (he ▸ hn)⟩

end Snapshot

namespace Kinship

variable {memberOf : Snapshot.Reference → Option Id} {k : Kinship} {log : List Entry} {e : Entry}

instance (k : Kinship) (m : Id) (i : Nat) : Decidable (k.StandsFor m i) :=
  decidable_of_iff _ bind_member_eq_some_iff

/-- The member of a person, if it stands for any. -/
def memberAt? (k : Kinship) (i : Nat) : Option Id := k.persons[i]?.bind (·.member)

theorem memberAt?_eq_some_iff {m : Id} {i : Nat} : k.memberAt? i = some m ↔ k.StandsFor m i :=
  bind_member_eq_some_iff

theorem memberAt?_eq_of_who? {i : Nat} {label : String} {member : Option Id}
    (h : k.who? i = some (label, member)) : k.memberAt? i = member := by
  obtain ⟨p, hp, he⟩ := Option.map_eq_some_iff.mp h
  cases he
  simp [memberAt?, hp]

theorem map_memberAt? {is : List Nat} {rs : List Snapshot.Reference}
    (h : is.map k.who? = rs.map fun r => some (r.label, memberOf r)) :
    is.filterMap k.memberAt? = rs.filterMap memberOf := by
  induction is generalizing rs with
  | nil =>
    obtain rfl := List.map_eq_nil_iff.mp h.symm
    rfl
  | cons i is ih =>
    cases rs with
    | nil => cases h
    | cons r rs =>
      obtain ⟨hi, his⟩ := List.cons_eq_cons.mp h
      rw [List.filterMap_cons, List.filterMap_cons, memberAt?_eq_of_who? hi, ih his]

theorem Entry.joinedBy_relation (e : Entry) :
    e.relation.joinedBy memberOf = (e.others ++ e.targets).filterMap memberOf := rfl

/-- The members that come with an entry. -/
theorem Entry.Tells.members {known : List Nat} (h : e.Tells memberOf k known) :
    e.registered.filterMap k.memberAt? =
      (if e.founding then (memberOf e.first).toList else []) ++ e.relation.joinedBy memberOf := by
  rw [Entry.registered, List.filterMap_append, List.filterMap_append, map_memberAt? h.partners,
    map_memberAt? h.children, e.joinedBy_relation, List.filterMap_append, List.append_assoc]
  congr 1
  cases hf : e.founding with
  | false => rfl
  | true =>
    obtain ⟨-, ho⟩ := h.founded hf
    cases hm : memberOf e.first <;> simp [memberAt?_eq_of_who? ho, hm]

/-- Whoever opens a union is of the member of its first source. -/
theorem Entry.Tells.memberAt?_opener {known : List Nat} (h : e.Tells memberOf k known) :
    k.memberAt? e.opener = memberOf e.first := by
  cases hf : e.founding with
  | true => exact memberAt?_eq_of_who? (h.founded hf).2
  | false =>
    obtain ⟨m, hm, hlast⟩ := h.reused hf
    rw [hm, memberAt?_eq_some_iff]
    exact hlast.holds

/-- An opener that is new is of a member that is not known, any other of one that is. -/
theorem nodup_arrivals_iff {known joined : List Id} {opener : Option Id} {isNew : Bool}
    (hreused : isNew = false → ∀ m ∈ opener, m ∈ known)
    (hnew : isNew = true → ∀ m ∈ opener, m ∉ known) :
    (known ++ ((if isNew then opener.toList else []) ++ joined)).Nodup ↔
      known.Nodup ∧ joined.Nodup ∧ (∀ m ∈ opener, m ∉ joined) ∧ ∀ m ∈ known, m ∉ joined := by
  have hpair : (known ++ joined).Nodup ↔
      known.Nodup ∧ joined.Nodup ∧ ∀ m ∈ known, m ∉ joined := List.nodup_append'
  cases isNew with
  | false =>
    have hknown := hreused rfl
    rw [if_neg Bool.false_ne_true, List.nil_append, hpair]
    exact and_congr_right fun _ => and_congr_right fun _ =>
      (and_iff_right_of_imp fun h m hm => h m (hknown m hm)).symm
  | true =>
    cases opener with
    | none => simp [hpair]
    | some m =>
      have hm := hnew rfl m rfl
      rw [if_pos rfl, Option.toList_some, List.singleton_append, List.nodup_middle,
        List.nodup_cons, hpair]
      simp [hm]
      tauto

/-- What is known after some entries of a log: the members of the persons registered by then are
those that were named, and no two of these persons are of one member exactly if no partner and no
child was of a member that was named before. -/
structure Kept (memberOf : Snapshot.Reference → Option Id) (k : Kinship) (log : List Entry) :
    Prop where
  members : ∀ m, m ∈ (log.flatMap (·.registered)).filterMap k.memberAt? ↔
    m ∈ (log.flatMap (·.relation.named memberOf)).map (·.2)
  once : ((log.flatMap (·.registered)).filterMap k.memberAt?).Nodup ↔
    (log.flatMap (·.relation.named memberOf)).Pairwise fun a b => a.2 = b.2 → b.1

theorem Kept.append (h : Kept memberOf k log)
    (ht : e.Tells memberOf k (log.flatMap (·.registered))) : Kept memberOf k (log ++ [e]) := by
  have hreused : e.founding = false → ∀ m ∈ memberOf e.first,
      m ∈ (log.flatMap (·.registered)).filterMap k.memberAt? := by
    intro hf m hm
    obtain ⟨n, hn, hlast⟩ := ht.reused hf
    obtain rfl : n = m := Option.some.inj (hn.symm.trans hm)
    exact List.mem_filterMap.mpr ⟨e.opener, hlast.mem, memberAt?_eq_some_iff.mpr hlast.holds⟩
  have hfounded : e.founding = true → ∀ m ∈ memberOf e.first,
      m ∉ (log.flatMap (·.registered)).filterMap k.memberAt? := by
    intro hf m hm hmem
    obtain ⟨i, hi, hs⟩ := List.mem_filterMap.mp hmem
    exact (ht.founded hf).1 m hm i hi (memberAt?_eq_some_iff.mp hs)
  have hopener : e.relation.openedBy memberOf = memberOf e.first := rfl
  have hnames : (e.relation.named memberOf).map (·.2) =
      (memberOf e.first).toList ++ e.relation.joinedBy memberOf := by
    simp [Snapshot.Relation.named, hopener, Function.comp_def]
  constructor
  · intro m
    rw [List.flatMap_append, List.flatMap_append, List.flatMap_singleton, List.flatMap_singleton,
      List.filterMap_append, List.map_append, List.mem_append, List.mem_append, ht.members, hnames,
      ← h.members, List.mem_append, List.mem_append, Option.mem_toList]
    cases hf : e.founding with
    | true => simp
    | false =>
      have hopens := hreused hf m
      simp only [Bool.false_eq_true, if_false, List.not_mem_nil, false_or]
      tauto
  · rw [List.flatMap_append, List.flatMap_append, List.flatMap_singleton, List.flatMap_singleton,
      List.filterMap_append, Snapshot.pairwise_append_named_iff, ← h.once, ht.members, hopener,
      nodup_arrivals_iff hreused hfounded]
    simp only [h.members]

theorem Logged.kept (h : k.Logged memberOf log) : Kept memberOf k log := by
  have hpart (before : List Entry) : ∀ after, log = before ++ after → Kept memberOf k before := by
    induction before using List.reverseRecOn with
    | nil => exact fun _ _ => ⟨by simp, by simp⟩
    | append_singleton before e ih =>
      intro after hl
      rw [List.append_assoc, List.singleton_append] at hl
      exact (ih _ hl).append (h.tells before e after hl)
  exact hpart log [] (List.append_nil log).symm

/-- No two persons are of one member. -/
def Single (k : Kinship) : Prop := ∀ m i j, k.StandsFor m i → k.StandsFor m j → i = j

theorem StandsFor.lt_size {m : Id} {i : Nat} (h : k.StandsFor m i) : i < k.size := by
  obtain ⟨label, h⟩ := h
  obtain ⟨p, hp, -⟩ := Option.map_eq_some_iff.mp h
  exact (Array.getElem?_eq_some_iff.mp hp).1

theorem single_iff_nodup : k.Single ↔ ((List.range k.size).filterMap k.memberAt?).Nodup := by
  rw [List.Nodup, List.pairwise_filterMap, List.pairwise_iff_getElem]
  simp only [List.length_range, List.getElem_range, memberAt?_eq_some_iff]
  constructor
  · intro h i j _ _ hij m hm n hn hmn
    have := h m i j hm (hmn ▸ hn)
    omega
  · intro h m i j hi hj
    obtain hij | hij | hij := Nat.lt_trichotomy i j
    · exact absurd rfl (h i j hi.lt_size hj.lt_size hij m hi m hj)
    · exact hij
    · exact absurd rfl (h j i hj.lt_size hi.lt_size hij m hj m hi)

/-- A new root is of a member that nobody before it is of. -/
theorem Logged.not_standsFor_of_root (h : k.Logged memberOf log) {r i : Nat} (hr : r ∈ k.roots)
    (hi : i < r) {m : Id} (hm : k.StandsFor m r) : ¬k.StandsFor m i := by
  rw [h.roots] at hr
  obtain ⟨e, he, rfl⟩ := List.mem_map.mp hr
  obtain ⟨he, hf⟩ := List.mem_filter.mp he
  obtain ⟨before, after, hl⟩ := List.append_of_mem he
  have ht := h.tells before e after hl
  obtain ⟨hnew, ho⟩ := ht.founded hf
  have hfirst : memberOf e.first = some m :=
    (memberAt?_eq_of_who? ho).symm.trans (memberAt?_eq_some_iff.mpr hm)
  -- Numbers are given in order, so everyone before the new root was registered before its entry.
  have hreg := h.registered
  rw [hl, List.flatMap_append, List.flatMap_cons, Entry.registered, if_pos hf, List.append_assoc,
    List.append_assoc, List.singleton_append] at hreg
  have hsorted := hreg ▸ List.pairwise_lt_range (n := k.size)
  have hmem : i ∈ List.range k.size := List.mem_range.mpr (hi.trans hm.lt_size)
  rw [← hreg, List.mem_append, List.mem_cons] at hmem
  obtain hbefore | rfl | hafter := hmem
  · exact hnew m hfirst i hbefore
  · exact absurd hi (Nat.lt_irrefl _)
  · have hlt := (List.pairwise_cons.mp (List.pairwise_append.mp hsorted).2.1).1 i hafter
    exact absurd hi hlt.not_gt

/-- Everyone but the roots is a partner or a child. -/
theorem exists_above (hk : k.Forest) {j : Nat} (hj : j < k.size) (hr : j ∉ k.roots) :
    ∃ i, k.Above i j := by
  have hmem : j ∈ k.places := List.count_pos_iff.mp (by rw [hk.once j hj]; exact Nat.one_pos)
  rw [places, List.mem_append, or_iff_right hr] at hmem
  obtain ⟨p, hp, hb⟩ := List.mem_flatMap.mp hmem
  obtain ⟨i, hi⟩ := List.mem_iff_getElem?.mp hp
  exact ⟨i, p, by simpa using hi, hb⟩

/-- Who the partners and the children of a union are. -/
def company (k : Kinship) (u : Union) : List (Option (String × Option Id)) ×
    List (Option (String × Option Id)) :=
  (u.partners.map k.who?, u.children.map k.who?)

end Kinship

/-- How a relation writes partners and children. -/
def Snapshot.Relation.written (memberOf : Reference → Option Id) (r : Relation) :
    List (Option (String × Option Id)) × List (Option (String × Option Id)) :=
  (r.sources.tail.map fun x => some (x.label, memberOf x),
    r.targets.map fun x => some (x.label, memberOf x))

namespace Kinship

variable {memberOf : Snapshot.Reference → Option Id} {k : Kinship} {log : List Entry} {e : Entry}

/-- Where nobody is there twice, everyone opens the unions of the relations that its member opens. -/
theorem Logged.company_unions (h : k.Logged memberOf log) (hs : k.Single) {m : Id} {i : Nat}
    {p : Person} (hp : k.persons[i]? = some p) (hm : p.member = some m) :
    p.unions.map k.company = ((log.map (·.relation)).filter
      (·.openedBy memberOf == some m)).map (·.written memberOf) := by
  have hi : k.StandsFor m i := by
    rw [← memberAt?_eq_some_iff]
    simp [memberAt?, hp, hm]
  have hopens : ∀ e ∈ log, (e.opener == i) = (e.relation.openedBy memberOf == some m) := by
    intro e he
    obtain ⟨before, after, hl⟩ := List.append_of_mem he
    have ho : k.memberAt? e.opener = e.relation.openedBy memberOf :=
      (h.tells before e after hl).memberAt?_opener
    rw [Bool.eq_iff_iff, beq_iff_eq, beq_iff_eq, ← ho, memberAt?_eq_some_iff]
    exact ⟨fun he => he ▸ hi, fun ho => hs m _ _ ho hi⟩
  rw [h.unions i p hp, List.map_map, List.filter_map, List.map_map, List.filter_congr hopens]
  apply List.map_congr_left
  intro e he
  obtain ⟨before, after, hl⟩ := List.append_of_mem (List.mem_of_mem_filter he)
  have ht := h.tells before e after hl
  exact Prod.ext ht.partners ht.children

end Kinship

/-- A member has a second person only as a partner or a child, and only where one is written after
the member was named. Otherwise everyone is there once and opens the unions of all relations whose
first source is of its member, in their order. -/
theorem Snapshot.members_repeat_iff (s : Snapshot) :
    List.Forall₂ (fun (f : Family) (k : Kinship) =>
      (∀ m i j, i < j → k.StandsFor m i → k.StandsFor m j → ∃ h, k.Above h j) ∧
      ((∀ m i j, k.StandsFor m i → k.StandsFor m j → i = j) ↔ f.NamesOnce s.memberOf) ∧
      (f.NamesOnce s.memberOf → ∀ m (i : Nat) (p : Kinship.Person), k.persons[i]? = some p →
        p.member = some m → p.unions.map k.company =
          (f.kin.filter (·.openedBy s.memberOf == some m)).map (·.written s.memberOf)))
    s.families s.kinships := by
  rw [Snapshot.kinships, List.forall₂_map_right_iff, List.forall₂_same]
  intro f _
  obtain ⟨log, hlog, hrel⟩ := @Kinship.exists_logged_ofFamily s.memberOf f
  have hforest : (Kinship.ofFamily s.memberOf f).Forest := (Kinship.growing_ofFamily f).forest
  have hnamed : log.flatMap (·.relation.named s.memberOf) = f.kin.flatMap (·.named s.memberOf) := by
    rw [Family.kin, ← hrel, List.flatMap_map]
  have hsingle : (Kinship.ofFamily s.memberOf f).Single ↔ f.NamesOnce s.memberOf := by
    rw [Kinship.single_iff_nodup, ← hlog.registered, hlog.kept.once, hnamed, Family.NamesOnce]
  refine ⟨?_, hsingle, ?_⟩
  · intro m i j hij hi hj
    have hroot : j ∉ (Kinship.ofFamily s.memberOf f).roots := fun hr =>
      hlog.not_standsFor_of_root hr hij hj hi
    exact Kinship.exists_above hforest hj.lt_size hroot
  · intro hn m i p hp hm
    rw [hlog.company_unions (hsingle.mpr hn) hp hm, hrel]
    rfl

/-- A son who is written again as a partner. -/
def sonAsPartner : String := "Smith\nJohn = Bob\nMary + Bob = Tom\n"

theorem Snapshot.member_repeats_sonAsPartner : ∃ s warnings,
    parse sonAsPartner = .ok (s, warnings) ∧
      ∃ k ∈ s.kinships, ∃ m i j, i ≠ j ∧ k.StandsFor m i ∧ k.StandsFor m j := by
  have h : ∃ r, parse sonAsPartner = .ok r ∧ ∃ k ∈ r.1.kinships,
      k.StandsFor (.member "Smith" "Bob") 1 ∧ k.StandsFor (.member "Smith" "Bob") 3 :=
    exists_of_toOption_map_decide (by decide +kernel)
  obtain ⟨⟨s, warnings⟩, hs, k, hk, h₁, h₃⟩ := h
  exact ⟨s, warnings, hs, k, hk, _, 1, 3, by decide, h₁, h₃⟩

end Pedigree
