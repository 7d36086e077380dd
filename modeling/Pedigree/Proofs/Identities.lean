import Mathlib.Data.List.Nodup
import Pedigree.Proofs.Naming

/-! The identities of a document that was read. Every mention stands at an offset of its own, so the
index forgets nothing, and each mention that names somebody ends up in the index or among the
references to nobody. -/
namespace Pedigree

namespace Markup

variable {source : String} {d : Document} {o : Occurrence} {family name birth : String}

theorem mem_occurrences_iff : o ∈ occurrences d ↔
    ∃ f ∈ d, f.name = o.family ∧ ∃ r ∈ f.relations, o ∈ r.occurrences f.name := by
  have key (f : Family) (r : Relation) (h : o ∈ r.occurrences f.name) : f.name = o.family := by
    obtain h | h := List.mem_append.mp h <;> obtain ⟨m, -, rfl⟩ := List.mem_map.mp h <;> rfl
  simp only [occurrences, List.mem_flatMap]
  refine exists_congr fun f => and_congr_right fun _ => ⟨?_, And.right⟩
  rintro ⟨r, hr, ho⟩
  exact ⟨key f r ho, r, hr, ho⟩

theorem map_mention_occurrences (d : Document) :
    (occurrences d).map (·.mention) = mentions d := by
  have hr (f : Family) (r : Relation) : (r.occurrences f.name).map (·.mention) = r.mentions := by
    simp [Relation.occurrences, Relation.mentions, Function.comp_def]
  simp only [occurrences, mentions, List.map_flatMap, hr]

theorem occurrences_ascending (h : read source = .ok d) :
    (occurrences d).Pairwise fun o p => o.start < p.start := by
  have ha := mentions_ascending h
  rwa [← map_mention_occurrences, List.pairwise_map] at ha

theorem eq_of_start_eq (h : read source = .ok d) {o p : Occurrence} (ho : o ∈ occurrences d)
    (hp : p ∈ occurrences d) (hs : o.start = p.start) : o = p := by
  have hn : ((occurrences d).map Occurrence.start).Nodup :=
    List.pairwise_map.mpr ((occurrences_ascending h).imp Nat.ne_of_lt)
  exact List.inj_on_of_nodup_map hn ho hp hs

/-! ### Whoever is denoted is a member -/

theorem Bears.exists_family (h : Bears d family name) : ∃ f ∈ d, f.name = family := by
  obtain ⟨o, ho, rfl, -⟩ := h
  obtain ⟨f, hf, hn, -⟩ := mem_occurrences_iff.mp ho
  exact ⟨f, hf, hn⟩

theorem Founds.exists_family (h : Founds d family name) : ∃ f ∈ d, f.name = family := by
  obtain ⟨-, o, ho, rfl, -⟩ := h
  obtain ⟨f, hf, hn, -⟩ := mem_occurrences_iff.mp ho
  exact ⟨f, hf, hn⟩

theorem Defined.exists_family (h : Defined d family name) : ∃ f ∈ d, f.name = family :=
  h.elim Bears.exists_family Founds.exists_family

/-- An adopted member is a child of the family of birth. -/
theorem Adopted.bears (h : Adopted d family name birth) : Bears d birth name := by
  obtain ⟨o, ho, rfl⟩ := h
  obtain ⟨hr, surname, hw, -⟩ := ho.holds
  exact ⟨o, ho.mem, rfl, hr, _, hw⟩

theorem Denotes.defined (ho : o ∈ occurrences d) (h : Denotes d o family name) :
    Defined d family name := by
  cases h with
  | child hr hw => exact .inl ⟨o, ho, rfl, hr, _, hw⟩
  | adopted _ _ ha => exact .inl ha.bears
  | founder hr hw hn => exact .inr ⟨hn, o, ho, rfl, hr, hw⟩
  | member _ _ _ hd => exact hd
  | moved _ _ _ _ ha => exact .inl ha.bears

end Markup

namespace Resolver

open Markup

variable {source : String} {d : Document} {o : Occurrence} {r : Resolver} {found : Findings}

/-- What an occurrence adds to the index. -/
def recorded? (r : Resolver) (o : Occurrence) : Option (Nat × Id) :=
  match r.resolve o.family o.mention o.role with
  | .ok (some member) => some (o.start, member)
  | _ => none

/-- What an occurrence adds to the references to nobody. -/
def missed? (r : Resolver) (o : Occurrence) : Option UnknownMember :=
  match r.resolve o.family o.mention o.role with
  | .error unknown => some unknown
  | _ => none

theorem recorded?_eq_some_iff {offset : Nat} {id : Id} : r.recorded? o = some (offset, id) ↔
    o.start = offset ∧ r.resolve o.family o.mention o.role = .ok (some id) := by
  unfold recorded?
  split
  · next hm => simp [hm]
  · next hn => simpa using fun _ => hn id

/-! ### Taking notes -/

theorem findings_eq_foldl (d : Document) : (ofDocument d).findings = (occurrences d).foldl
    (fun found o => (ofDocument d).note o.family o.role found o.mention) ⟨.empty, []⟩ := by
  simp only [occurrences, Relation.occurrences, List.foldl_flatMap, List.foldl_append,
    List.foldl_map]
  rfl

/-- A mention at a new offset leaves the notes on others alone. -/
theorem note_eq (hnew : ∀ e ∈ found.identities.entries, e.1 ≠ o.start) :
    r.note o.family o.role found o.mention =
      ⟨⟨(r.recorded? o).toList ++ found.identities.entries⟩,
        (r.missed? o).toList ++ found.warnings⟩ := by
  have hf : found.identities.entries.filter (·.1 != o.start) = found.identities.entries :=
    List.filter_eq_self.mpr fun e he => bne_iff_ne.mpr (hnew e he)
  unfold note recorded? missed?
  split
  · next hm => simp [hm]
  · next member hm =>
    simp only [hm, IdentityIndex.insert, Keyed.set]
    exact congrArg (fun entries => Findings.mk ⟨_ :: entries⟩ _) hf
  · next hm => simp [hm]

theorem foldl_note_eq {os : List Occurrence} (hos : os.Pairwise fun o p => o.start < p.start)
    (hnew : ∀ e ∈ found.identities.entries, ∀ o ∈ os, e.1 < o.start) :
    os.foldl (fun found o => r.note o.family o.role found o.mention) found =
      ⟨⟨(os.filterMap r.recorded?).reverse ++ found.identities.entries⟩,
        (os.filterMap r.missed?).reverse ++ found.warnings⟩ := by
  induction os generalizing found with
  | nil => rfl
  | cons o os ih =>
    rw [List.pairwise_cons] at hos
    have hne : ∀ e ∈ found.identities.entries, e.1 ≠ o.start := fun e he =>
      Nat.ne_of_lt (hnew e he o List.mem_cons_self)
    rw [List.foldl_cons, note_eq hne, ih hos.2]
    · cases hm : r.recorded? o <;> cases hu : r.missed? o <;>
        simp [hm, hu]
    · refine List.forall_mem_append.mpr ⟨fun e he p hp => ?_, fun e he p hp => ?_⟩
      · obtain ⟨hs, -⟩ := recorded?_eq_some_iff.mp (Option.mem_toList.mp he)
        exact hs ▸ hos.1 p hp
      · exact hnew e he p (List.mem_cons_of_mem o hp)

/-- The notes on a document that was read are those on its mentions, and none is lost. -/
theorem findings_eq (h : read source = .ok d) : (ofDocument d).findings =
    ⟨⟨((occurrences d).filterMap (ofDocument d).recorded?).reverse⟩,
      ((occurrences d).filterMap (ofDocument d).missed?).reverse⟩ := by
  rw [findings_eq_foldl, foldl_note_eq (occurrences_ascending h) (by simp [IdentityIndex.empty])]
  simp [IdentityIndex.empty]

/-- A mention that names somebody is recorded or missed. -/
theorem length_recorded_add_length_missed (os : List Occurrence) :
    (os.filterMap (ofDocument d).recorded?).length + (os.filterMap (ofDocument d).missed?).length =
      os.countP (·.mention.wording ≠ .unknown) := by
  induction os with
  | nil => rfl
  | cons o os ih =>
    have hw := resolve_eq_none_iff (d := d) (o := o)
    match hr : (ofDocument d).resolve o.family o.mention o.role with
    | .ok none =>
      have hw := hw.mp hr
      simpa [recorded?, missed?, hr, hw] using ih
    | .ok (some member) =>
      have hw : o.mention.wording ≠ .unknown := by simp [← hw, hr]
      simp only [List.filterMap_cons, recorded?, missed?, hr, List.length_cons, List.countP_cons, hw,
        ne_eq, not_false_eq_true, decide_true, if_true, ← ih]
      omega
    | .error unknown =>
      have hw : o.mention.wording ≠ .unknown := by simp [← hw, hr]
      simp only [List.filterMap_cons, recorded?, missed?, hr, List.length_cons, List.countP_cons, hw,
        ne_eq, not_false_eq_true, decide_true, if_true, ← ih]
      omega

theorem mem_entries_iff (h : read source = .ok d) {offset : Nat} {id : Id} :
    (offset, id) ∈ (ofDocument d).findings.identities.entries ↔ ∃ o ∈ occurrences d,
      o.start = offset ∧ ∃ family name, Denotes d o family name ∧ id = .member family name := by
  rw [findings_eq h, List.mem_reverse, List.mem_filterMap]
  simp only [recorded?_eq_some_iff, resolve_eq_some_iff]

/-- The index has one entry at an offset. -/
theorem lookup_entries_iff (h : read source = .ok d) {offset : Nat} {id : Id} :
    (ofDocument d).findings.identities.get? offset = some id ↔
      (offset, id) ∈ (ofDocument d).findings.identities.entries := by
  simp only [findings_eq h, IdentityIndex.get?, lookup_reverse_iff, List.mem_reverse]
  refine ⟨IsLast.mem, fun he => isLast_of_unique he rfl fun e hm hs => ?_⟩
  obtain ⟨o, ho, heo⟩ := List.mem_filterMap.mp he
  obtain ⟨p, hp, hep⟩ := List.mem_filterMap.mp hm
  have hop := (recorded?_eq_some_iff.mp heo).1.trans hs.symm
  obtain rfl := eq_of_start_eq h ho hp (hop.trans (recorded?_eq_some_iff.mp hep).1.symm)
  exact Option.some.inj (hep.symm.trans heo)

end Resolver

namespace Snapshot

open Markup

variable {source : String} {d : Document} {o : Occurrence}

/-- The member recorded for an occurrence. -/
def memberAt (d : Document) (o : Occurrence) : Option Id :=
  (ofDocument d).1.memberOf (Resolver.reference o.role o.mention)

theorem memberAt_eq_some_iff (h : read source = .ok d) (ho : o ∈ occurrences d) {id : Id} :
    memberAt d o = some id ↔ ∃ family name, Denotes d o family name ∧ id = .member family name := by
  refine ((Resolver.lookup_entries_iff h).trans (Resolver.mem_entries_iff h)).trans ⟨?_, ?_⟩
  · rintro ⟨p, hp, hs, hd⟩
    rwa [← eq_of_start_eq h hp ho hs]
  · exact fun hd => ⟨o, ho, rfl, hd⟩

/-- Every identity of a document that was read is that of a member of one of its families, and the
member is the one denoted at that offset. Every target with a name and every source of one word has
one and no question mark has any. With the references to nobody they are as many as the mentions that
name somebody. -/
theorem identities_sound (h : read source = .ok d) :
    (∀ offset id, (offset, id) ∈ (ofDocument d).1.identities.entries →
      ∃ o ∈ occurrences d, o.start = offset ∧ ∃ family name, Denotes d o family name ∧
        id = .member family name ∧ (∃ f ∈ d, f.name = family) ∧ Defined d family name) ∧
    (∀ o ∈ occurrences d,
      (∀ first second, o.mention.wording = .words first second → o.role = .target ∨ second = none →
        ∃ id, memberAt d o = some id) ∧
      (o.mention.wording = .unknown → memberAt d o = none)) ∧
    (ofDocument d).1.identities.size + (ofDocument d).2.length =
      (occurrences d).countP (·.mention.wording ≠ .unknown) := by
  refine ⟨fun offset id he => ?_, fun o ho => ⟨fun first second hw hr => ?_, fun hw => ?_⟩, ?_⟩
  · obtain ⟨o, ho, hs, family, name, hd, rfl⟩ := (Resolver.mem_entries_iff h).mp he
    have hdef := hd.defined ho
    exact ⟨o, ho, hs, family, name, hd, rfl, hdef.exists_family, hdef⟩
  · suffices hd : ∃ family name, Denotes d o family name by
      obtain ⟨family, name, hd⟩ := hd
      exact ⟨_, (memberAt_eq_some_iff h ho).mpr ⟨family, name, hd, rfl⟩⟩
    cases hrole : o.role with
    | target => exact ⟨_, _, .child hrole hw⟩
    | source =>
      obtain rfl : second = none := hr.resolve_left (by simp [hrole])
      by_cases ha : ∃ birth, Adopted d o.family first birth
      · obtain ⟨birth, ha⟩ := ha
        exact ⟨_, _, .adopted hrole hw ha⟩
      · exact ⟨_, _, .founder hrole hw (not_exists.mp ha)⟩
  · refine Option.eq_none_iff_forall_ne_some.mpr fun id hid => ?_
    obtain ⟨family, name, hd, -⟩ := (memberAt_eq_some_iff h ho).mp hid
    exact not_denotes_unknown hw hd
  · rw [← Resolver.length_recorded_add_length_missed (d := d)]
    simp [ofDocument, Resolver.findings_eq h, IdentityIndex.size]

/-- A daughter who moves, a question mark and a reference to nobody. -/
def movingDaughter : String := "Lee\nMay = Ann Ray\n\nRay\nAnn + ? = Tom\nMoss Eve = Sue\n"

theorem identities_sound_movingDaughter : ∃ d, read movingDaughter = .ok d ∧
    (occurrences d).countP (·.mention.wording ≠ .unknown) = 6 ∧
    (ofDocument d).1.identities.size + (ofDocument d).2.length = 6 := by
  have hd : ∃ d, read movingDaughter = .ok d ∧
      (occurrences d).countP (·.mention.wording ≠ .unknown) = 6 :=
    Checked.exists_of_toOption_map_decide (by decide +kernel)
  obtain ⟨d, hd, hc⟩ := hd
  exact ⟨d, hd, hc, (identities_sound hd).2.2.trans hc⟩

end Snapshot

end Pedigree
