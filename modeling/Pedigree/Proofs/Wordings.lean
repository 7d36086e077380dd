import Pedigree.Proofs.Identities
import Pedigree.Proofs.Reading

/-! What is read does not depend on where it stands. A line says the same at any other offset, so two
states of the reader that have read the same stay so over the same lines. And who is meant depends on
nothing but what is written. -/
namespace Pedigree.Markup

open Spelling

/-! ### Lines elsewhere -/

namespace Grammar

/-- Elsewhere the same text is something that says the same. -/
def Movable (Item : Nat → α → List Char → Prop) (f : α → β) : Prop :=
  ∀ o x cs, Item o x cs → ∀ o', ∃ y, f y = f x ∧ Item o' y cs

variable {Item : Nat → α → List Char → Prop} {f : α → β}

theorem movable_mentions : Movable Mentions (·.wording) := fun _ m cs h o =>
  ⟨⟨⟨o, o + bytes cs, by omega⟩, m.wording⟩, rfl, h.wording, rfl, rfl⟩

theorem movable_name : Movable (fun _ => Name) id := fun _ s _ h _ => ⟨s, rfl, h⟩

theorem Movable.spaced (h : Movable Item f) : Movable (Spaced Item) f := by
  rintro o x _ ⟨hb, hi, ha⟩ o'
  obtain ⟨y, hy, hi'⟩ := h _ _ _ hi _
  exact ⟨y, hy, .item hb hi' ha⟩

theorem Movable.separated (h : Movable Item f) (separator : Char) :
    Movable (Separated Item separator) (List.map f) := by
  intro o xs cs hs
  induction hs with
  | one hi =>
    intro o'
    obtain ⟨y, hy, hi'⟩ := h _ _ _ hi o'
    exact ⟨[y], by simp [hy], .one hi'⟩
  | more hi _ ih =>
    intro o'
    obtain ⟨y, hy, hi'⟩ := h _ _ _ hi o'
    obtain ⟨ys, hys, hs'⟩ := ih _
    exact ⟨y :: ys, by simp [hy, hys], .more hi' hs'⟩

theorem movable_people (separator : Char) : Movable (People separator) (List.map (·.wording)) :=
  movable_mentions.spaced.separated separator

/-- What a relation says in its line. -/
def wordings (x : List Mention × Bool × Option (List Mention)) :
    List Wording × Bool × Option (List Wording) :=
  (x.1.map (·.wording), x.2.1, x.2.2.map (List.map (·.wording)))

theorem movable_relationLine : Movable RelationLine wordings := by
  rintro o _ _ (⟨hs, hr⟩ | ⟨hs, ht⟩) o'
  · obtain ⟨ss, hss, hs'⟩ := movable_people '+' _ _ _ hs o'
    exact ⟨_, by simp [wordings, hss], .bare hs' hr⟩
  · obtain ⟨ss, hss, hs'⟩ := movable_people '+' _ _ _ hs o'
    obtain ⟨ts, hts, ht'⟩ := movable_people ',' _ _ _ ht _
    exact ⟨_, by simp [wordings, hss, hts], .full hs' ht'⟩

theorem movable_childLine : Movable ChildLine (List.map (·.wording)) := by
  rintro o _ _ (ht | ⟨hne, hd, ht⟩) o'
  · obtain ⟨ts, hts, ht'⟩ := movable_people ',' _ _ _ ht o'
    exact ⟨ts, hts, .plain ht'⟩
  · obtain ⟨ts, hts, ht'⟩ := movable_people ',' _ _ _ ht _
    exact ⟨ts, hts, .numbered hne hd ht'⟩

theorem movable_headerLine : Movable HeaderLine id := by
  rintro o _ _ (⟨hn, ha⟩ | ⟨hn, hg, hw, ha⟩) o'
  · exact ⟨_, rfl, .bare hn ha⟩
  · obtain ⟨ns, hns, hw'⟩ := movable_name.spaced.separated ',' _ _ _ hw _
    rw [List.map_id, List.map_id] at hns
    exact ⟨_, rfl, .aliased hn hg (hns ▸ hw') ha⟩

end Grammar

namespace Line

open Grammar

/-- Two results of a reader that say the same: two failures, or values that agree. -/
def Agree (f : α → β) (r s : Except Cursor α) : Prop :=
  (∃ d e, r = .error d ∧ s = .error e) ∨ ∃ x y, r = .ok x ∧ s = .ok y ∧ f x = f y

theorem agree_of_movable {reader : Cursor → Except Cursor α} {Item : Nat → α → List Char → Prop}
    {f : α → β} (hr : ∀ {c x}, reader c = .ok x ↔ Item c.offset x c.rest) (hm : Movable Item f)
    {c d : Cursor} (h : c.rest = d.rest) : Agree f (reader c) (reader d) := by
  cases hc : reader c with
  | ok x =>
    obtain ⟨y, hy, hd⟩ := hm _ _ _ (hr.mp hc) d.offset
    exact .inr ⟨x, y, rfl, hr.mpr (h ▸ hd), hy.symm⟩
  | error e =>
    cases hd : reader d with
    | error e' => exact .inl ⟨e, e', rfl, rfl⟩
    | ok y =>
      obtain ⟨x, -, hx⟩ := hm _ _ _ (hr.mp hd) c.offset
      rw [hr.mpr (h ▸ hx)] at hc
      cases hc

variable {c d : Cursor}

theorem agree_relation (h : c.rest = d.rest) : Agree wordings (relation c) (relation d) :=
  agree_of_movable relation_eq_ok_iff movable_relationLine h

theorem agree_children (h : c.rest = d.rest) :
    Agree (List.map (·.wording)) (children c) (children d) :=
  agree_of_movable children_eq_ok_iff movable_childLine h

theorem agree_header (h : c.rest = d.rest) : Agree id (header c) (header d) :=
  agree_of_movable header_eq_ok_iff movable_headerLine h

end Line

/-! ### States that have read the same -/

namespace Progress

/-- The same families, and something to report in both states or in none. -/
structure Alike (p q : Progress) : Prop where
  families : p.families.map (·.plain) = q.families.map (·.plain)
  collecting : p.collecting = q.collecting
  silent : p.diagnostics = [] ↔ q.diagnostics = []

namespace Alike

variable {p q : Progress} {c d : Cursor}

theorem refl (p : Progress) : p.Alike p := ⟨rfl, rfl, .rfl⟩

theorem readRelation (h : p.Alike q) (hc : c.rest = d.rest) (s t : Span) :
    (p.readRelation c s).Alike (q.readRelation d t) := by
  unfold Progress.readRelation
  cases hp : p.families with
  | nil =>
    have hq : q.families = [] := by simpa [hp] using h.families.symm
    simp only [hq]
    exact ⟨by simp [report], rfl, by simp [report]⟩
  | cons f fs =>
    have hf := h.families
    rw [hp, List.map_cons, eq_comm, List.map_eq_cons_iff] at hf
    obtain ⟨g, gs, hq, hg, hgs⟩ := hf
    simp only [hq]
    obtain ⟨e, e', he, he'⟩ | ⟨⟨ss, b, ts⟩, ⟨ss', b', ts'⟩, hx, hy, hxy⟩ := Line.agree_relation hc
    · simp only [he, he']
      exact ⟨hp ▸ hq ▸ h.families, rfl, by simp [report]⟩
    · simp only [Grammar.wordings, Prod.mk.injEq] at hxy
      obtain ⟨hss, rfl, hts⟩ := hxy
      have htargets : (ts.getD []).map (·.wording) = (ts'.getD []).map (·.wording) := by
        cases ts <;> cases ts' <;> simp_all
      have hnone : ts.isNone = ts'.isNone := by simpa using congrArg Option.isNone hts
      simp only [hx, hy]
      refine ⟨?_, hnone, h.silent⟩
      have hr : (⟨s, ss, ts.getD [], b⟩ : Relation).plain =
          (⟨t, ss', ts'.getD [], b⟩ : Relation).plain := by
        simp [Relation.plain, hss, htargets]
      rw [List.map_cons, List.map_cons, hgs]
      simp only [Family.plain, Plain.Family.mk.injEq] at hg
      simp only [Family.plain, List.map_cons, hg, hr]

theorem readChildren (h : p.Alike q) (hc : c.rest = d.rest) (s t : Span) :
    (p.readChildren c s).Alike (q.readChildren d t) := by
  unfold Progress.readChildren
  obtain ⟨e, e', he, he'⟩ | ⟨ts, us, ht, hu, htu⟩ := Line.agree_children hc
  · simp only [he, he']
    exact ⟨h.families, h.collecting, by simp [report]⟩
  · simp only [ht, hu]
    exact ⟨by rw [plain_adopt, plain_adopt, htu, h.families], h.collecting, h.silent⟩

theorem readHeader (h : p.Alike q) (hc : c.rest = d.rest) (s t : Span) :
    (p.readHeader c s).Alike (q.readHeader d t) := by
  unfold Progress.readHeader
  obtain ⟨e, e', he, he'⟩ | ⟨x, y, hx, hy, rfl⟩ := Line.agree_header hc
  · simp only [he, he']
    exact ⟨h.families, h.collecting, by simp [report]⟩
  · simp only [hx, hy]
    exact ⟨congrArg (Plain.Family.mk x.1 x.2 [] :: ·) h.families, h.collecting, h.silent⟩

theorem step (h : p.Alike q) (hc : c.rest = d.rest) : (p.step c).Alike (q.step d) := by
  simp only [Progress.step, hc, h.collecting]
  split
  · exact ⟨h.families, rfl, h.silent⟩
  · split
    · exact h.readRelation hc _ _
    · split
      · exact h.readChildren hc _ _
      · exact h.readHeader hc _ _

theorem foldl {cs ds : List Cursor} (h : p.Alike q) (hc : cs.map (·.rest) = ds.map (·.rest)) :
    (cs.foldl Progress.step p).Alike (ds.foldl Progress.step q) := by
  induction cs generalizing p q ds with
  | nil =>
    rw [List.map_nil, eq_comm, List.map_eq_nil_iff] at hc
    simpa [hc] using h
  | cons c cs ih =>
    rw [List.map_cons, eq_comm, List.map_eq_cons_iff] at hc
    obtain ⟨d, ds, rfl, hd, hds⟩ := hc
    rw [List.foldl_cons, List.foldl_cons]
    exact ih (h.step hd.symm) hds.symm

end Alike

end Progress

/-! ### Who is meant -/

/-- What is written somewhere, with the family and the role. -/
def Occurrence.said (o : Occurrence) : String × Role × Wording :=
  (o.family, o.role, o.mention.wording)

def Plain.Relation.said (family : String) (r : Plain.Relation) : List (String × Role × Wording) :=
  r.sources.map (family, .source, ·) ++ r.targets.map (family, .target, ·)

theorem map_said_occurrences (d : Document) : (occurrences d).map (·.said) =
    (d.map (·.plain)).flatMap fun f => f.relations.flatMap (·.said f.name) := by
  have hr (f : Family) (r : Relation) : (r.occurrences f.name).map (·.said) =
      r.plain.said f.name := by
    simp [Relation.occurrences, Relation.plain, Plain.Relation.said, Occurrence.said,
      Function.comp_def]
  simp [occurrences, List.map_flatMap, List.flatMap_map, hr, Family.plain]

section Same

variable {d e : Document} {o p : Occurrence} {family name surname birth : String}

theorem StandsFor.congr (h : d.map (·.plain) = e.map (·.plain)) (hs : StandsFor d surname family) :
    StandsFor e surname family := by
  obtain (@⟨f, hf⟩ | hn) := hs
  · have hf' : IsLast (fun f : Plain.Family => surname ∈ f.aliases) (d.map (·.plain)) f.plain :=
      isLast_map.mpr ⟨f, hf, rfl⟩
    rw [h] at hf'
    obtain ⟨g, hg, hgf⟩ := isLast_map.mp hf'
    have hname : g.name = f.name := congrArg Plain.Family.name hgf
    exact hname ▸ .alias hg
  · have hn' : ∀ f ∈ d.map (·.plain), family ∉ f.aliases := List.forall_mem_map.mpr hn
    rw [h] at hn'
    exact .own fun f hf => hn' _ (List.mem_map_of_mem hf)

variable (h : d.map (·.plain) = e.map (·.plain))
include h

theorem map_said_congr : (occurrences d).map (·.said) = (occurrences e).map (·.said) := by
  rw [map_said_occurrences, map_said_occurrences, h]

theorem standsFor_congr : StandsFor d surname family ↔ StandsFor e surname family :=
  ⟨.congr h, .congr h.symm⟩

theorem bears_congr : Bears d family name ↔ Bears e family name := by
  have key (d : Document) : Bears d family name ↔ ∃ t ∈ (occurrences d).map (·.said),
      t.1 = family ∧ t.2.1 = .target ∧ ∃ second, t.2.2 = .words name second := by
    simp [Bears, Occurrence.said]
  rw [key, key, map_said_congr h]

theorem adopted_congr : Adopted d family name birth ↔ Adopted e family name birth := by
  have key (d : Document) : Adopted d family name birth ↔ ∃ t, IsLast
      (fun t : String × Role × Wording => t.2.1 = .target ∧ ∃ surname,
        t.2.2 = .words name (some surname) ∧ StandsFor d surname family)
      ((occurrences d).map (·.said)) t ∧ t.1 = birth := by
    simp only [isLast_map]
    constructor
    · rintro ⟨o, ho, rfl⟩
      exact ⟨o.said, ⟨o, ho, rfl⟩, rfl⟩
    · rintro ⟨_, ⟨o, ho, rfl⟩, rfl⟩
      exact ⟨o, ho, rfl⟩
  rw [key, key, map_said_congr h]
  simp only [standsFor_congr h]

theorem founds_congr : Founds d family name ↔ Founds e family name := by
  have key (d : Document) : (∃ o ∈ occurrences d, o.family = family ∧ o.role = .source ∧
      o.mention.wording = .words name none) ↔ ∃ t ∈ (occurrences d).map (·.said),
        t.1 = family ∧ t.2.1 = .source ∧ t.2.2 = .words name none := by
    simp [Occurrence.said]
  simp only [Founds, adopted_congr h, key, map_said_congr h]

theorem defined_congr : Defined d family name ↔ Defined e family name :=
  or_congr (bears_congr h) (founds_congr h)

/-- The same words in the same place denote the same member. -/
theorem denotes_congr (hs : o.said = p.said) : Denotes d o family name ↔ Denotes e p family name := by
  obtain ⟨of, orole, ospan, ow⟩ := o
  obtain ⟨pf, prole, pspan, pw⟩ := p
  simp only [Occurrence.said, Prod.mk.injEq] at hs
  obtain ⟨rfl, rfl, rfl⟩ := hs
  match orole, ow with
  | _, .unknown => exact iff_of_false (not_denotes_unknown rfl) (not_denotes_unknown rfl)
  | .target, .words first second => rw [denotes_child_iff rfl rfl, denotes_child_iff rfl rfl]
  | .source, .words first none =>
    rw [denotes_short_iff rfl rfl, denotes_short_iff rfl rfl]
    simp only [adopted_congr h]
  | .source, .words surname (some first) =>
    rw [denotes_full_iff rfl rfl, denotes_full_iff rfl rfl]
    simp only [standsFor_congr h, defined_congr h, adopted_congr h]

end Same

end Pedigree.Markup

namespace Pedigree.Snapshot

open Markup

variable {d e : Document} {s t : String}

theorem memberAt_congr (hd : read s = .ok d) (he : read t = .ok e)
    (h : d.map (·.plain) = e.map (·.plain)) {o p : Occurrence} (ho : o ∈ occurrences d)
    (hp : p ∈ occurrences e) (hs : o.said = p.said) : memberAt d o = memberAt e p := by
  refine Option.ext fun id => ?_
  rw [memberAt_eq_some_iff hd ho, memberAt_eq_some_iff he hp]
  simp only [denotes_congr h hs]

/-- Texts that say the same have the same members in the same places. -/
theorem map_memberAt_congr (hd : read s = .ok d) (he : read t = .ok e)
    (h : d.map (·.plain) = e.map (·.plain)) :
    (occurrences d).map (fun o => (o.said, memberAt d o)) =
      (occurrences e).map fun o => (o.said, memberAt e o) :=
  map_congr_of_map_eq (map_said_congr h) fun _ ho _ hp hs =>
    Prod.ext hs (memberAt_congr hd he h ho hp hs)

end Pedigree.Snapshot
