import Pedigree.Proofs.Identities

/-! Several names of one person. A child, a source of two words with the surname of its family of
birth and a source of one word there denote the same member, but for aliases and adoptions. -/
namespace Pedigree.Snapshot

open Markup Checked

variable {source : String} {d : Document} {o child short full : Occurrence}
  {family surname name birth : String} {second : Option String}

/-- A surname that no other family declares as an alias stands for its own family. -/
theorem standsFor_self (h : ∀ f ∈ d, surname ∈ f.aliases → f.name = surname) :
    StandsFor d surname surname := by
  by_cases ha : ∃ f ∈ d, surname ∈ f.aliases
  · obtain ⟨f, hf⟩ := exists_isLast_iff.mpr ha
    have hs := StandsFor.alias hf
    rwa [h f hf.mem hf.holds] at hs
  · exact .own fun f hf hs => ha ⟨f, hf, hs⟩

theorem standsFor_iff_eq (h : ∀ f ∈ d, surname ∉ f.aliases) :
    StandsFor d surname family ↔ family = surname := by
  constructor
  · rintro (hf | -)
    · exact absurd hf.holds (h _ hf.mem)
    · rfl
  · rintro rfl
    exact .own h

/-! ### What each way of writing is recorded as -/

theorem memberAt_child (h : read source = .ok d) (ho : o ∈ occurrences d) (hr : o.role = .target)
    (hw : o.mention.wording = .words name second) :
    memberAt d o = some (.member o.family name) :=
  (memberAt_eq_some_iff h ho).mpr ⟨_, _, .child hr hw, rfl⟩

theorem memberAt_short_iff (h : read source = .ok d) (ho : o ∈ occurrences d)
    (hr : o.role = .source) (hw : o.mention.wording = .words name none) :
    memberAt d o = some (.member birth name) ↔
      Adopted d o.family name birth ∨
        (∀ other, ¬Adopted d o.family name other) ∧ birth = o.family := by
  simp only [memberAt_eq_some_iff h ho, denotes_short_iff hr hw, and_assoc, exists_eq_left,
    Id.member_left_inj]
  simp

theorem memberAt_full_iff (h : read source = .ok d) (ho : o ∈ occurrences d)
    (hr : o.role = .source) (hw : o.mention.wording = .words surname (some name)) :
    memberAt d o = some (.member birth name) ↔
      ∃ family, StandsFor d surname family ∧
        (Defined d family name ∧ birth = family ∨
          ¬Defined d family name ∧ Adopted d family name birth) := by
  simp only [memberAt_eq_some_iff h ho, denotes_full_iff hr hw, and_assoc, exists_eq_left,
    Id.member_left_inj]
  simp

/-! ### A child under its full name -/

/-- A child is the member of its family with its given name. A source of two words with the name of
that family means the same member just when the name stands for the family itself, or else for one
that has nobody else under the given name and has adopted the child. -/
theorem memberAt_full_eq_child_iff (h : read source = .ok d) (hc : child ∈ occurrences d)
    (hcr : child.role = .target) (hcw : child.mention.wording = .words name second)
    (hf : full ∈ occurrences d) (hfr : full.role = .source)
    (hfw : full.mention.wording = .words child.family (some name)) :
    memberAt d child = some (.member child.family name) ∧
      (memberAt d full = memberAt d child ↔ ∃ family, StandsFor d child.family family ∧
        (family = child.family ∨ ¬Defined d family name ∧ Adopted d family name child.family)) ∧
      ((∀ f ∈ d, child.family ∈ f.aliases → f.name = child.family) →
        memberAt d full = memberAt d child) := by
  have hchild := memberAt_child h hc hcr hcw
  have hdef : Defined d child.family name := .inl ⟨child, hc, rfl, hcr, _, hcw⟩
  have hiff : memberAt d full = memberAt d child ↔ ∃ family, StandsFor d child.family family ∧
      (family = child.family ∨
        ¬Defined d family name ∧ Adopted d family name child.family) := by
    rw [hchild, memberAt_full_iff h hf hfr hfw]
    refine exists_congr fun family => and_congr_right fun _ => or_congr_left ⟨?_, ?_⟩
    · exact fun hd => hd.2.symm
    · rintro rfl
      exact ⟨hdef, rfl⟩
  exact ⟨hchild, hiff, fun ha => hiff.mpr ⟨_, standsFor_self ha, .inl rfl⟩⟩

/-- A son of one family who is adopted into the family that declares the name of the first one as an
alias. -/
def adoptedByAlias : String := "Smith\nA = Bob Jones\n\nJones (Smith)\nC =\n\nLee\nSmith Bob + K = X\n"

theorem memberAt_full_eq_child_adoptedByAlias : ∃ d, read adoptedByAlias = .ok d ∧
    ∃ child ∈ occurrences d, ∃ full ∈ occurrences d, child.role = .target ∧
      child.mention.wording = .words "Bob" (some "Jones") ∧ full.role = .source ∧
      full.mention.wording = .words "Smith" (some "Bob") ∧ memberAt d full = memberAt d child := by
  have hd : ∃ d, read adoptedByAlias = .ok d ∧ StandsFor d "Smith" "Jones" ∧
      ¬Defined d "Jones" "Bob" ∧ Adopted d "Jones" "Bob" "Smith" ∧
      ∃ child ∈ occurrences d, ∃ full ∈ occurrences d, child.family = "Smith" ∧
        child.role = .target ∧ child.mention.wording = .words "Bob" (some "Jones") ∧
        full.role = .source ∧ full.mention.wording = .words "Smith" (some "Bob") :=
    exists_of_toOption_map_decide (by decide +kernel)
  obtain ⟨d, hd, hs, hn, ha, child, hc, full, hf, hfam, hcr, hcw, hfr, hfw⟩ := hd
  have hiff := (memberAt_full_eq_child_iff hd hc hcr hcw hf hfr (hfam.symm ▸ hfw)).2.1
  exact ⟨d, hd, child, hc, full, hf, hcr, hcw, hfr, hfw,
    hiff.mpr ⟨"Jones", hfam.symm ▸ hs, .inr ⟨hn, hfam.symm ▸ ha⟩⟩⟩

/-- A family with a son whose name is an alias of another family with a son of the same given name. -/
def nameIsAlias : String := "Smith\nA = Bob\n\nJones (Smith)\nC = Bob\n\nLee\nSmith Bob + K = X\n"

theorem memberAt_full_ne_child_nameIsAlias : ∃ d, read nameIsAlias = .ok d ∧
    ∃ child ∈ occurrences d, ∃ full ∈ occurrences d, child.family = "Smith" ∧
      child.role = .target ∧ child.mention.wording = .words "Bob" none ∧ full.role = .source ∧
      full.mention.wording = .words "Smith" (some "Bob") ∧
      memberAt d child = some (.member "Smith" "Bob") ∧
      memberAt d full = some (.member "Jones" "Bob") ∧ memberAt d full ≠ memberAt d child :=
  exists_of_toOption_map_decide (by decide +kernel)

/-! ### Short and full names -/

/-- Where no family declares the name as an alias, a source of one word in a family and one of two
words with its name both have a member. It is the same one just when the family does not both list a
child of that given name and adopt somebody else under it. Where it does, one word means whom the
family adopts and two words mean its own child. -/
theorem memberAt_full_eq_short_iff (h : read source = .ok d) (hs : short ∈ occurrences d)
    (hsr : short.role = .source) (hsw : short.mention.wording = .words name none)
    (hf : full ∈ occurrences d) (hfr : full.role = .source)
    (hfw : full.mention.wording = .words short.family (some name))
    (hn : ∀ f ∈ d, short.family ∉ f.aliases) :
    (∃ id, memberAt d short = some id) ∧ (∃ id, memberAt d full = some id) ∧
      (memberAt d full = memberAt d short ↔ (Bears d short.family name →
        ∀ birth, Adopted d short.family name birth → birth = short.family)) ∧
      ∀ birth, Bears d short.family name → Adopted d short.family name birth →
        memberAt d short = some (.member birth name) ∧
          memberAt d full = some (.member short.family name) := by
  have hshort (birth : String) : memberAt d short = some (.member birth name) ↔ _ :=
    memberAt_short_iff h hs hsr hsw
  have hfull (birth : String) : memberAt d full = some (.member birth name) ↔
      Defined d short.family name ∧ birth = short.family ∨
        ¬Defined d short.family name ∧ Adopted d short.family name birth := by
    rw [memberAt_full_iff h hf hfr hfw]
    simp only [standsFor_iff_eq hn, exists_eq_left]
  have hboth (birth : String) (hb : Bears d short.family name)
      (ha : Adopted d short.family name birth) : memberAt d short = some (.member birth name) ∧
        memberAt d full = some (.member short.family name) :=
    ⟨(hshort birth).mpr (.inl ha), (hfull short.family).mpr (.inl ⟨.inl hb, rfl⟩)⟩
  by_cases ha : ∃ birth, Adopted d short.family name birth
  · obtain ⟨birth, ha⟩ := ha
    by_cases hb : Bears d short.family name
    · obtain ⟨hm, hm'⟩ := hboth birth hb ha
      refine ⟨⟨_, hm⟩, ⟨_, hm'⟩, ?_, hboth⟩
      rw [hm, hm', Option.some.injEq, Id.member_left_inj, imp_iff_right hb]
      exact ⟨fun he other ho => (ha.eq_iff.mp ho).trans he.symm, fun hu => (hu birth ha).symm⟩
    · -- An adopted member founds nothing, so the family has its own only by birth.
      have hdef : ¬Defined d short.family name := fun hdef =>
        hdef.elim hb fun hfound => hfound.1 birth ha
      have hm := (hshort birth).mpr (.inl ha)
      have hm' := (hfull birth).mpr (.inr ⟨hdef, ha⟩)
      exact ⟨⟨_, hm⟩, ⟨_, hm'⟩, iff_of_true (hm'.trans hm.symm) fun h => absurd h hb, hboth⟩
  · have hna := not_exists.mp ha
    have hm := (hshort short.family).mpr (.inr ⟨hna, rfl⟩)
    have hfound : Founds d short.family name := ⟨hna, short, hs, rfl, hsr, hsw⟩
    have hm' := (hfull short.family).mpr (.inl ⟨.inr hfound, rfl⟩)
    exact ⟨⟨_, hm⟩, ⟨_, hm'⟩, iff_of_true (hm'.trans hm.symm) fun _ _ hb => absurd hb (hna _),
      hboth⟩

/-- A daughter who moves and is named in both ways. -/
def namedTwice : String :=
  "Smith\nJohn = Alice Jones\n\nJones\nAlice + Peter = Carl\n\nLee\nJones Alice + Kate = Lily\n"

theorem memberAt_full_eq_short_namedTwice : ∃ d, read namedTwice = .ok d ∧
    ∃ short ∈ occurrences d, ∃ full ∈ occurrences d, short.family = "Jones" ∧
      short.role = .source ∧ short.mention.wording = .words "Alice" none ∧ full.role = .source ∧
      full.mention.wording = .words "Jones" (some "Alice") ∧
      memberAt d full = memberAt d short := by
  have hd : ∃ d, read namedTwice = .ok d ∧ (∀ f ∈ d, "Jones" ∉ f.aliases) ∧
      ¬Bears d "Jones" "Alice" ∧
      ∃ short ∈ occurrences d, ∃ full ∈ occurrences d, short.family = "Jones" ∧
        short.role = .source ∧ short.mention.wording = .words "Alice" none ∧ full.role = .source ∧
        full.mention.wording = .words "Jones" (some "Alice") :=
    exists_of_toOption_map_decide (by decide +kernel)
  obtain ⟨d, hd, hn, hb, short, hs, full, hf, hfam, hsr, hsw, hfr, hfw⟩ := hd
  have hiff := memberAt_full_eq_short_iff hd hs hsr hsw hf hfr (hfam.symm ▸ hfw) (hfam.symm ▸ hn)
  exact ⟨d, hd, short, hs, full, hf, hfam, hsr, hsw, hfr, hfw,
    hiff.2.2.1.mpr fun h => absurd (hfam ▸ h) hb⟩

/-- A son who moves into a family with a son of the same given name. -/
def namesakes : String :=
  "Smith\nJohn = Bob Jones\n\nJones\nCarl = Bob\nBob + Ann = Tom\n\nLee\nJones Bob + Kate = Lily\n"

theorem memberAt_full_ne_short_namesakes : ∃ d, read namesakes = .ok d ∧
    (∀ f ∈ d, "Jones" ∉ f.aliases) ∧
    ∃ short ∈ occurrences d, ∃ full ∈ occurrences d, short.family = "Jones" ∧
      short.role = .source ∧ short.mention.wording = .words "Bob" none ∧ full.role = .source ∧
      full.mention.wording = .words "Jones" (some "Bob") ∧
      memberAt d short = some (.member "Smith" "Bob") ∧
      memberAt d full = some (.member "Jones" "Bob") ∧ memberAt d full ≠ memberAt d short :=
  exists_of_toOption_map_decide (by decide +kernel)

end Pedigree.Snapshot
