import Pedigree.Proofs.Identities

/-! Mentions quote their source. Whatever is read stands in the source where its span says, written out
whole, from the line that it was read from through every state of the reader. So the references of a
document are places of its source in their order, and the notes taken on one of them never meet those
on another. -/
namespace Pedigree

namespace Markup

open Spelling Grammar

/-- A mention in a text, written out whole at its place. -/
def Cursor.Shows (c : Cursor) (m : Mention) : Prop :=
  ∃ cs, Mentions m.span.start m cs ∧ c.Includes ⟨m.span.start, cs⟩

theorem Cursor.Includes.shows {c d : Cursor} {m : Mention} (h : c.Includes d) (hd : d.Shows m) :
    c.Shows m := by
  obtain ⟨cs, hm, hi⟩ := hd
  exact ⟨cs, hm, h.trans hi⟩

/-! ### The mentions of a line -/

section Lines

variable {o : Nat} {separator : Char} {m : Mention} {ms : List Mention} {cs ds : List Char}

theorem includes_append (h : Closed ds) : Cursor.Includes ⟨o, cs ++ ds⟩ ⟨o, cs⟩ :=
  .of_rest_eq rfl h

theorem includes_rest (o : Nat) (cs ds : List Char) :
    Cursor.Includes ⟨o, cs ++ ds⟩ ⟨o + bytes cs, ds⟩ := by
  have h : Cursor.Passes ⟨o, cs ++ ds⟩ cs ⟨o + bytes cs, ds⟩ := ⟨rfl, rfl⟩
  exact h.includes

theorem shows_of_spaced (h : Spaced Mentions o m cs) : Cursor.Shows ⟨o, cs⟩ m := by
  obtain @⟨before, cs, after, -, hm, ha⟩ := h
  refine ⟨cs, hm.start ▸ hm, hm.start ▸ ?_⟩
  exact (includes_append (closed_of_blank ha)).trans (includes_rest o before cs)

/-- A separator ends the last word before it. -/
theorem shows_of_people (hs : ∀ t, Closed (separator :: t)) (h : People separator o ms cs) :
    ∀ m ∈ ms, Cursor.Shows ⟨o, cs⟩ m := by
  induction h with
  | one h => exact List.forall_mem_singleton.mpr (shows_of_spaced h)
  | @more o m ms cs ds h _ ih =>
    refine List.forall_mem_cons.mpr ⟨?_, fun m hm => ?_⟩
    · exact (includes_append (hs ds)).shows (shows_of_spaced h)
    · have hi := includes_rest o (cs ++ [separator]) ds
      rw [List.append_assoc, List.singleton_append] at hi
      exact hi.shows (ih m hm)

theorem closed_plus (t : List Char) : Closed ('+' :: t) :=
  (stops_cons (by decide) (by decide) t).closed

theorem closed_comma (t : List Char) : Closed (',' :: t) :=
  (stops_cons (by decide) (by decide) t).closed

theorem closed_operator (isUnion : Bool) (t : List Char) : Closed (operator isUnion ++ t) := by
  cases isUnion <;> exact (stops_cons (by decide) (by decide) _).closed

variable {c : Cursor}

theorem shows_of_relation {ss : List Mention} {isUnion : Bool} {ts : Option (List Mention)}
    (h : Line.relation c = .ok (ss, isUnion, ts)) : ∀ m ∈ ss ++ ts.getD [], c.Shows m := by
  have hline := Line.relationLine_of_relation h
  obtain ⟨o, cs⟩ := c
  have sources {left right : List Char} (hl : People '+' o ss left) :
      ∀ m ∈ ss, Cursor.Shows ⟨o, left ++ operator isUnion ++ right⟩ m := by
    intro m hm
    rw [List.append_assoc]
    exact (includes_append (closed_operator isUnion right)).shows (shows_of_people closed_plus hl m hm)
  cases hline with
  | bare hl _ => simpa using sources hl
  | full hl hr =>
    refine List.forall_mem_append.mpr ⟨sources hl, fun m hm => ?_⟩
    exact (includes_rest o _ _).shows (shows_of_people closed_comma hr m hm)

theorem shows_of_children {ts : List Mention} (h : Line.children c = .ok ts) :
    ∀ m ∈ ts, c.Shows m := by
  have hline := Line.childLine_of_children h
  obtain ⟨o, cs⟩ := c
  cases hline with
  | plain h => exact shows_of_people closed_comma h
  | @numbered digits cs _ _ hp =>
    intro m hm
    have hi := includes_rest o (digits ++ ['.']) cs
    rw [List.append_assoc, List.singleton_append] at hi
    exact hi.shows (shows_of_people closed_comma hp m hm)

end Lines

/-! ### The state of the reader -/

namespace Progress

/-- What has been read from a text stands in it. -/
structure Copies (text : Cursor) (p : Progress) : Prop where
  names : ∀ f ∈ p.families, IsWord f.name
  mentions : ∀ m ∈ p.mentions, text.Shows m

variable {text c : Cursor} {p : Progress}

theorem name_of_mem_adopt {span : Span} {children : List Mention} {fs : List Family} {f : Family}
    (h : f ∈ adopt span children fs) : ∃ g ∈ fs, g.name = f.name := by
  unfold adopt at h
  split at h
  · cases h
  · next g gs =>
    split at h
    · exact ⟨f, h, rfl⟩
    · obtain rfl | h := List.mem_cons.mp h
      · exact ⟨g, List.mem_cons_self, rfl⟩
      · exact ⟨f, List.mem_cons_of_mem g h, rfl⟩

theorem isWord_of_header {surname : String} {others : List String}
    (h : Line.header c = .ok (surname, others)) : IsWord surname := by
  have hline := Line.headerLine_of_header h
  generalize c.rest = cs at hline
  cases hline with
  | bare hn => exact name_iff.mpr ⟨_, hn⟩
  | aliased hn => exact name_iff.mpr ⟨_, hn⟩

theorem isWord_of_gains {families : List Family} (h : p.Gains c families)
    (hp : ∀ f ∈ p.families, IsWord f.name) : ∀ f ∈ families, IsWord f.name := by
  cases h with
  | nothing => exact hp
  | relation hf =>
    rw [hf, List.forall_mem_cons] at hp
    exact List.forall_mem_cons.mpr hp
  | children =>
    intro f hf
    obtain ⟨g, hg, hn⟩ := name_of_mem_adopt hf
    exact hn ▸ hp g hg
  | header hl => exact List.forall_mem_cons.mpr ⟨isWord_of_header hl, hp⟩

/-- A line of the text adds nothing but what stands in it. -/
theorem Copies.step (h : p.Copies text) (hc : text.Includes c) : (p.step c).Copies text where
  names := isWord_of_gains (p.gains_step c) h.names
  mentions := by
    obtain he | ⟨ss, isUnion, ts, hl, he⟩ | ⟨ts, hl, he⟩ := p.mentions_step c
    · exact he ▸ h.mentions
    · exact he ▸ List.forall_mem_append.mpr
        ⟨h.mentions, fun m hm => hc.shows (shows_of_relation hl m hm)⟩
    · exact he ▸ List.forall_mem_append.mpr
        ⟨h.mentions, fun m hm => hc.shows (shows_of_children hl m hm)⟩

theorem Copies.foldl {cs : List Cursor} (h : p.Copies text) (hcs : ∀ c ∈ cs, text.Includes c) :
    (cs.foldl Progress.step p).Copies text := by
  induction cs generalizing p with
  | nil => exact h
  | cons c cs ih =>
    rw [List.forall_mem_cons] at hcs
    exact ih (h.step hcs.1) hcs.2

theorem copies_contents (source : String) :
    ((contents source).foldl Progress.step .start).Copies ⟨0, source.toList⟩ :=
  Copies.foldl ⟨by simp [start], by simp [start, Progress.mentions]⟩ (includes_contents source)

end Progress

/-! ### Documents -/

variable {source : String} {d : Document}

theorem shows_of_mem_mentions (h : read source = .ok d) :
    ∀ m ∈ mentions d, Cursor.Shows ⟨0, source.toList⟩ m := by
  rw [Progress.mentions_of_finish h]
  exact (Progress.copies_contents source).mentions

theorem isWord_of_mem (h : read source = .ok d) : ∀ f ∈ d, IsWord f.name := by
  have hnames := (Progress.copies_contents source).names
  unfold read Progress.finish at h
  split at h
  · cases h
    rw [List.forall_mem_map]
    exact fun f hf => hnames f (List.mem_reverse.mp hf)
  · cases h

/-- A mention with its text: the bytes of its span are those of its wording, and no word goes on where
it ends. -/
def StandsIn (source : String) (m : Mention) : Prop :=
  ∃ before cs after, source.toList = before ++ cs ++ after ∧ m.span.start = bytes before ∧
    m.span.stop = bytes (before ++ cs) ∧ Person m.wording cs ∧ Closed after

theorem standsIn_of_shows {m : Mention} (h : Cursor.Shows ⟨0, source.toList⟩ m) :
    StandsIn source m := by
  obtain ⟨cs, hm, before, after, hr, ho, hc⟩ := h
  dsimp only at hr ho
  rw [Nat.zero_add] at ho
  exact ⟨before, cs, after, hr, ho, by rw [hm.stop, ho, bytes_append], hm.wording, hc⟩

end Markup

namespace Snapshot

open Markup

/-- The references of a document, family by family. -/
def references (s : Snapshot) : List Reference := s.families.flatMap Family.references

/-- The notes on some occurrences, taken one after the other. -/
def notes (d : Document) (os : List Occurrence) : Resolver.Findings :=
  os.foldl (fun found o => (Resolver.ofDocument d).note o.family o.role found o.mention) ⟨.empty, []⟩

variable {source : String} {d : Document}

theorem references_ofDocument (d : Document) : (ofDocument d).1.references =
    (occurrences d).map fun o => Resolver.reference o.role o.mention := by
  simp [references, ofDocument, Resolver.families, Family.references, occurrences,
    Relation.occurrences, List.flatMap_map, List.map_flatMap, Function.comp_def]

/-- Notes on occurrences that stand before another one say nothing about its place. -/
theorem get?_notes_eq_none {os : List Occurrence} {o : Occurrence}
    (hos : (os ++ [o]).Pairwise fun o p => o.start < p.start) :
    (notes d os).identities.get? o.start = none := by
  obtain ⟨hasc, -, hlt⟩ := List.pairwise_append.mp hos
  rw [notes, Resolver.foldl_note_eq hasc (by simp [IdentityIndex.empty])]
  refine List.lookup_eq_none_iff.mpr fun e he => ?_
  simp only [IdentityIndex.empty, List.append_nil, List.mem_reverse, List.mem_filterMap] at he
  obtain ⟨p, hp, he⟩ := he
  have hs : p.start = e.1 := (Resolver.recorded?_eq_some_iff.mp he).1
  exact bne_iff_ne.mpr (hs ▸ (Nat.ne_of_lt (hlt p hp o (List.mem_singleton_self o))).symm)

/-- The references of a document that was read, family by family, relation by relation and sources
before targets, are at strictly increasing offsets of its source, and each stands there in full as it is
written. Whenever a member is noted, the index has none at that offset yet. -/
theorem references_quote_source (h : read source = .ok d) :
    (ofDocument d).1.references =
      (occurrences d).map (fun o => Resolver.reference o.role o.mention) ∧
    (ofDocument d).1.references.Pairwise (·.offset < ·.offset) ∧
    (∀ o ∈ occurrences d, StandsIn source o.mention) ∧
    (ofDocument d).1.identities = (notes d (occurrences d)).identities ∧
    ∀ before o after, occurrences d = before ++ o :: after →
      (notes d before).identities.get? o.start = none := by
  refine ⟨references_ofDocument d, ?_, fun o ho => ?_, ?_, fun before o after hs => ?_⟩
  · rw [references_ofDocument, List.pairwise_map]
    exact occurrences_ascending h
  · refine standsIn_of_shows (shows_of_mem_mentions h _ ?_)
    rw [← map_mention_occurrences]
    exact List.mem_map_of_mem ho
  · exact congrArg (·.identities) (Resolver.findings_eq_foldl d)
  · have hasc := occurrences_ascending h
    rw [hs, List.append_cons] at hasc
    exact get?_notes_eq_none (List.pairwise_append.mp hasc).1

/-- Comments, wide characters, children in the line of their relation and below it. -/
def leesSource : String :=
  "// сім'я\r\n" ++ "Лі (Lee) // two spellings\n" ++ "  Ann \t Ray+ ? =// children below\n" ++
    "1. Bo,Óla  Ray\r\n" ++ "\t?\n" ++ "\n" ++ "Bo->Óla"

theorem references_quote_source_lees : ∃ d, read leesSource = .ok d ∧
    (ofDocument d).1.references.map (fun r => (r.offset, r.label)) =
      [(44, "Ray"), (55, "?"), (79, "Bo"), (82, "Óla"), (94, "?"), (97, "Bo"), (101, "Óla")] ∧
    (ofDocument d).1.references.Pairwise (·.offset < ·.offset) ∧
    (∀ o ∈ occurrences d, StandsIn leesSource o.mention) ∧
    ∀ before o after, occurrences d = before ++ o :: after →
      (notes d before).identities.get? o.start = none := by
  obtain ⟨d, hd, hr⟩ : ∃ d, read leesSource = .ok d ∧
      (ofDocument d).1.references.map (fun r => (r.offset, r.label)) =
        [(44, "Ray"), (55, "?"), (79, "Bo"), (82, "Óla"), (94, "?"), (97, "Bo"), (101, "Óla")] :=
    Checked.exists_of_toOption_map_decide (by decide +kernel)
  obtain ⟨-, hasc, hstands, -, hfresh⟩ := references_quote_source hd
  exact ⟨d, hd, hr, hasc, hstands, hfresh⟩

end Snapshot

end Pedigree
