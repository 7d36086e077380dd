import Pedigree.Proofs.Grammar
import Pedigree.Proofs.Offsets

/-! What the reader reports. A line is at fault if it does not say what the reader, in the state that it
is in, can take from it. Each line at fault is reported once, by a label that starts where the line
stopped making sense and ends where its content does, so a text is refused just when a line of it is at
fault. -/
namespace Pedigree.Markup

open Checked Grammar

namespace Cursor

variable {c d e : Cursor}

theorem Leads.refl (c : Cursor) : c.Leads c := ⟨[], rfl, rfl⟩

theorem Leads.trans (h : c.Leads d) (h' : d.Leads e) : c.Leads e := by
  obtain ⟨cs, hcs⟩ := h
  obtain ⟨ds, hds⟩ := h'
  exact ⟨_, hcs.append hds⟩

theorem leads_dropWhile (c : Cursor) (p : Char → Bool) : c.Leads (c.dropWhile p) :=
  ⟨_, c.passes_dropWhile p⟩

theorem leads_drop (c : Cursor) (n : Nat) : c.Leads (c.drop n) := ⟨_, c.passes_drop n⟩

theorem leads_skipBlanks (c : Cursor) : c.Leads c.skipBlanks := c.leads_dropWhile _

end Cursor

namespace Line

/-! ### Where a reader gives up -/

/-- A reader that fails stops where it started or further on. -/
def StopsAhead (reader : Cursor → Except Cursor α) : Prop := ∀ c e, reader c = .error e → c.Leads e

variable {item : Cursor → Except Cursor (α × Cursor)} {Item : Nat → α → List Char → Prop}

theorem Sound.leads (h : Sound item Item) {c d : Cursor} {x : α} (ho : item c = .ok (x, d)) :
    c.Leads d := by
  obtain ⟨cs, hcs, -⟩ := h _ _ _ ho
  exact ⟨cs, hcs⟩

theorem name_stops : StopsAhead name := by
  intro c e h
  unfold name at h
  dsimp only at h
  split at h
  · cases h
    exact .refl c
  · cases h

theorem wording_stops : StopsAhead wording := by
  intro c e h
  unfold wording at h
  split at h
  · cases h
  · obtain h | ⟨r, -, h⟩ := of_bind_eq_error h
    · exact name_stops _ _ h
    · dsimp only at h
      split at h <;> cases h

theorem person_stops : StopsAhead person := by
  intro c e h
  obtain h | ⟨r, -, h⟩ := of_bind_eq_error h
  · exact wording_stops _ _ h
  · cases h

theorem StopsAhead.spaced (h : StopsAhead item) : StopsAhead (spaced item) := by
  intro c e he
  obtain he | ⟨r, -, he⟩ := of_bind_eq_error he
  · exact c.leads_skipBlanks.trans (h _ _ he)
  · cases he

/-- Once there is an item, items that fail to follow are given up. -/
theorem StopsAhead.separated (h : StopsAhead item) (separator : Char) :
    StopsAhead (separated item separator) := by
  intro c e he
  obtain he | ⟨⟨x, d⟩, -, he⟩ := of_bind_eq_error he
  · exact h _ _ he
  · dsimp only at he
    split at he
    · split at he <;> cases he
    · cases he

theorem people_stops (separator : Char) : StopsAhead (Line.separated (Line.spaced person) separator) :=
  person_stops.spaced.separated separator

theorem operator_stops : StopsAhead operator := by
  intro c e h
  unfold operator at h
  split at h
  · cases h
  · cases h
  · cases h
    exact .refl c

theorem finish_stops (x : α) : StopsAhead (finish x) := by
  intro c e h
  unfold finish at h
  split at h
  · cases h
  · cases h
    exact .refl c

theorem relation_stops : StopsAhead relation := by
  intro c e h
  obtain h | ⟨⟨ss, d⟩, hs, h⟩ := of_bind_eq_error h
  · exact people_stops '+' _ _ h
  · have hd := (people_sound '+').leads hs
    obtain h | ⟨⟨isUnion, d'⟩, ho, h⟩ := of_bind_eq_error h
    · exact hd.trans (operator_stops _ _ h)
    · have hd' := hd.trans (operator_sound.leads ho)
      dsimp only at h
      split at h
      · next ts d'' ht =>
        have hd'' := hd'.trans ((people_sound ',').leads ht)
        exact (hd''.trans d''.leads_skipBlanks).trans (finish_stops _ _ _ h)
      · exact (hd'.trans d'.leads_skipBlanks).trans (finish_stops _ _ _ h)

theorem leads_skipNumber (c : Cursor) : c.Leads (skipNumber c) := by
  unfold skipNumber
  dsimp only
  split
  · exact (c.leads_dropWhile _).trans (Cursor.leads_drop _ 1)
  · exact .refl c

theorem children_stops : StopsAhead children := by
  intro c e h
  have hc := leads_skipNumber c
  obtain h | ⟨⟨ts, d⟩, ht, h⟩ := of_bind_eq_error h
  · exact hc.trans (people_stops ',' _ _ h)
  · exact (hc.trans ((people_sound ',').leads ht)).trans (finish_stops _ _ _ h)

theorem header_stops : StopsAhead header := by
  intro c e h
  obtain h | ⟨⟨surname, d⟩, hn, h⟩ := of_bind_eq_error h
  · exact name_stops _ _ h
  · have hd := name_sound.leads hn
    have hblank := hd.trans d.leads_skipBlanks
    dsimp only at h
    split at h
    · next others d' ha =>
      have hd' := hblank.trans (aliases_sound.leads ha)
      exact (hd'.trans d'.leads_skipBlanks).trans (finish_stops _ _ _ h)
    · exact hblank.trans (finish_stops _ _ _ h)

end Line

/-! ### Lines at fault -/

/-- A line that says something, but nothing that the reader can take in its state: a relation outside of
a family, or a line that the grammar does not have in this place. -/
def Progress.Refuses (p : Progress) (c : Cursor) : Prop :=
  c.rest ≠ [] ∧
    if isRelation c.rest then p.families = [] ∨ ¬∃ x, RelationLine c.offset x c.rest
    else if p.collecting then ¬∃ ts, ChildLine c.offset ts c.rest
    else ¬∃ x, HeaderLine c.offset x c.rest

/-- A diagnostic of a line. Its label starts at a place of the content of the line and ends where the
content ends. -/
structure Concerns (c : Cursor) (d : Diagnostic) : Prop where
  help : d.help.isSome
  label : ∃ l stopped, d.labels = [l] ∧ l.primary ∧ c.Leads stopped ∧
    Span.between? stopped.offset c.stop = some l.span ∧
    (l.message = "line ends too early" ↔ l.span.isEmpty)

/-- Of the lines that are read from a state on, those at fault have a diagnostic each, in order. -/
inductive Reported : Progress → List Cursor → List Diagnostic → Prop where
  | done {p : Progress} : Reported p [] []
  | taken {p : Progress} {c : Cursor} {cs : List Cursor} {ds : List Diagnostic} : ¬p.Refuses c →
      Reported (p.step c) cs ds → Reported p (c :: cs) ds
  | refused {p : Progress} {c : Cursor} {cs : List Cursor} {d : Diagnostic}
      {ds : List Diagnostic} : p.Refuses c → Concerns c d → Reported (p.step c) cs ds →
      Reported p (c :: cs) (d :: ds)

theorem not_exists_of_eq_error {r : Except ε α} {e : ε} {Described : α → Prop} (h : r = .error e)
    (hd : ∀ x, r = .ok x ↔ Described x) : ¬∃ x, Described x := by
  rintro ⟨x, hx⟩
  rw [(hd x).mpr hx] at h
  cases h

/-- The end of the content never lies before the place where reading stopped. -/
theorem between?_of_leads {c stopped : Cursor} (h : c.Leads stopped) :
    Span.between? stopped.offset c.stop = some (stopped.spanTo ⟨c.stop, []⟩) := by
  obtain ⟨taken, htaken⟩ := h
  have hle : stopped.offset ≤ c.stop := htaken.stop_eq ▸ Nat.le_add_right _ _
  simp [Span.between?, Cursor.spanTo, hle]

theorem isEmpty_spanTo {c stopped : Cursor} (h : c.Leads stopped) :
    (stopped.spanTo ⟨c.stop, []⟩).isEmpty = stopped.rest.isEmpty := by
  obtain ⟨taken, htaken⟩ := h
  rw [htaken.stop_eq, Bool.eq_iff_iff, List.isEmpty_iff]
  by_cases hr : stopped.rest = []
  · simp [Span.isEmpty, Cursor.spanTo, Cursor.stop, hr]
  · have := bytes_pos hr
    simp only [Span.isEmpty, Cursor.spanTo, Cursor.stop, beq_iff_eq, hr, iff_false]
    omega

theorem concerns_malformed {c stopped : Cursor} (h : c.Leads stopped) (message help : String) :
    Concerns c (malformed c stopped message help) where
  help := rfl
  label := by
    refine ⟨_, stopped, rfl, rfl, h, between?_of_leads h, ?_⟩
    rw [isEmpty_spanTo h]
    cases stopped.rest.isEmpty <;> simp

theorem concerns_outsideFamily {c : Cursor} (h : c.rest ≠ []) : Concerns c (outsideFamily c) where
  help := rfl
  label := by
    refine ⟨_, c, rfl, rfl, .refl c, between?_of_leads (.refl c), ?_⟩
    simp [isEmpty_spanTo (.refl c), h]

/-- The two ends of the label of a diagnostic lie in the line. -/
theorem Concerns.inside {c : Cursor} {d : Diagnostic} (h : Concerns c d) :
    ∀ l ∈ d.labels, c.offset ≤ l.span.start ∧ l.span.stop = c.stop := by
  obtain ⟨l, stopped, hl, -, ⟨taken, htaken⟩, hspan, -⟩ := h.label
  have ho := htaken.offset
  unfold Span.between? at hspan
  split at hspan
  · rw [hl, List.forall_mem_singleton, ← Option.some.inj hspan]
    exact ⟨by simp only; omega, rfl⟩
  · cases hspan

/-- A line that is at fault adds a diagnostic, and no other line does. -/
def Records (atFault : Prop) (c : Cursor) (p q : Progress) : Prop :=
  (atFault ∧ ∃ d, q.diagnostics = d :: p.diagnostics ∧ Concerns c d) ∨
    (¬atFault ∧ q.diagnostics = p.diagnostics)

namespace Progress

variable (p : Progress) {c : Cursor} (span : Span)

theorem records_readRelation (hc : c.rest ≠ []) :
    Records (p.families = [] ∨ ¬∃ x, RelationLine c.offset x c.rest) c p (p.readRelation c span) := by
  unfold readRelation
  split
  · next hf => exact .inl ⟨.inl hf, _, rfl, concerns_outsideFamily hc⟩
  · next hf =>
    split
    · next hl => exact .inr ⟨by simp [hf, ← Line.relation_eq_ok_iff, hl], rfl⟩
    · next hl =>
      have hnot := not_exists_of_eq_error hl fun _ => Line.relation_eq_ok_iff
      exact .inl ⟨.inr hnot, _, rfl, concerns_malformed (Line.relation_stops _ _ hl) _ _⟩

theorem records_readChildren :
    Records (¬∃ ts, ChildLine c.offset ts c.rest) c p (p.readChildren c span) := by
  unfold readChildren
  split
  · next hl => exact .inr ⟨not_not_intro ⟨_, Line.children_eq_ok_iff.mp hl⟩, rfl⟩
  · next hl =>
    have hnot := not_exists_of_eq_error hl fun _ => Line.children_eq_ok_iff
    exact .inl ⟨hnot, _, rfl, concerns_malformed (Line.children_stops _ _ hl) _ _⟩

theorem records_readHeader :
    Records (¬∃ x, HeaderLine c.offset x c.rest) c p (p.readHeader c span) := by
  unfold readHeader
  split
  · next hl => exact .inr ⟨not_not_intro ⟨_, Line.header_eq_ok_iff.mp hl⟩, rfl⟩
  · next hl =>
    have hnot := not_exists_of_eq_error hl fun _ => Line.header_eq_ok_iff
    exact .inl ⟨hnot, _, rfl, concerns_malformed (Line.header_stops _ _ hl) _ _⟩

theorem records_step (c : Cursor) : Records (p.Refuses c) c p (p.step c) := by
  unfold step Refuses
  by_cases hc : c.rest = []
  · exact .inr ⟨by simp [hc], by simp [hc]⟩
  simp only [List.isEmpty_iff, hc, ne_eq, not_false_eq_true, true_and, if_false]
  split
  · exact p.records_readRelation _ hc
  · split
    · exact p.records_readChildren _
    · exact p.records_readHeader _

theorem exists_reported (cs : List Cursor) :
    ∃ ds, Reported p cs ds ∧ (cs.foldl step p).diagnostics = ds.reverse ++ p.diagnostics := by
  induction cs generalizing p with
  | nil => exact ⟨[], .done, rfl⟩
  | cons c cs ih =>
    obtain ⟨ds, hds, hfold⟩ := ih (p.step c)
    rw [List.foldl_cons, hfold]
    obtain ⟨hr, d, hd, hcd⟩ | ⟨hr, hd⟩ := p.records_step c
    · exact ⟨d :: ds, .refused hr hcd hds, by simp [hd]⟩
    · exact ⟨ds, .taken hr hds, by simp [hd]⟩

end Progress

namespace Reported

variable {p : Progress} {cs : List Cursor} {ds : List Diagnostic}

theorem exists_concerns (h : Reported p cs ds) : ∀ d ∈ ds, ∃ c ∈ cs, Concerns c d := by
  induction h with
  | done => simp
  | taken _ _ ih =>
    intro d hd
    obtain ⟨c, hc, hcd⟩ := ih d hd
    exact ⟨c, by simp [hc], hcd⟩
  | @refused _ c _ _ _ _ hcd _ ih =>
    refine List.forall_mem_cons.mpr ⟨⟨c, by simp, hcd⟩, fun d hd => ?_⟩
    obtain ⟨c, hc, hcd⟩ := ih d hd
    exact ⟨c, by simp [hc], hcd⟩

/-- There is something to report just when a line is at fault in the state that the lines before it
lead to. -/
theorem ne_nil_iff (h : Reported p cs ds) :
    ds ≠ [] ↔ ∃ before c after, cs = before ++ c :: after ∧
      (before.foldl Progress.step p).Refuses c := by
  induction h with
  | done => simp
  | @taken p c cs ds hr _ ih =>
    rw [ih]
    constructor
    · rintro ⟨before, d, after, rfl, hd⟩
      exact ⟨c :: before, d, after, rfl, hd⟩
    · rintro ⟨_ | ⟨b, before⟩, d, after, he, hd⟩
      · cases he
        exact absurd hd hr
      · cases he
        exact ⟨before, d, after, rfl, hd⟩
  | @refused p c cs d ds hr _ _ _ =>
    exact iff_of_true (List.cons_ne_nil _ _) ⟨[], c, cs, rfl, hr⟩

/-- The labels of a diagnostic end before those of the next one start. -/
theorem apart (h : Reported p cs ds) (hcs : cs.Pairwise fun c d => c.stop < d.offset) :
    ds.Pairwise fun d e => ∀ l ∈ d.labels, ∀ m ∈ e.labels, l.span.stop < m.span.start := by
  induction h with
  | done => exact .nil
  | taken _ _ ih => exact ih (List.pairwise_cons.mp hcs).2
  | refused _ hcd hrest ih =>
    rw [List.pairwise_cons] at hcs
    refine List.pairwise_cons.mpr ⟨fun e he => ?_, ih hcs.2⟩
    obtain ⟨c', hc', hce⟩ := hrest.exists_concerns e he
    have hlt := hcs.1 c' hc'
    intro l hl m hm
    have hstop := (hcd.inside l hl).2
    have hstart := (hce.inside m hm).1
    omega

end Reported

/-! ### Lines in their text -/

/-- A part of a text, at its place in it. -/
def Cursor.Holds (c d : Cursor) : Prop :=
  ∃ before after, c.rest = before ++ d.rest ++ after ∧ d.offset = c.offset + bytes before

theorem Cursor.Includes.holds {c d : Cursor} (h : c.Includes d) : c.Holds d := by
  obtain ⟨before, after, hr, ho, -⟩ := h
  exact ⟨before, after, hr, ho⟩

/-- The lines of a text stand in it, each at its offset. -/
theorem holds_contents (source : String) :
    ∀ c ∈ contents source, Cursor.Holds ⟨0, source.toList⟩ c :=
  fun c hc => (includes_contents source c hc).holds

theorem Progress.finish_eq_error_iff {p : Progress} {ds : List Diagnostic} :
    p.finish = .error ds ↔ p.diagnostics ≠ [] ∧ ds = p.diagnostics.reverse := by
  unfold finish
  split
  · next h => simp [List.isEmpty_iff.mp h]
  · next h =>
    rw [List.isEmpty_iff] at h
    rw [Except.error.injEq, and_iff_right h, eq_comm]

/-- A text is refused just when a line of it is at fault in the state that the lines before it lead to.
It is then told what is wrong with every such line, from the first one to the last one, with labels that
do not meet. Where the reader looks for a line, the line stands in the text. -/
theorem reports_lines (source : String) :
    ((∃ ds, read source = .error ds) ↔ ∃ before c after, contents source = before ++ c :: after ∧
      (before.foldl Progress.step .start).Refuses c) ∧
    (∀ ds, read source = .error ds → Reported .start (contents source) ds ∧
      ds.Pairwise fun d e => ∀ l ∈ d.labels, ∀ m ∈ e.labels, l.span.stop < m.span.start) ∧
    ∀ c ∈ contents source, Cursor.Holds ⟨0, source.toList⟩ c := by
  obtain ⟨ds, hds, hfold⟩ := Progress.start.exists_reported (contents source)
  have hread (es : List Diagnostic) : read source = .error es ↔ ds ≠ [] ∧ es = ds := by
    rw [read, Progress.finish_eq_error_iff, hfold]
    simp [Progress.start]
  refine ⟨?_, fun es he => ?_, holds_contents source⟩
  · rw [← hds.ne_nil_iff]
    simp [hread]
  · obtain ⟨-, rfl⟩ := (hread es).mp he
    exact ⟨hds, hds.apart (contents_apart source)⟩

end Pedigree.Markup
