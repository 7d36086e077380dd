import Pedigree.Proofs.Reports
import Pedigree.Proofs.Wordings

/-! Lines that hold only a comment. Such a line says as little as a blank one, so it closes a list of
children that is open. It makes a difference just where the list would have gone on below it. -/
namespace Pedigree.Markup

open Spelling Snapshot

/-- White space, two slashes and anything up to the end of the line. -/
def CommentLine (comment : String) : Prop :=
  ∃ before text, White before ∧ '\n' ∉ text ∧ comment.toList = before ++ '/' :: '/' :: text

/-- The state that a text leads to. -/
def reached (text : String) : Progress := (contents text).foldl Progress.step .start

/-- The first text leaves a list of children open, and the second one starts with a line for this list:
one that says something, and is no relation. -/
def GoesOn (before after : String) : Prop :=
  (reached before).collecting ∧
    ∃ c ∈ (contents after).head?, c.rest ≠ [] ∧ ¬isRelation c.rest

instance (before after : String) : Decidable (GoesOn before after) :=
  inferInstanceAs (Decidable (_ ∧ ∃ c ∈ (contents after).head?, _))

/-- Two outcomes of reading that tell the same. Either both texts are refused, or both are read as the
same families, with the same words in the same places and the same members there. -/
inductive SameReading :
    Except (List Diagnostic) Document → Except (List Diagnostic) Document → Prop where
  | refused {ds es : List Diagnostic} : SameReading (.error ds) (.error es)
  | told {d e : Document} : d.map (·.plain) = e.map (·.plain) →
      (occurrences d).map (fun o => (o.said, memberAt d o)) =
        (occurrences e).map (fun o => (o.said, memberAt e o)) →
      SameReading (.ok d) (.ok e)

/-! ### Reading on with no list open -/

namespace Progress

/-- With the list of children closed, if one is open. -/
def close (p : Progress) : Progress := { p with collecting := false }

variable {p q : Progress} {c d : Cursor}

theorem step_of_blank (hc : c.rest = []) : p.step c = p.close := by
  simp [step, hc, close]

theorem close_eq_self (hk : p.collecting = false) : p.close = p := by
  rw [close, ← hk]

theorem step_of_children (hne : c.rest ≠ []) (hr : ¬isRelation c.rest) (hk : p.collecting) :
    p.step c = p.readChildren c (c.spanTo ⟨c.stop, []⟩) := by
  simp [step, hne, hr, hk]

theorem step_of_header (hne : c.rest ≠ []) (hr : ¬isRelation c.rest) (hk : p.collecting = false) :
    p.step c = p.readHeader c (c.spanTo ⟨c.stop, []⟩) := by
  simp [step, hne, hr, hk]

/-- A line that is none of the list closes it itself. -/
theorem step_close (hc : c.rest = [] ∨ isRelation c.rest) : p.close.step c = p.step c := by
  by_cases hnil : c.rest = []
  · rw [step_of_blank hnil, step_of_blank hnil, close, close]
  have hr := hc.resolve_left hnil
  simp only [step, List.isEmpty_iff, hnil, if_false, hr, if_true, readRelation, close]

/-! ### A family more -/

/-- The second state has more families than the first one, and no list of children open that the first
one has not. -/
structure Outgrown (p q : Progress) : Prop where
  ne_nil : p.families ≠ []
  lt : p.families.length < q.families.length
  collecting : q.collecting → p.collecting

theorem length_adopt (span : Span) (children : List Mention) (families : List Family) :
    (adopt span children families).length = families.length := by
  unfold adopt
  split
  · rfl
  · split <;> rfl

theorem length_readRelation (p : Progress) (c : Cursor) (span : Span) :
    (p.readRelation c span).families.length = p.families.length := by
  unfold readRelation
  split
  · rfl
  · next h => split <;> simp [report, h]

theorem length_readChildren (p : Progress) (c : Cursor) (span : Span) :
    (p.readChildren c span).families.length = p.families.length := by
  unfold readChildren
  split
  · exact length_adopt _ _ _
  · rfl

theorem collecting_readChildren (p : Progress) (c : Cursor) (span : Span) :
    (p.readChildren c span).collecting = p.collecting := by
  unfold readChildren
  split <;> rfl

theorem collecting_readHeader (p : Progress) (c : Cursor) (span : Span) :
    (p.readHeader c span).collecting = p.collecting := by
  unfold readHeader
  split <;> rfl

theorem length_le_readHeader (p : Progress) (c : Cursor) (span : Span) :
    p.families.length ≤ (p.readHeader c span).families.length := by
  unfold readHeader
  split
  · simp
  · exact Nat.le_refl _

/-- Within families the same line opens a list of children in both states or in none. -/
theorem collecting_readRelation (hp : p.families ≠ []) (hq : q.families ≠ []) (hc : c.rest = d.rest)
    (s t : Span) : (p.readRelation c s).collecting = (q.readRelation d t).collecting := by
  obtain ⟨f, fs, hf⟩ := List.exists_cons_of_ne_nil hp
  obtain ⟨g, gs, hg⟩ := List.exists_cons_of_ne_nil hq
  obtain ⟨e, e', he, he'⟩ | ⟨⟨ss, b, ts⟩, ⟨ss', b', ts'⟩, hx, hy, hxy⟩ := Line.agree_relation hc
  · simp [readRelation, hf, hg, he, he', report]
  · have hts : ts.isNone = ts'.isNone := by
      have := congrArg (·.2.2.isNone) hxy
      simpa [Grammar.wordings] using this
    simp [readRelation, hf, hg, hx, hy, hts]

theorem lt_readHeader (h : p.families.length < q.families.length) (hc : c.rest = d.rest) (s t : Span) :
    (p.readHeader c s).families.length < (q.readHeader d t).families.length := by
  obtain ⟨e, e', he, he'⟩ | ⟨x, y, hx, hy, -⟩ := Line.agree_header hc
  · simpa [readHeader, he, he', report] using h
  · simpa [readHeader, hx, hy] using h

theorem length_le_step (p : Progress) (c : Cursor) :
    p.families.length ≤ (p.step c).families.length := by
  unfold step
  dsimp only
  split
  · exact Nat.le_refl _
  split
  · exact (p.length_readRelation _ _).ge
  split
  · exact (p.length_readChildren _ _).ge
  · exact p.length_le_readHeader _ _

theorem ne_nil_step (h : p.families ≠ []) (c : Cursor) : (p.step c).families ≠ [] :=
  List.ne_nil_of_length_pos (Nat.lt_of_lt_of_le (List.length_pos_iff.mpr h) (p.length_le_step c))

theorem Outgrown.step (h : p.Outgrown q) (hc : c.rest = d.rest) : (p.step c).Outgrown (q.step d) := by
  have hq : q.families ≠ [] := List.ne_nil_of_length_pos (Nat.zero_lt_of_lt h.lt)
  suffices hrest : (p.step c).families.length < (q.step d).families.length ∧
      ((q.step d).collecting → (p.step c).collecting) from
    ⟨ne_nil_step h.ne_nil c, hrest.1, hrest.2⟩
  unfold Progress.step
  dsimp only
  rw [hc]
  split
  · exact ⟨h.lt, id⟩
  split
  · rw [length_readRelation, length_readRelation, collecting_readRelation h.ne_nil hq hc]
    exact ⟨h.lt, id⟩
  by_cases hk : q.collecting
  · rw [if_pos hk, if_pos (h.collecting hk), length_readChildren, length_readChildren,
      collecting_readChildren, collecting_readChildren]
    exact ⟨h.lt, h.collecting⟩
  -- a line for the list of the first state is a header for the second one
  rw [if_neg hk, collecting_readHeader]
  refine ⟨?_, fun hk' => absurd hk' hk⟩
  split
  · rw [length_readChildren]
    exact Nat.lt_of_lt_of_le h.lt (q.length_le_readHeader _ _)
  · exact lt_readHeader h.lt hc _ _

theorem Outgrown.foldl {cs ds : List Cursor} (h : p.Outgrown q)
    (hc : cs.map (·.rest) = ds.map (·.rest)) :
    (cs.foldl Progress.step p).Outgrown (ds.foldl Progress.step q) := by
  induction cs generalizing p q ds with
  | nil =>
    rw [List.map_nil, eq_comm, List.map_eq_nil_iff] at hc
    simpa [hc] using h
  | cons c cs ih =>
    rw [List.map_cons, eq_comm, List.map_eq_cons_iff] at hc
    obtain ⟨d, ds, rfl, hd, hds⟩ := hc
    rw [List.foldl_cons, List.foldl_cons]
    exact ih (h.step hd.symm) hds.symm

/-- Only a relation of a family opens a list of children. -/
theorem families_ne_nil_step (h : p.collecting → p.families ≠ []) (c : Cursor) :
    (p.step c).collecting → (p.step c).families ≠ [] := by
  intro hk
  by_cases hp : p.families = []
  · have hnot : p.collecting = false := Bool.eq_false_iff.mpr fun hk => h hk hp
    refine absurd hk ?_
    unfold step
    dsimp only
    split
    · simp
    · split
      · simp [readRelation, hp, report]
      · rw [if_neg (by simp [hnot]), collecting_readHeader, hnot]
        exact Bool.false_ne_true
  · exact ne_nil_step hp c

theorem families_ne_nil_foldl (h : p.collecting → p.families ≠ []) (cs : List Cursor) :
    (cs.foldl step p).collecting → (cs.foldl step p).families ≠ [] := by
  induction cs generalizing p with
  | nil => exact h
  | cons c cs ih => exact ih (families_ne_nil_step h c)

theorem diagnostics_ne_nil_foldl (h : p.diagnostics ≠ []) (cs : List Cursor) :
    (cs.foldl step p).diagnostics ≠ [] := by
  obtain ⟨ds, -, hds⟩ := p.exists_reported cs
  rw [hds]
  exact List.append_ne_nil_of_right_ne_nil _ h

/-- A line of a list of children is a header once the list is closed, or else at fault. -/
theorem outgrown_close (hk : p.collecting) (hp : p.families ≠ []) (hc : c.rest = d.rest)
    (hne : c.rest ≠ []) (hr : ¬isRelation c.rest) :
    (p.step c).Outgrown (p.close.step d) ∨ (p.close.step d).diagnostics ≠ [] := by
  have hfamilies := ne_nil_step hp c
  rw [step_of_children hne hr hk] at hfamilies ⊢
  rw [step_of_header (hc ▸ hne) (hc ▸ hr) rfl]
  cases hd : Line.header d with
  | error e => exact .inr (by simp [readHeader, hd, report])
  | ok x =>
    have hlt : p.families.length < (p.close.readHeader d (d.spanTo ⟨d.stop, []⟩)).families.length := by
      simp [readHeader, hd, close]
    rw [← p.length_readChildren c (c.spanTo ⟨c.stop, []⟩)] at hlt
    exact .inl ⟨hfamilies, hlt, fun _ => (p.collecting_readChildren _ _).trans hk⟩

theorem finish_eq_ok_iff {document : Document} : p.finish = .ok document ↔ p.diagnostics = [] ∧
    document = p.families.reverse.map fun f => { f with relations := f.relations.reverse } := by
  unfold finish
  split
  · next h => rw [List.isEmpty_iff.mp h, Except.ok.injEq, eq_self, true_and, eq_comm]
  · next h => simp [List.isEmpty_iff.not.mp h]

end Progress

/-! ### Comments -/

theorem SameReading.of_alike {s t : String} (h : (reached s).Alike (reached t)) :
    SameReading (read s) (read t) := by
  have hp := Progress.map_plain_finish (p := reached s)
  have hq := Progress.map_plain_finish (p := reached t)
  cases hd : read s with
  | error ds =>
    cases he : read t with
    | error es => exact .refused
    | ok e =>
      have hquiet := h.silent.mpr (Progress.finish_eq_ok_iff.mp he).1
      cases hd.symm.trans (Progress.finish_eq_ok_iff.mpr ⟨hquiet, rfl⟩)
  | ok d =>
    have hquiet := (Progress.finish_eq_ok_iff.mp hd).1
    specialize hp hquiet
    specialize hq (h.silent.mp hquiet)
    change (read s).map _ = _ at hp
    change (read t).map _ = _ at hq
    cases he : read t with
    | error es =>
      rw [he] at hq
      cases hq
    | ok e =>
      rw [hd, h.families] at hp
      rw [he] at hq
      have hde : d.map (·.plain) = e.map (·.plain) := Except.ok.inj (hp.trans hq.symm)
      exact .told hde (map_memberAt_congr hd he hde)

theorem SameReading.exists_document {d : Document} {r : Except (List Diagnostic) Document}
    (h : SameReading (.ok d) r) : ∃ e, r = .ok e ∧ d.length = e.length := by
  obtain _ | ⟨hde, -⟩ := h
  exact ⟨_, rfl, by simpa using congrArg List.length hde⟩

/-- A text at any offset has the same lines. -/
theorem map_rest_linesFrom (cs : List Char) (o o' : Nat) :
    (linesFrom o cs).map (·.rest) = (linesFrom o' cs).map (·.rest) := by
  induction cs generalizing o o' with
  | nil => rfl
  | cons c cs ih =>
    unfold linesFrom
    split
    · simpa using ih _ _
    · obtain ⟨⟨l, ls, hl, -⟩, -⟩ := linesFrom_apart (o + c.utf8Size) cs
      obtain ⟨⟨m, ms, hm, -⟩, -⟩ := linesFrom_apart (o' + c.utf8Size) cs
      have := ih (o + c.utf8Size) (o' + c.utf8Size)
      rw [hl, hm] at this ⊢
      simpa using this

/-- The lines of a text from an offset on, by what they say. -/
def contentsFrom (o : Nat) (text : String) : List Cursor := (linesFrom o text.toList).map content

section Insertion

variable {before comment after text : String} {o : Nat}

theorem map_rest_contentsFrom (text : String) (o o' : Nat) :
    (contentsFrom o text).map (·.rest) = (contentsFrom o' text).map (·.rest) := by
  rw [contentsFrom, contentsFrom, List.map_map, List.map_map]
  exact map_congr_of_map_eq (map_rest_linesFrom text.toList o o') fun c _ d _ h => by
    simp only [Function.comp_apply, content, Cursor.dropWhile, h]

theorem exists_contentsFrom (o : Nat) (text : String) : ∃ c cs, contentsFrom o text = c :: cs := by
  obtain ⟨⟨line, lines, hlines, -⟩, -⟩ := linesFrom_apart o text.toList
  exact ⟨_, _, by rw [contentsFrom, hlines, List.map_cons]⟩

theorem contents_append (before after : String) : contents (before ++ "\n" ++ after) =
    contents before ++ contentsFrom (bytes before.toList + 1) after := by
  have hl : (before ++ "\n" ++ after).toList = before.toList ++ '\n' :: after.toList := by simp
  rw [contents, hl, linesFrom_append, List.map_append, Nat.zero_add]
  rfl

theorem reached_append (before after : String) : reached (before ++ "\n" ++ after) =
    (contentsFrom (bytes before.toList + 1) after).foldl Progress.step (reached before) := by
  rw [reached, contents_append, List.foldl_append]
  rfl

/-- A line that says nothing closes the list of children. -/
theorem reached_of_line {line : String} (h : Line [] line.toList) :
    reached (before ++ "\n" ++ line) = (reached before).close := by
  rw [reached_append, contentsFrom, linesFrom_of_not_mem (newline_not_mem sayable_nil h)]
  exact Progress.step_of_blank (content_of_line sayable_nil h _)

theorem reached_blank {blank : String} (h : White blank.toList) :
    reached (before ++ "\n" ++ blank) = (reached before).close := by
  have hline : Line [] (blank.toList ++ [] ++ []) := .bare h white_nil
  rw [List.append_nil, List.append_nil] at hline
  exact reached_of_line hline

/-- A comment does to the state what a blank line does. -/
theorem reached_comment (hc : CommentLine comment) :
    reached (before ++ "\n" ++ comment) = (reached before).close := by
  obtain ⟨white, rest, hw, hr, hcomment⟩ := hc
  have hline : Line [] (white ++ [] ++ [] ++ '/' :: '/' :: rest) := .commented hw white_nil hr
  rw [List.append_nil, List.append_nil, ← hcomment] at hline
  exact reached_of_line hline

/-- After texts that lead to one state the same text says the same. -/
theorem sameReading_append {other : String} (h : reached before = reached other) :
    SameReading (read (before ++ "\n" ++ after)) (read (other ++ "\n" ++ after)) := by
  refine .of_alike ?_
  rw [reached_append, reached_append, h]
  exact (Progress.Alike.refl _).foldl (map_rest_contentsFrom after _ _)

theorem goesOn_iff {c : Cursor} {cs : List Cursor} (h : contentsFrom o after = c :: cs) :
    GoesOn before after ↔ (reached before).collecting ∧ c.rest ≠ [] ∧ ¬isRelation c.rest := by
  have hrest := map_rest_contentsFrom after 0 o
  rw [h, List.map_cons, List.map_eq_cons_iff] at hrest
  obtain ⟨d, ds, hd, hdc, -⟩ := hrest
  have hhead : (contents after).head? = some d := by
    rw [show contents after = contentsFrom 0 after from rfl, hd, List.head?_cons]
  simp [GoesOn, hhead, hdc]

/-- A comment between two lines says what a blank line says there. It changes nothing of what a text
says but where a list of children goes on below it. There it always does, in every text that can be
read: what follows it is no child any more. -/
theorem sameReading_comment (hc : CommentLine comment) :
    (∀ blank : String, White blank.toList →
      SameReading (read (before ++ "\n" ++ comment ++ "\n" ++ after))
        (read (before ++ "\n" ++ blank ++ "\n" ++ after))) ∧
    (¬GoesOn before after →
      SameReading (read (before ++ "\n" ++ after))
        (read (before ++ "\n" ++ comment ++ "\n" ++ after))) ∧
    (GoesOn before after → ∀ d, read (before ++ "\n" ++ after) = .ok d →
      ¬SameReading (read (before ++ "\n" ++ after))
        (read (before ++ "\n" ++ comment ++ "\n" ++ after))) := by
  refine ⟨fun blank hb => sameReading_append ((reached_comment hc).trans (reached_blank hb).symm), ?_⟩
  have hs := reached_append before after
  have ht := reached_append (before ++ "\n" ++ comment) after
  rw [reached_comment hc] at ht
  obtain ⟨c, cs, hcs⟩ := exists_contentsFrom (bytes before.toList + 1) after
  obtain ⟨d, ds, hds⟩ :=
    exists_contentsFrom (bytes (before ++ "\n" ++ comment).toList + 1) after
  have hrest := map_rest_contentsFrom after (bytes before.toList + 1)
    (bytes (before ++ "\n" ++ comment).toList + 1)
  rw [hcs, hds, List.map_cons, List.map_cons, List.cons.injEq] at hrest
  rw [hcs, List.foldl_cons] at hs
  rw [hds, List.foldl_cons] at ht
  rw [goesOn_iff hcs]
  constructor
  · intro hn
    suffices hstep : ((reached before).step c).Alike ((reached before).close.step d) by
      refine .of_alike ?_
      rw [hs, ht]
      exact hstep.foldl hrest.2
    by_cases hk : (reached before).collecting
    · have hother : c.rest = [] ∨ isRelation c.rest :=
        or_iff_not_imp_left.mpr fun hne => by_contra fun hr => hn ⟨hk, hne, hr⟩
      rw [Progress.step_close (hrest.1 ▸ hother)]
      exact (Progress.Alike.refl _).step hrest.1
    · rw [Progress.close_eq_self (Bool.eq_false_iff.mpr hk)]
      exact (Progress.Alike.refl _).step hrest.1
  · rintro ⟨hk, hne, hr⟩ document hd hsame
    have hfamilies := Progress.families_ne_nil_foldl (p := .start) (by simp [Progress.start]) _ hk
    rw [hd] at hsame
    obtain ⟨other, he, hlength⟩ := hsame.exists_document
    have hd := (Progress.finish_eq_ok_iff (p := reached _)).mp hd
    have he := (Progress.finish_eq_ok_iff (p := reached _)).mp he
    obtain hout | hfault := Progress.outgrown_close hk hfamilies hrest.1 hne hr
    · have hlt := (hout.foldl hrest.2).lt
      rw [← hs, ← ht] at hlt
      rw [hd.2, he.2] at hlength
      simp only [List.length_map, List.length_reverse] at hlength
      omega
    · exact Progress.diagnostics_ne_nil_foldl hfault ds (ht ▸ he.1)

/-- A comment between a header and a relation. -/
theorem sameReading_comment_below_header : CommentLine " // since 1900" ∧
    ¬GoesOn "Lee" "May = Ann\n" ∧
    SameReading (read ("Lee" ++ "\n" ++ "May = Ann\n"))
      (read ("Lee" ++ "\n" ++ " // since 1900" ++ "\n" ++ "May = Ann\n")) := by
  have hc : CommentLine " // since 1900" :=
    ⟨[' '], " since 1900".toList, by decide, by decide, by decide⟩
  have hn : ¬GoesOn "Lee" "May = Ann\n" := by decide +kernel
  exact ⟨hc, hn, (sameReading_comment hc).2.1 hn⟩

/-- A comment above the first child: the child becomes a family. -/
theorem not_sameReading_comment_above_child : CommentLine "// c" ∧
    (∃ d, read ("S\nA =" ++ "\n" ++ "B\n") = .ok d ∧
      d.map (·.plain) = [⟨"S", [], [⟨[.words "A" none], [.words "B" none], true⟩]⟩]) ∧
    (∃ d, read ("S\nA =" ++ "\n" ++ "// c" ++ "\n" ++ "B\n") = .ok d ∧
      d.map (·.plain) = [⟨"S", [], [⟨[.words "A" none], [], true⟩]⟩, ⟨"B", [], []⟩]) ∧
    ¬SameReading (read ("S\nA =" ++ "\n" ++ "B\n"))
      (read ("S\nA =" ++ "\n" ++ "// c" ++ "\n" ++ "B\n")) := by
  have hc : CommentLine "// c" := ⟨[], " c".toList, by decide, by decide, by decide⟩
  have hs : ∃ d, read ("S\nA =" ++ "\n" ++ "B\n") = .ok d ∧
      d.map (·.plain) = [⟨"S", [], [⟨[.words "A" none], [.words "B" none], true⟩]⟩] :=
    Checked.exists_of_toOption_map_decide (by decide +kernel)
  have ht : ∃ d, read ("S\nA =" ++ "\n" ++ "// c" ++ "\n" ++ "B\n") = .ok d ∧
      d.map (·.plain) = [⟨"S", [], [⟨[.words "A" none], [], true⟩]⟩, ⟨"B", [], []⟩] :=
    Checked.exists_of_toOption_map_decide (by decide +kernel)
  refine ⟨hc, hs, ht, fun hsame => ?_⟩
  obtain ⟨d, hd, hplain⟩ := hs
  obtain ⟨e, he, hplain'⟩ := ht
  rw [hd] at hsame
  obtain ⟨e', he', hlength⟩ := hsame.exists_document
  obtain rfl := Except.ok.inj (he.symm.trans he')
  have hone : d.length = 1 := by simpa using congrArg List.length hplain
  have htwo : e.length = 2 := by simpa using congrArg List.length hplain'
  omega

end Insertion

end Pedigree.Markup
