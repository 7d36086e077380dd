import Pedigree.Proofs.Grammar

/-! Where mentions stand. Every person of a line takes something of it, a line ends before the next one
starts, and the state of the reader gains mentions only at its end. So in a document the mentions stand
in the order of the text, each at an offset of its own. -/
namespace Pedigree.Markup

open Spelling

theorem bytes_pos {cs : List Char} (h : cs ≠ []) : 0 < bytes cs := by
  obtain ⟨c, cs, rfl⟩ := List.exists_cons_of_ne_nil h
  have := c.utf8Size_pos
  simp
  omega

/-! ### Mentions in order -/

/-- Mentions that follow each other between two offsets. -/
structure Ranged (first stop : Nat) (ms : List Mention) : Prop where
  le : first ≤ stop
  ascending : ms.Pairwise fun m n => m.span.start < n.span.start
  first_le : ∀ m ∈ ms, first ≤ m.span.start
  lt_stop : ∀ m ∈ ms, m.span.start < stop

namespace Ranged

variable {i j k l : Nat} {ms ns : List Mention}

theorem nil (h : i ≤ j) : Ranged i j [] := ⟨h, .nil, by simp, by simp⟩

theorem append (h : Ranged i j ms) (h' : Ranged j k ns) : Ranged i k (ms ++ ns) where
  le := Nat.le_trans h.le h'.le
  ascending := List.pairwise_append.mpr ⟨h.ascending, h'.ascending, fun m hm n hn =>
    Nat.lt_of_lt_of_le (h.lt_stop m hm) (h'.first_le n hn)⟩
  first_le := List.forall_mem_append.mpr
    ⟨h.first_le, fun n hn => Nat.le_trans h.le (h'.first_le n hn)⟩
  lt_stop := List.forall_mem_append.mpr
    ⟨fun m hm => Nat.lt_of_lt_of_le (h.lt_stop m hm) h'.le, h'.lt_stop⟩

theorem mono (h : Ranged j k ms) (hi : i ≤ j) (hl : k ≤ l) : Ranged i l ms := by
  simpa using ((nil hi).append h).append (nil hl)

end Ranged

/-! ### The mentions of a line -/

namespace Grammar

variable {o : Nat} {separator : Char} {ms : List Mention} {cs : List Char}

theorem ranged_of_spaced {m : Mention} (h : Spaced Mentions o m cs) :
    Ranged o (o + bytes cs) [m] := by
  obtain @⟨before, cs, after, -, hm, -⟩ := h
  have hpos := bytes_pos hm.wording.ne_nil
  have hstart := hm.start
  simp only [bytes_append]
  exact ⟨by omega, List.pairwise_singleton _ _, by simp; omega, by simp; omega⟩

theorem ranged_of_people (h : People separator o ms cs) : Ranged o (o + bytes cs) ms := by
  induction h with
  | one h => exact ranged_of_spaced h
  | more h _ ih => exact (ranged_of_spaced h).append (ih.mono (by simp) (by simp; omega))

end Grammar

namespace Line

open Grammar

variable {c : Cursor}

theorem ranged_of_relation {ss : List Mention} {b : Bool} {ts : Option (List Mention)}
    (h : relation c = .ok (ss, b, ts)) : Ranged c.offset c.stop (ss ++ ts.getD []) := by
  have hline := relationLine_of_relation h
  unfold Cursor.stop
  generalize c.rest = cs at hline
  cases hline with
  | bare hs _ => simpa using (ranged_of_people hs).mono (Nat.le_refl _) (by simp)
  | full hs ht =>
    exact (ranged_of_people hs).append ((ranged_of_people ht).mono (by simp) (by simp; omega))

theorem ranged_of_children {ts : List Mention} (h : children c = .ok ts) :
    Ranged c.offset c.stop ts := by
  have hline := childLine_of_children h
  unfold Cursor.stop
  generalize c.rest = cs at hline
  cases hline with
  | plain ht => exact ranged_of_people ht
  | numbered _ _ ht => exact (ranged_of_people ht).mono (by simp) (by simp; omega)

end Line

/-! ### Parts of a text -/

/-- No word follows, not even behind blanks. -/
def Closed (t : List Char) : Prop := EndsName (t.dropWhile CharClass.isBlank)

section Closings

variable {t u : List Char}

theorem closed_nil : Closed [] := by simp [Closed, EndsName]

theorem closed_of_forall (h : ∀ c ∈ t, CharClass.isName c = false) : Closed t :=
  fun c hc => h c ((List.dropWhile_sublist _).mem (List.mem_of_mem_head? hc))

theorem closed_of_blank (h : Blank t) : Closed t :=
  closed_of_forall fun c hc => not_isName_of_isBlank (h c hc)

theorem Stops.closed (h : Stops t) : Closed t := by
  have hblank : Blank [] := List.forall_mem_nil _
  have ht : t.dropWhile CharClass.isBlank = t := dropWhile_append_of_head hblank h.2
  rw [Closed, ht]
  exact h.1

theorem Closed.append (h : Closed t) (h' : Closed u) : Closed (t ++ u) := by
  unfold Closed at h ⊢
  rw [List.dropWhile_append]
  split
  · exact h'
  · next hne =>
    obtain ⟨c, cs, hcs⟩ := List.exists_cons_of_ne_nil (mt List.isEmpty_iff.mpr hne)
    rw [hcs] at h ⊢
    exact h

end Closings

/-- A part of a text at its place in it, cut off where no word follows. -/
def Cursor.Includes (c d : Cursor) : Prop :=
  ∃ before after, c.rest = before ++ d.rest ++ after ∧ d.offset = c.offset + bytes before ∧
    Closed after

namespace Cursor

variable {c d e : Cursor} {cs after : List Char}

theorem Includes.trans (h : c.Includes d) (h' : d.Includes e) : c.Includes e := by
  obtain ⟨before, after, hr, ho, hc⟩ := h
  obtain ⟨before', after', hr', ho', hc'⟩ := h'
  refine ⟨before ++ before', after' ++ after, by simp [hr, hr'], ?_, hc'.append hc⟩
  rw [ho', ho, bytes_append, Nat.add_assoc]

theorem Includes.of_rest_eq (hr : c.rest = cs ++ after) (hc : Closed after) :
    c.Includes ⟨c.offset, cs⟩ :=
  ⟨[], after, hr, rfl, hc⟩

theorem Passes.includes (h : c.Passes cs d) : c.Includes d :=
  ⟨cs, [], by rw [h.rest, List.append_nil], h.offset, closed_nil⟩

theorem Includes.inside (h : c.Includes d) : c.offset ≤ d.offset ∧ d.stop ≤ c.stop := by
  obtain ⟨before, after, hr, ho, -⟩ := h
  refine ⟨ho ▸ Nat.le_add_right _ _, ?_⟩
  simp only [stop, hr, ho, bytes_append]
  omega

end Cursor

/-! ### Lines of a text -/

theorem exists_beforeComment (cs : List Char) :
    ∃ after, cs = beforeComment cs ++ after ∧ Closed after := by
  fun_induction beforeComment cs with
  | case1 => exact ⟨[], rfl, closed_nil⟩
  | case2 comment =>
    exact ⟨'/' :: '/' :: comment, rfl, (stops_cons (by decide) (by decide) _).closed⟩
  | case3 c cs _ ih =>
    obtain ⟨after, he, hc⟩ := ih
    exact ⟨after, congrArg (c :: ·) he, hc⟩

theorem exists_trimRight (cs : List Char) : ∃ after, cs = trimRight cs ++ after ∧ Closed after := by
  refine ⟨(cs.reverse.takeWhile CharClass.isSpace).reverse, ?_, closed_of_forall fun c hc => ?_⟩
  · rw [trimRight, ← List.reverse_append, List.takeWhile_append_dropWhile, List.reverse_reverse]
  · have hs := List.mem_takeWhile_imp (List.mem_reverse.mp hc)
    by_contra hn
    rw [CharClass.not_isSpace_of_isName (Bool.not_eq_false _ ▸ hn)] at hs
    cases hs

theorem includes_content (line : Cursor) : line.Includes (content line) := by
  obtain ⟨comment, hcomment, hc⟩ := exists_beforeComment line.rest
  have htold := Cursor.Includes.of_rest_eq hcomment hc
  let told : Cursor := ⟨line.offset, beforeComment line.rest⟩
  have hleft : told.Includes (told.dropWhile CharClass.isSpace) :=
    (told.passes_dropWhile CharClass.isSpace).includes
  obtain ⟨space, hspace, hs⟩ := exists_trimRight (told.dropWhile CharClass.isSpace).rest
  exact (htold.trans hleft).trans (.of_rest_eq hspace hs)

/-- A line ends before the next one starts, by its line end. -/
theorem linesFrom_apart (o : Nat) (cs : List Char) :
    (∃ line lines, linesFrom o cs = line :: lines ∧ line.offset = o) ∧
      (∀ line ∈ linesFrom o cs, o ≤ line.offset) ∧
      (linesFrom o cs).Pairwise fun c d => c.stop < d.offset := by
  induction cs generalizing o with
  | nil => simp [linesFrom]
  | cons c cs ih =>
    unfold linesFrom
    split
    · obtain ⟨-, hle, hp⟩ := ih (o + 1)
      refine ⟨⟨_, _, rfl, rfl⟩, ?_, ?_⟩
      · refine List.forall_mem_cons.mpr ⟨Nat.le_refl _, fun line hl => ?_⟩
        have := hle line hl
        omega
      · exact List.pairwise_cons.mpr ⟨fun line hl => hle line hl, hp⟩
    · obtain ⟨⟨line, lines, hlines, ho⟩, hle, hp⟩ := ih (o + c.utf8Size)
      rw [hlines] at hle hp ⊢
      rw [List.pairwise_cons] at hp
      rw [List.forall_mem_cons] at hle
      refine ⟨⟨_, _, rfl, rfl⟩, ?_, ?_⟩
      · refine List.forall_mem_cons.mpr ⟨Nat.le_refl _, fun d hd => ?_⟩
        have := hle.2 d hd
        omega
      · refine List.pairwise_cons.mpr ⟨fun d hd => ?_, hp.2⟩
        have hstop : (⟨o, c :: line.rest⟩ : Cursor).stop = line.stop := by
          simp [Cursor.stop, ho, Nat.add_assoc]
        exact hstop ▸ hp.1 d hd

theorem includes_linesFrom (o : Nat) (cs : List Char) :
    ∀ line ∈ linesFrom o cs, Cursor.Includes ⟨o, cs⟩ line := by
  induction cs generalizing o with
  | nil =>
    rw [linesFrom, List.forall_mem_singleton]
    exact ⟨[], [], rfl, rfl, closed_nil⟩
  | cons c cs ih =>
    have later {d : Nat} (hd : d = c.utf8Size) {line : Cursor}
        (h : Cursor.Includes ⟨o + d, cs⟩ line) : Cursor.Includes ⟨o, c :: cs⟩ line := by
      obtain ⟨before, after, hr, ho, hc⟩ := h
      exact ⟨c :: before, after, by simpa using hr, by simpa [hd, Nat.add_assoc] using ho, hc⟩
    unfold linesFrom
    split
    · next hc =>
      have hend : Closed (c :: cs) := hc ▸ (stops_cons (by decide) (by decide) cs).closed
      refine List.forall_mem_cons.mpr ⟨⟨[], c :: cs, rfl, rfl, hend⟩, fun line hl => ?_⟩
      exact later (d := 1) (by rw [hc]; rfl) (ih _ line hl)
    · obtain ⟨⟨line, lines, hlines, ho⟩, -, -⟩ := linesFrom_apart (o + c.utf8Size) cs
      have hrest := ih (o + c.utf8Size)
      rw [hlines, List.forall_mem_cons] at hrest
      rw [hlines]
      refine List.forall_mem_cons.mpr ⟨?_, fun d hd => later rfl (hrest.2 d hd)⟩
      obtain ⟨before, after, hr, hb, hend⟩ := hrest.1
      have hnil : before = [] := by
        by_contra hne
        have := bytes_pos hne
        dsimp only at hb
        omega
      subst hnil
      exact ⟨[], after, congrArg (c :: ·) hr, rfl, hend⟩

theorem includes_contents (source : String) :
    ∀ c ∈ contents source, Cursor.Includes ⟨0, source.toList⟩ c :=
  List.forall_mem_map.mpr fun line hl =>
    (includes_linesFrom 0 source.toList line hl).trans (includes_content line)

theorem contents_apart (source : String) :
    (contents source).Pairwise fun c d => c.stop < d.offset := by
  refine List.pairwise_map.mpr ((linesFrom_apart 0 source.toList).2.2.imp fun {c d} h => ?_)
  have hc := (includes_content c).inside.2
  have hd := (includes_content d).inside.1
  omega

/-! ### The state of the reader -/

def Relation.mentions (r : Relation) : List Mention := r.sources ++ r.targets

/-- The mentions of a document in the order of the text. -/
def mentions (document : Document) : List Mention :=
  document.flatMap fun f => f.relations.flatMap (·.mentions)

namespace Progress

/-- The mentions read so far. -/
def mentions (p : Progress) : List Mention :=
  p.families.reverse.flatMap fun f => f.relations.reverse.flatMap (·.mentions)

variable {p : Progress} {c : Cursor} {n : Nat}

/-- What the families may be after a line: those before it, with a relation more in the latest one, with
children more in the latest relation, or with a family more. -/
inductive Gains (p : Progress) (c : Cursor) : List Family → Prop where
  | nothing : Gains p c p.families
  | relation {span : Span} {f : Family} {fs : List Family} {ss : List Mention} {isUnion : Bool}
      {ts : Option (List Mention)} : p.families = f :: fs →
      Line.relation c = .ok (ss, isUnion, ts) →
      Gains p c ({ f with relations := ⟨span, ss, ts.getD [], isUnion⟩ :: f.relations } :: fs)
  | children {span : Span} {ts : List Mention} : Line.children c = .ok ts →
      Gains p c (adopt span ts p.families)
  | header {span : Span} {surname : String} {others : List String} :
      Line.header c = .ok (surname, others) →
      Gains p c (⟨span, surname, others, []⟩ :: p.families)

theorem gains_step (p : Progress) (c : Cursor) : p.Gains c (p.step c).families := by
  unfold step
  dsimp only
  split
  · exact .nothing
  · split
    · unfold readRelation
      split
      · exact .nothing
      · next hf =>
        split
        · next hl => exact .relation hf hl
        · exact .nothing
    · split
      · unfold readChildren
        split
        · next hl => exact .children hl
        · exact .nothing
      · unfold readHeader
        split
        · next hl => exact .header hl
        · exact .nothing

theorem mentions_adopt (p : Progress) (span : Span) (children : List Mention) :
    ({ p with families := adopt span children p.families } : Progress).mentions = p.mentions ∨
      ({ p with families := adopt span children p.families } : Progress).mentions =
        p.mentions ++ children := by
  obtain ⟨families, diagnostics, collecting⟩ := p
  cases families with
  | nil => exact .inl rfl
  | cons f fs =>
    obtain ⟨fspan, name, aliases, relations⟩ := f
    cases relations with
    | nil => exact .inl rfl
    | cons r rs => exact .inr (by simp [mentions, adopt, Relation.mentions])

/-- A line adds mentions at the end, those of a relation or of a list of children. -/
theorem mentions_step (p : Progress) (c : Cursor) : (p.step c).mentions = p.mentions ∨
    (∃ ss isUnion ts, Line.relation c = .ok (ss, isUnion, ts) ∧
      (p.step c).mentions = p.mentions ++ (ss ++ ts.getD [])) ∨
    ∃ ts, Line.children c = .ok ts ∧ (p.step c).mentions = p.mentions ++ ts := by
  have h := p.gains_step c
  have hm : (p.step c).mentions =
      ({ p with families := (p.step c).families } : Progress).mentions := rfl
  rw [hm]
  generalize (p.step c).families = families at h
  cases h with
  | nothing => exact .inl rfl
  | @relation span f fs ss isUnion ts hf hl =>
    exact .inr (.inl ⟨ss, isUnion, ts, hl, by simp [mentions, hf, Relation.mentions]⟩)
  | @children span ts hl => exact (p.mentions_adopt span ts).imp_right fun h => .inr ⟨ts, hl, h⟩
  | header => exact .inl (by simp [mentions])

/-- The mentions that a line adds stand in it. -/
theorem ranged_step (h : Ranged 0 n p.mentions) (hc : n ≤ c.offset) :
    Ranged 0 c.stop (p.step c).mentions := by
  have old : Ranged 0 c.offset p.mentions := h.mono (Nat.le_refl _) hc
  obtain he | ⟨ss, isUnion, ts, hl, he⟩ | ⟨ts, hl, he⟩ := p.mentions_step c
  · rw [he]
    exact old.mono (Nat.le_refl _) (Nat.le_add_right _ _)
  · rw [he]
    exact old.append (Line.ranged_of_relation hl)
  · rw [he]
    exact old.append (Line.ranged_of_children hl)

theorem ranged_foldl {cs : List Cursor} (h : Ranged 0 n p.mentions)
    (hcs : cs.Pairwise fun c d => c.stop ≤ d.offset) (hn : ∀ c ∈ cs, n ≤ c.offset) :
    (cs.foldl step p).mentions.Pairwise fun a b => a.span.start < b.span.start := by
  induction cs generalizing p n with
  | nil => exact h.ascending
  | cons c cs ih =>
    rw [List.pairwise_cons] at hcs
    rw [List.forall_mem_cons] at hn
    exact ih (ranged_step h hn.1) hcs.2 hcs.1

theorem mentions_of_finish {document : Document} (h : p.finish = .ok document) :
    Markup.mentions document = p.mentions := by
  unfold finish at h
  split at h
  · cases h
    simp only [Markup.mentions, mentions, List.flatMap_map]
  · cases h

end Progress

/-- In a document that was read the mentions stand in the order of the text, no two of them at one
offset. -/
theorem mentions_ascending {source : String} {document : Document}
    (h : read source = .ok document) :
    (mentions document).Pairwise fun m n => m.span.start < n.span.start := by
  rw [Progress.mentions_of_finish h]
  exact Progress.ranged_foldl (n := 0) (.nil (Nat.le_refl 0))
    ((contents_apart source).imp Nat.le_of_lt) (by simp)

end Pedigree.Markup
