import Pedigree.Proofs.Offsets

/-! The reader understands every way of writing a document. What a line says is found again whatever
stands around it, since it is made of few characters and has nothing to trim at its ends. The state
after some lines is then told by what the lines say. -/
namespace Pedigree

namespace Markup

open Spelling

/-! ### The characters of a line -/

section Characters

variable {extra cs ds : List Char}

theorem made_of_items {Item : β → List Char → Prop} {separator : Char}
    (hi : ∀ x cs, Item x cs → Made extra cs) (hs : separator ∈ extra) {xs : List β}
    (h : Items Item separator xs cs) : Made extra cs := by
  induction h with
  | one h => exact hi _ _ h
  | @more _ _ _ _ after ds h hb ha _ ih =>
    simp [hi _ _ h, made_of_blank hb, made_of_blank ha, hs, ih]

/-- Nothing to trim at either end. -/
structure Solid (cs : List Char) : Prop where
  first : ∃ c ds, cs = c :: ds ∧ CharClass.isSpace c = false
  last : ∃ ds c, cs = ds ++ [c] ∧ CharClass.isSpace c = false

theorem Solid.ne_nil (h : Solid cs) : cs ≠ [] := by
  obtain ⟨c, ds, rfl, -⟩ := h.first
  simp

theorem Solid.singleton {c : Char} (h : CharClass.isSpace c = false) : Solid [c] :=
  ⟨⟨c, [], rfl, h⟩, ⟨[], c, rfl, h⟩⟩

theorem Solid.join (hc : Solid cs) (hd : Solid ds) (mid : List Char) : Solid (cs ++ (mid ++ ds)) := by
  obtain ⟨c, cs', rfl, hc'⟩ := hc.first
  obtain ⟨ds', d, rfl, hd'⟩ := hd.last
  exact ⟨⟨c, _, List.cons_append, hc'⟩, ⟨c :: cs' ++ (mid ++ ds'), d, by simp, hd'⟩⟩

theorem solid_of_forall (hne : cs ≠ []) (h : ∀ c ∈ cs, CharClass.isSpace c = false) :
    Solid cs := by
  obtain ⟨c, ds, rfl⟩ := List.exists_cons_of_ne_nil hne
  refine ⟨⟨c, ds, rfl, h c (by simp)⟩, ⟨_, _, (List.dropLast_concat_getLast hne).symm, ?_⟩⟩
  exact h _ (List.getLast_mem hne)

theorem solid_of_name {s : String} (h : Name s cs) : Solid cs := by
  obtain ⟨hne, hn⟩ := h
  exact solid_of_forall hne fun c hc => CharClass.not_isSpace_of_isName (hn c hc)

theorem solid_of_person {w : Wording} (h : Person w cs) : Solid cs := by
  cases h with
  | unknown => exact .singleton (by decide)
  | one h => exact solid_of_name h
  | two h _ _ h' =>
    rw [List.append_assoc]
    exact (solid_of_name h).join (solid_of_name h') _

theorem solid_of_items {Item : β → List Char → Prop} {separator : Char}
    (hi : ∀ x cs, Item x cs → Solid cs) {xs : List β} (h : Items Item separator xs cs) :
    Solid cs := by
  induction h with
  | one h => exact hi _ _ h
  | @more _ _ cs before after ds h _ _ _ ih =>
    simpa using (hi _ _ h).join ih (before ++ separator :: after)

theorem solid_of_opening {r : Plain.Relation} (h : Opening r cs) : Solid cs := by
  obtain @⟨cs, gap, hi, -⟩ := h
  have ho : Solid (operator r.isUnion) := by
    cases r.isUnion with
    | true => exact .singleton (by decide)
    | false => exact ⟨⟨'-', ['>'], rfl, by decide⟩, ⟨['-'], '>', rfl, by decide⟩⟩
  rw [List.append_assoc]
  exact (solid_of_items (fun _ _ => solid_of_person) hi).join ho _

theorem made_of_opening {r : Plain.Relation} (h : Opening r cs) :
    Made ['?', '+', '=', '-', '>'] cs := by
  obtain @⟨cs, gap, hi, hg⟩ := h
  have hc : Made ['?', '+'] cs :=
    made_of_items (fun _ _ h => (made_of_person h).mono (by simp)) (by simp) hi
  have ho : Made ['?', '+', '=', '-', '>'] (operator r.isUnion) := by
    cases r.isUnion <;> simp [operator, Made]
  simp [hc.mono, made_of_blank hg, ho]

theorem solid_of_targets {ws : List Wording} (h : Items Person ',' ws cs) : Solid cs :=
  solid_of_items (fun _ _ => solid_of_person) h

theorem made_of_targets {ws : List Wording} (h : Items Person ',' ws cs) : Made ['?', ','] cs :=
  made_of_items (fun _ _ h => (made_of_person h).mono (by simp)) (by simp) h

theorem solid_of_inline {r : Plain.Relation} (h : Inline r cs) : Solid cs := by
  obtain @⟨cs, gap, ds, ho, -, hi⟩ := h
  rw [List.append_assoc]
  exact (solid_of_opening ho).join (solid_of_targets hi) _

theorem made_of_inline {r : Plain.Relation} (h : Inline r cs) :
    Made ['?', '+', '=', '-', '>', ','] cs := by
  obtain @⟨cs, gap, ds, ho, hg, hi⟩ := h
  simp [(made_of_opening ho).mono, made_of_blank hg, (made_of_targets hi).mono]

theorem solid_of_children {ws : List Wording} (h : Children ws cs) : Solid cs := by
  obtain @⟨number, cs, hn, hi⟩ := h
  cases hn with
  | none => exact solid_of_targets hi
  | @digits ds gap hne hd _ =>
    have hs : Solid ds := solid_of_forall hne fun c hc =>
      CharClass.not_isSpace_of_isName (isName_of_isDigit (hd c hc))
    simpa using hs.join (solid_of_targets hi) ('.' :: gap)

theorem made_of_children {ws : List Wording} (h : Children ws cs) : Made ['?', ',', '.'] cs := by
  obtain @⟨number, cs, hn, hi⟩ := h
  have hc : Made ['?', ',', '.'] cs := (made_of_targets hi).mono (by simp)
  cases hn with
  | none => exact hc
  | @digits ds gap _ hd hg =>
    have hds : Made ['?', ',', '.'] ds := fun c hc => .inl (isName_of_isDigit (hd c hc))
    simp [hc, hds, made_of_blank hg]

theorem solid_of_header {f : Plain.Family} (h : Header f cs) : Solid cs := by
  cases h with
  | bare h => exact solid_of_name h
  | @aliased cs gap before ds after h =>
    have hp : Solid [')'] := .singleton (by decide)
    simpa using (solid_of_name h).join hp (gap ++ '(' :: (before ++ ds ++ after))

theorem made_of_header {f : Plain.Family} (h : Header f cs) : Made ['(', ')', ','] cs := by
  cases h with
  | bare h => exact made_of_name h
  | aliased h hg hb hi ha =>
    have hi : Made [','] _ := made_of_items (fun _ _ => made_of_name) (by simp) hi
    simp [made_of_name h, made_of_blank hg, made_of_blank hb, hi.mono, made_of_blank ha]

end Characters

/-! ### Lines as the grammar has them -/

section Grammars

open Grammar

variable {cs before after : List Char} {separator : Char}

/-- Items stand somewhere in a line, and so does each of them. -/
theorem exists_separated {Item : β → List Char → Prop} {Placed : Nat → α → List Char → Prop}
    {f : α → β} (hi : ∀ x cs, Item x cs → ∀ o, ∃ y, f y = x ∧ Placed o y cs) {xs : List β}
    (h : Items Item separator xs cs) (hb : Blank before) (ha : Blank after) (o : Nat) :
    ∃ ys, ys.map f = xs ∧ Separated (Spaced Placed) separator o ys (before ++ cs ++ after) := by
  induction h generalizing before o with
  | one h =>
    obtain ⟨y, rfl, hy⟩ := hi _ _ h (o + bytes before)
    exact ⟨[y], rfl, .one (.item hb hy ha)⟩
  | @more x xs cs left right ds h hl hr _ ih =>
    obtain ⟨y, rfl, hy⟩ := hi _ _ h (o + bytes before)
    obtain ⟨ys, rfl, hys⟩ := ih hr (o + bytes (before ++ cs ++ left ++ [separator]))
    exact ⟨y :: ys, rfl, by simpa using Separated.more (.item hb hy hl) hys⟩

theorem exists_people {ws : List Wording} (h : Items Person separator ws cs) (hb : Blank before)
    (ha : Blank after) (o : Nat) : ∃ ms : List Mention, ms.map (·.wording) = ws ∧
      People separator o ms (before ++ cs ++ after) :=
  exists_separated (fun w cs h o => ⟨⟨⟨o, o + bytes cs, by omega⟩, w⟩, rfl, h, rfl, rfl⟩) h hb ha o

theorem words_of_items {ss : List String} (h : Items Name ',' ss cs) (hb : Blank before)
    (ha : Blank after) (o : Nat) : Words o ss (before ++ cs ++ after) := by
  obtain ⟨ys, rfl, hw⟩ : ∃ ys, ys.map id = ss ∧ Words o ys (before ++ cs ++ after) :=
    exists_separated (fun s _ h _ => ⟨s, rfl, h⟩) h hb ha o
  rwa [List.map_id]

theorem relation_of_opening {r : Plain.Relation} (h : Opening r cs) (o : Nat) :
    ∃ ms : List Mention, ms.map (·.wording) = r.sources ∧
      Line.relation ⟨o, cs⟩ = .ok (ms, r.isUnion, none) := by
  obtain @⟨cs, gap, hi, hg⟩ := h
  obtain ⟨ms, hms, hp⟩ := exists_people hi blank_nil hg o
  refine ⟨ms, hms, Line.relation_of_relationLine ?_⟩
  simpa using RelationLine.bare hp blank_nil

theorem relation_of_inline {r : Plain.Relation} (h : Inline r cs) (o : Nat) :
    ∃ ms ns : List Mention, ms.map (·.wording) = r.sources ∧ ns.map (·.wording) = r.targets ∧
      Line.relation ⟨o, cs⟩ = .ok (ms, r.isUnion, some ns) := by
  obtain @⟨_, gap, ds, @⟨cs, between, hi, hg⟩, hg', ht⟩ := h
  obtain ⟨ms, hms, hp⟩ := exists_people hi blank_nil hg o
  obtain ⟨ns, hns, hq⟩ := exists_people ht hg' blank_nil
    (o + bytes ([] ++ cs ++ between ++ operator r.isUnion))
  refine ⟨ms, ns, hms, hns, Line.relation_of_relationLine ?_⟩
  simpa using RelationLine.full hp hq

theorem children_eq_ok {ws : List Wording} (h : Children ws cs) (o : Nat) :
    ∃ ms : List Mention, ms.map (·.wording) = ws ∧ Line.children ⟨o, cs⟩ = .ok ms := by
  obtain @⟨number, cs, hn, hi⟩ := h
  cases hn with
  | none =>
    obtain ⟨ms, hms, hp⟩ := exists_people hi blank_nil blank_nil o
    exact ⟨ms, hms, Line.children_of_childLine (by simpa using ChildLine.plain hp)⟩
  | @digits ds gap hne hd hg =>
    obtain ⟨ms, hms, hp⟩ := exists_people hi hg blank_nil (o + bytes (ds ++ ['.']))
    exact ⟨ms, hms, Line.children_of_childLine (by simpa using ChildLine.numbered hne hd hp)⟩

theorem header_eq_ok {f : Plain.Family} (h : Header f cs) (o : Nat) :
    Line.header ⟨o, cs⟩ = .ok (f.name, f.aliases) := by
  apply Line.header_of_headerLine
  cases h with
  | bare h ha => simpa [ha] using HeaderLine.bare (o := o) h blank_nil
  | aliased h hg hb hi ha =>
    simpa using HeaderLine.aliased (o := o) h hg (words_of_items hi hb ha _) blank_nil

end Grammars

/-! ### What a line says -/

section Lines

variable {cs ds core line : List Char}

theorem beforeComment_cons {c : Char} (hc : '/' ≠ c) (cs : List Char) :
    beforeComment (c :: cs) = c :: beforeComment cs := by
  rw [beforeComment]
  intro _ h
  exact absurd h.symm hc

theorem beforeComment_eq_self (h : '/' ∉ cs) : beforeComment cs = cs := by
  induction cs with
  | nil => rfl
  | cons c cs ih =>
    rw [List.mem_cons, not_or] at h
    rw [beforeComment_cons h.1, ih h.2]

theorem beforeComment_append (h : '/' ∉ cs) (comment : List Char) :
    beforeComment (cs ++ '/' :: '/' :: comment) = cs := by
  induction cs with
  | nil => rfl
  | cons c cs ih =>
    rw [List.mem_cons, not_or] at h
    rw [List.cons_append, beforeComment_cons h.1, ih h.2]

/-- What may stand in a line: nothing, or something that trimming leaves alone. -/
def Sayable (core : List Char) : Prop := '/' ∉ core ∧ '\n' ∉ core ∧ (core = [] ∨ Solid core)

theorem trimRight_append (hw : White ds) (hc : Solid core) : trimRight (core ++ ds) = core := by
  obtain ⟨cs, c, rfl, hs⟩ := hc.last
  rw [trimRight, List.reverse_append, dropWhile_append_of_head]
  · simp
  · exact fun d hd => (hw d (List.mem_reverse.mp hd)).1
  · simpa using hs

theorem trim_eq {before after : List Char} (hb : White before) (ha : White after)
    (hc : core = [] ∨ Solid core) :
    trimRight ((before ++ core ++ after).dropWhile CharClass.isSpace) = core := by
  obtain rfl | hc := hc
  · have : ∀ c ∈ before ++ after, CharClass.isSpace c :=
      List.forall_mem_append.mpr ⟨fun c h => (hb c h).1, fun c h => (ha c h).1⟩
    have hnil : (before ++ after).dropWhile CharClass.isSpace = [] := by
      simpa using dropWhile_append_of_head (t := []) this (by simp)
    simp [hnil, trimRight]
  · obtain ⟨c, cs, hcs, hs⟩ := hc.first
    rw [List.append_assoc, dropWhile_append_of_head fun d hd => (hb d hd).1]
    · exact trimRight_append ha hc
    · simpa [hcs] using hs

theorem not_mem_of_white {c : Char} (hw : White cs) (hc : CharClass.isSpace c = false) :
    c ∉ cs := fun h => by simpa [hc] using (hw c h).1

/-- Comments and white space around what a line says are not read. -/
theorem content_of_line (hc : Sayable core) (h : Line core line) (o : Nat) :
    (content ⟨o, line⟩).rest = core := by
  have hp {ws : List Char} (hw : White ws) : '/' ∉ ws := not_mem_of_white hw (by decide)
  cases h with
  | @bare before after hb ha =>
    have h : '/' ∉ before ++ core ++ after := by simp [hp hb, hc.1, hp ha]
    rw [content, Cursor.dropWhile, beforeComment_eq_self h]
    exact trim_eq hb ha hc.2.2
  | @commented before after comment hb ha _ =>
    have h : '/' ∉ before ++ core ++ after := by simp [hp hb, hc.1, hp ha]
    rw [content, Cursor.dropWhile, beforeComment_append h]
    exact trim_eq hb ha hc.2.2

theorem newline_not_mem (hc : Sayable core) (h : Line core line) : '\n' ∉ line := by
  have hp {ws : List Char} (hw : White ws) : '\n' ∉ ws := fun h => (hw _ h).2 rfl
  cases h with
  | bare hb ha => simp [hp hb, hc.2.1, hp ha]
  | commented hb ha hn => simp [hp hb, hc.2.1, hp ha, hn]

/-- A carriage return is white space, or part of the comment. -/
theorem Spelling.Line.carriageReturn (h : Line core line) : Line core (line ++ ['\r']) := by
  have hr : White ['\r'] := by simp [White]; decide
  cases h with
  | bare hb ha =>
    rw [List.append_assoc]
    exact .bare hb (List.forall_mem_append.mpr ⟨ha, hr⟩)
  | @commented before after comment hb ha hn =>
    have hn : '\n' ∉ comment ++ ['\r'] := by simp [hn]
    simpa using Line.commented hb ha hn

end Lines

/-! ### The lines of a text -/

section Texts

variable {line : List Char}

theorem linesFrom_of_not_mem (h : '\n' ∉ line) (o : Nat) : linesFrom o line = [⟨o, line⟩] := by
  induction line generalizing o with
  | nil => rfl
  | cons c cs ih =>
    rw [List.mem_cons, not_or] at h
    simp [linesFrom, ih h.2, Ne.symm h.1]

theorem linesFrom_append (o : Nat) (cs text : List Char) :
    linesFrom o (cs ++ '\n' :: text) = linesFrom o cs ++ linesFrom (o + bytes cs + 1) text := by
  induction cs generalizing o with
  | nil => rfl
  | cons c cs ih =>
    obtain ⟨⟨line, lines, hlines, -⟩, -⟩ := linesFrom_apart (o + c.utf8Size) cs
    rw [List.cons_append, linesFrom, linesFrom, bytes_cons, ← Nat.add_assoc]
    split
    · next hc =>
      subst hc
      exact congrArg _ (ih _)
    · rw [ih, hlines]
      rfl

/-- A text that ends with a line end has one empty line more. -/
theorem contents_of_text {lines : List (List Char)} {text : List Char} (h : Text lines text)
    (hl : ∀ core ∈ lines, Sayable core) (o : Nat) :
    ((linesFrom o text).map fun c => (content c).rest) = lines ∨
      ((linesFrom o text).map fun c => (content c).rest) = lines ++ [[]] := by
  induction h generalizing o with
  | none => right; rfl
  | last h =>
    left
    simp [linesFrom_of_not_mem (newline_not_mem (hl _ (by simp)) h),
      content_of_line (hl _ (by simp)) h]
  | lineFeed h _ ih =>
    rw [List.forall_mem_cons] at hl
    simpa [linesFrom_append, linesFrom_of_not_mem (newline_not_mem hl.1 h), content_of_line hl.1 h]
      using ih hl.2 _
  | @carriageReturn core line text lines h _ ih =>
    rw [List.forall_mem_cons] at hl
    have hr := h.carriageReturn
    have hs : line ++ '\r' :: '\n' :: text = line ++ ['\r'] ++ '\n' :: text := by simp
    rw [hs, linesFrom_append, linesFrom_of_not_mem (newline_not_mem hl.1 hr)]
    simpa [content_of_line hl.1 hr] using ih hl.2 _

end Texts

/-! ### Which kind of line it is -/

section Kinds

variable {cs ds : List Char}

theorem isRelation_cons (h : isRelation cs) (c : Char) : isRelation (c :: cs) := by
  unfold isRelation
  split <;> simp_all

theorem isRelation_append (h : isRelation ds) (cs : List Char) : isRelation (cs ++ ds) := by
  induction cs with
  | nil => exact h
  | cons c cs ih => exact isRelation_cons ih c

theorem isRelation_operator (isUnion : Bool) (t : List Char) :
    isRelation (operator isUnion ++ t) := by
  cases isUnion <;> rfl

theorem isRelation_of_opening {r : Plain.Relation} (h : Opening r cs) : isRelation cs := by
  obtain @⟨cs, gap, -, -⟩ := h
  simpa using isRelation_append (isRelation_operator r.isUnion []) (cs ++ gap)

theorem isRelation_of_inline {r : Plain.Relation} (h : Inline r cs) : isRelation cs := by
  obtain @⟨_, gap', ds, @⟨cs, gap, -, -⟩, -, -⟩ := h
  simpa using isRelation_append (isRelation_operator r.isUnion (gap' ++ ds)) (cs ++ gap)

theorem not_isRelation {extra : List Char} (h : Made extra cs) (he : '=' ∉ extra)
    (hm : '-' ∉ extra) : isRelation cs = false := by
  induction cs with
  | nil => rfl
  | cons c cs ih =>
    have h₁ := h.not_mem (by decide) (by decide) he
    have h₂ := h.not_mem (by decide) (by decide) hm
    rw [List.mem_cons, not_or] at h₁ h₂
    rw [made_cons] at h
    rw [isRelation, ih h.2]
    · exact fun hc => h₁.1 hc.symm
    · exact fun _ hc => absurd hc.symm h₂.1

end Kinds

/-! ### What has been read after some lines -/

/-- Families and their relations, latest first as the reader keeps them, and whether the latest
relation still collects children; nothing has been reported. -/
structure Progress.Has (p : Progress) (families : List Plain.Family) (collecting : Bool) :
    Prop where
  families : p.families.map (·.plain) = families
  silent : p.diagnostics = []
  collecting : p.collecting = collecting

section Steps

variable {p : Progress} {c : Cursor} {f : Plain.Family} {fs : List Plain.Family}
  {r : Plain.Relation} {rs : List Plain.Relation} {b : Bool}

theorem Progress.Has.start : Progress.start.Has [] false := ⟨rfl, rfl, rfl⟩

theorem Progress.Has.blank (h : p.Has fs b) (hc : c.rest = []) : (p.step c).Has fs false := by
  simp only [Progress.step, hc, List.isEmpty_nil, if_true]
  exact ⟨h.families, h.silent, rfl⟩

theorem Progress.Has.header (h : p.Has fs false) (hc : Header f c.rest) :
    (p.step c).Has (⟨f.name, f.aliases, []⟩ :: fs) false := by
  have hr : isRelation c.rest = false := not_isRelation (made_of_header hc) (by decide) (by decide)
  simp only [Progress.step, List.isEmpty_iff, (solid_of_header hc).ne_nil, if_false, hr,
    h.collecting, Bool.false_eq_true, Progress.readHeader, header_eq_ok hc c.offset]
  exact ⟨congrArg _ h.families, h.silent, rfl⟩

/-- The first family of those read. -/
theorem Progress.Has.exists_family (h : p.Has (f :: fs) b) :
    ∃ g gs, p.families = g :: gs ∧ g.plain = f ∧ gs.map (·.plain) = fs :=
  List.map_eq_cons_iff.mp h.families

theorem Progress.Has.inline (h : p.Has (f :: fs) b) (hc : Inline r c.rest) :
    (p.step c).Has ({ f with relations := r :: f.relations } :: fs) false := by
  obtain ⟨g, gs, hg, rfl, rfl⟩ := h.exists_family
  obtain ⟨ms, ns, hms, hns, hline⟩ := relation_of_inline hc c.offset
  simp only [Progress.step, List.isEmpty_iff, (solid_of_inline hc).ne_nil, if_false,
    isRelation_of_inline hc, if_true, Progress.readRelation, hg, hline]
  exact ⟨by simp [Family.plain, Relation.plain, hms, hns], h.silent, rfl⟩

theorem Progress.Has.opening (h : p.Has (f :: fs) b) (hc : Opening r c.rest) :
    (p.step c).Has ({ f with relations := { r with targets := [] } :: f.relations } :: fs) true := by
  obtain ⟨g, gs, hg, rfl, rfl⟩ := h.exists_family
  obtain ⟨ms, hms, hline⟩ := relation_of_opening hc c.offset
  simp only [Progress.step, List.isEmpty_iff, (solid_of_opening hc).ne_nil, if_false,
    isRelation_of_opening hc, if_true, Progress.readRelation, hg, hline]
  exact ⟨by simp [Family.plain, Relation.plain, hms], h.silent, rfl⟩

/-- Adds children to the latest relation. -/
def Plain.adopt (children : List Wording) : List Plain.Family → List Plain.Family
  | [] => []
  | f :: fs =>
    match f.relations with
    | [] => f :: fs
    | r :: rs => { f with relations := { r with targets := r.targets ++ children } :: rs } :: fs

theorem plain_adopt (span : Span) (children : List Mention) (families : List Family) :
    (Progress.adopt span children families).map (·.plain) =
      Plain.adopt (children.map (·.wording)) (families.map (·.plain)) := by
  cases families with
  | nil => rfl
  | cons f fs =>
    obtain ⟨fspan, name, aliases, relations⟩ := f
    cases relations <;> simp [Progress.adopt, Plain.adopt, Family.plain, Relation.plain]

theorem Progress.Has.children {ws : List Wording}
    (h : p.Has ({ f with relations := r :: rs } :: fs) true) (hc : Children ws c.rest) :
    (p.step c).Has
      ({ f with relations := { r with targets := r.targets ++ ws } :: rs } :: fs) true := by
  have hr : isRelation c.rest = false :=
    not_isRelation (made_of_children hc) (by decide) (by decide)
  obtain ⟨ms, rfl, hline⟩ := children_eq_ok hc c.offset
  simp only [Progress.step, List.isEmpty_iff, (solid_of_children hc).ne_nil, if_false, hr,
    h.collecting, Bool.false_eq_true, if_true, Progress.readChildren, hline]
  exact ⟨by rw [plain_adopt, h.families, Plain.adopt], h.silent, rfl⟩

end Steps

section Runs

variable {p : Progress} {cs : List Cursor} {f : Plain.Family} {fs gs : List Plain.Family}
  {r : Plain.Relation} {rs : List Plain.Relation} {lines : List (List Char)}

theorem Progress.Has.childLines {ws : List Wording} (hl : ChildLines ws lines)
    (hr : cs.map (·.rest) = lines) (h : p.Has ({ f with relations := r :: rs } :: fs) true) :
    (cs.foldl Progress.step p).Has
      ({ f with relations := { r with targets := r.targets ++ ws } :: rs } :: fs) true := by
  induction hl generalizing p cs r with
  | none =>
    rw [List.map_eq_nil_iff] at hr
    simpa [hr] using h
  | line hc _ ih =>
    obtain ⟨c, cs, rfl, rfl, hcs⟩ := List.map_eq_cons_iff.mp hr
    simpa using ih hcs (h.children hc)

theorem Progress.Has.relationLines {b : Bool} (hl : RelationLines r lines)
    (hr : cs.map (·.rest) = lines) (h : p.Has (f :: fs) b) :
    (cs.foldl Progress.step p).Has ({ f with relations := r :: f.relations } :: fs) false := by
  cases hl with
  | inline hi =>
    obtain ⟨c, rfl, rfl⟩ := List.map_eq_singleton_iff.mp hr
    exact h.inline hi
  | listed ho hl =>
    rw [List.cons_append] at hr
    obtain ⟨c, _, rfl, rfl, ht⟩ := List.map_eq_cons_iff.mp hr
    obtain ⟨cs, _, rfl, hcs, hlast⟩ := List.map_eq_append_iff.mp ht
    obtain ⟨d, rfl, hd⟩ := List.map_eq_singleton_iff.mp hlast
    rw [List.foldl_cons, List.foldl_append]
    exact ((h.opening ho).childLines hl hcs).blank hd

theorem Progress.Has.bodyLines (hl : BodyLines rs lines) (hr : cs.map (·.rest) = lines)
    (h : p.Has (f :: fs) false) :
    (cs.foldl Progress.step p).Has
      ({ f with relations := rs.reverse ++ f.relations } :: fs) false := by
  induction hl generalizing p cs f with
  | none =>
    rw [List.map_eq_nil_iff] at hr
    simpa [hr] using h
  | blank _ ih =>
    obtain ⟨c, cs, rfl, hc, hcs⟩ := List.map_eq_cons_iff.mp hr
    rw [List.foldl_cons]
    exact ih hcs (h.blank hc)
  | relation hl _ ih =>
    obtain ⟨cs, ds, rfl, hcs, hds⟩ := List.map_eq_append_iff.mp hr
    rw [List.foldl_append]
    simpa using ih hds (h.relationLines hl hcs)

/-- A family with its relations in the order in which the reader keeps them. -/
def Plain.Family.latestFirst (f : Plain.Family) : Plain.Family :=
  { f with relations := f.relations.reverse }

theorem Progress.Has.documentLines (hl : DocumentLines gs lines) (hr : cs.map (·.rest) = lines)
    (h : p.Has fs false) :
    (cs.foldl Progress.step p).Has ((gs.map (·.latestFirst)).reverse ++ fs) false := by
  induction hl generalizing p cs fs with
  | none =>
    rw [List.map_eq_nil_iff] at hr
    simpa [hr] using h
  | blank _ ih =>
    obtain ⟨c, cs, rfl, hc, hcs⟩ := List.map_eq_cons_iff.mp hr
    rw [List.foldl_cons]
    exact ih hcs (h.blank hc)
  | family hh hb _ ih =>
    rw [List.cons_append] at hr
    obtain ⟨c, _, rfl, rfl, ht⟩ := List.map_eq_cons_iff.mp hr
    obtain ⟨cs, ds, rfl, hcs, hds⟩ := List.map_eq_append_iff.mp ht
    rw [List.foldl_cons, List.foldl_append]
    simpa [Plain.Family.latestFirst] using ih hds ((h.header hh).bodyLines hb hcs)

theorem Progress.map_plain_finish {p : Progress} (h : p.diagnostics = []) :
    p.finish.map (List.map (·.plain)) =
      .ok ((p.families.map (·.plain)).reverse.map (·.latestFirst)) := by
  have hplain (f : Family) : ({ f with relations := f.relations.reverse } : Family).plain =
      f.plain.latestFirst := by simp [Family.plain, Plain.Family.latestFirst]
  simp [finish, h, Except.map, Function.comp_def, hplain]

theorem Progress.Has.finish {b : Bool} (h : p.Has (gs.map (·.latestFirst)).reverse b) :
    p.finish.map (List.map (·.plain)) = .ok gs := by
  have htwice (f : Plain.Family) : f.latestFirst.latestFirst = f := by
    simp [Plain.Family.latestFirst]
  rw [map_plain_finish h.silent, h.families]
  simp [Function.comp_def, htwice]

end Runs

section Sayables

variable {core : List Char}

theorem sayable_nil : Sayable [] := ⟨by simp, by simp, .inl rfl⟩

theorem sayable_of {extra : List Char} (hm : Made extra core) (hs : Solid core)
    (hslash : '/' ∉ extra) (hline : '\n' ∉ extra) : Sayable core :=
  ⟨hm.not_mem (by decide) (by decide) hslash, hm.not_mem (by decide) (by decide) hline, .inr hs⟩

theorem sayable_of_childLines {ws : List Wording} {lines : List (List Char)}
    (h : ChildLines ws lines) : ∀ core ∈ lines, Sayable core := by
  induction h with
  | none => simp
  | line hc _ ih =>
    have := sayable_of (made_of_children hc) (solid_of_children hc) (by decide) (by decide)
    exact List.forall_mem_cons.mpr ⟨this, ih⟩

theorem sayable_of_relationLines {r : Plain.Relation} {lines : List (List Char)}
    (h : RelationLines r lines) : ∀ core ∈ lines, Sayable core := by
  cases h with
  | inline hi =>
    have := sayable_of (made_of_inline hi) (solid_of_inline hi) (by decide) (by decide)
    simpa using this
  | listed ho hl =>
    have := sayable_of (made_of_opening ho) (solid_of_opening ho) (by decide) (by decide)
    simpa [or_imp, forall_and, this, sayable_nil] using sayable_of_childLines hl

theorem sayable_of_bodyLines {rs : List Plain.Relation} {lines : List (List Char)}
    (h : BodyLines rs lines) : ∀ core ∈ lines, Sayable core := by
  induction h with
  | none => simp
  | blank _ ih => exact List.forall_mem_cons.mpr ⟨sayable_nil, ih⟩
  | relation hr _ ih => exact List.forall_mem_append.mpr ⟨sayable_of_relationLines hr, ih⟩

theorem sayable_of_documentLines {fs : List Plain.Family} {lines : List (List Char)}
    (h : DocumentLines fs lines) : ∀ core ∈ lines, Sayable core := by
  induction h with
  | none => simp
  | blank _ ih => exact List.forall_mem_cons.mpr ⟨sayable_nil, ih⟩
  | family hh hb _ ih =>
    have := sayable_of (made_of_header hh) (solid_of_header hh) (by decide) (by decide)
    rw [List.cons_append, List.forall_mem_cons, List.forall_mem_append]
    exact ⟨this, sayable_of_bodyLines hb, ih⟩

end Sayables

/-! ### Documents -/

/-- One empty line more at the end changes nothing. -/
theorem documentLines_concat {fs : List Plain.Family} {lines : List (List Char)}
    (h : DocumentLines fs lines) : DocumentLines fs (lines ++ [[]]) := by
  induction h with
  | none => exact .blank .none
  | blank _ ih => exact .blank ih
  | family hh hb _ ih =>
    rw [List.append_assoc]
    exact .family hh hb ih

theorem documentLines_contents {document : List Plain.Family} {source : String}
    (h : Spells document source) :
    DocumentLines document ((contents source).map (·.rest)) := by
  obtain ⟨lines, hd, ht⟩ := h
  rw [contents, List.map_map]
  obtain hl | hl := contents_of_text ht (sayable_of_documentLines hd) 0
  · exact hl ▸ hd
  · exact hl ▸ documentLines_concat hd

/-- The documents of words, with sources in every relation, are those that can be written. Each way of
writing one is read as that document, so that it does not matter which one was chosen: children in the
line of their relation or in a list below it, blanks, comments, line ends. -/
theorem read_of_spells (document : List Plain.Family) :
    ((∃ source, Spells document source) ↔ ∀ f ∈ document, f.Writable) ∧
      ∀ source, Spells document source →
        (read source).map (List.map (·.plain)) = .ok document ∧
          ∀ other, Spells document other →
            (read other).map (List.map (·.plain)) = (read source).map (List.map (·.plain)) := by
  have hread {text : String} (ht : Spells document text) :
      (read text).map (List.map (·.plain)) = .ok document := by
    apply Progress.Has.finish (b := false)
    simpa using Progress.Has.start.documentLines (documentLines_contents ht) rfl
  exact ⟨exists_spells_iff, fun source h => ⟨hread h, fun other ho => by rw [hread h, hread ho]⟩⟩

/-- A family with each kind of line. -/
def smiths : Plain.Family where
  name := "Smith"
  aliases := ["Smyth", "O'Smith"]
  relations :=
    [⟨[.words "John" none, .words "Byrne" (some "Zoë")],
      [.words "Bob" none, .words "Ann" (some "Lee"), .unknown], true⟩,
      ⟨[.unknown], [.words "7b" none], false⟩, ⟨[.words "Kim" none], [], true⟩]

def smithsSource : String :=
  "Smith (Smyth ,O'Smith) // here\r\n" ++ "\t\n" ++ "John+Byrne \tZoë =\n" ++ "12. Bob, Ann Lee\r\n" ++
    " ?\n" ++ "\n" ++ "?->7b//?\n" ++ "Kim=\n"

theorem name_of_isWord {s : String} (h : IsWord s) : Name s s.toList := .word h.1 h.2

theorem documentLines_smiths : DocumentLines [smiths]
    ["Smith (Smyth ,O'Smith)".toList, [], "John+Byrne \tZoë =".toList, "12. Bob, Ann Lee".toList,
      ['?'], [], "?->7b".toList, "Kim=".toList, []] := by
  have word (s : String) (h : IsWord s) : Name s s.toList := name_of_isWord h
  have aliases : Items Name ',' smiths.aliases "Smyth ,O'Smith".toList :=
    .more (word "Smyth" (by decide)) blank_space blank_nil (.one (word "O'Smith" (by decide)))
  have header : Header smiths "Smith (Smyth ,O'Smith)".toList :=
    .aliased (word "Smith" (by decide)) blank_space blank_nil aliases blank_nil
  have zoe : Person (.words "Byrne" (some "Zoë")) "Byrne \tZoë".toList :=
    .two (word "Byrne" (by decide)) (by decide) (show Blank [' ', '\t'] by decide)
      (word "Zoë" (by decide))
  have couple : Items Person '+' [.words "John" none, .words "Byrne" (some "Zoë")]
      "John+Byrne \tZoë".toList :=
    .more (.one (word "John" (by decide))) blank_nil blank_nil (.one zoe)
  have parents : Opening ⟨[.words "John" none, .words "Byrne" (some "Zoë")],
      [.words "Bob" none, .words "Ann" (some "Lee"), .unknown], true⟩
      ("John+Byrne \tZoë".toList ++ [' '] ++ operator true) := .sources couple blank_space
  have ann : Person (.words "Ann" (some "Lee")) "Ann Lee".toList :=
    .two (word "Ann" (by decide)) (by decide) blank_space (word "Lee" (by decide))
  have pair : Items Person ',' [.words "Bob" none, .words "Ann" (some "Lee")]
      "Bob, Ann Lee".toList :=
    .more (.one (word "Bob" (by decide))) blank_nil blank_space (.one ann)
  have twelfth : Number ['1', '2', '.', ' '] :=
    .digits (by decide) (show ∀ c ∈ ['1', '2'], c.isDigit by simp) blank_space
  have twins : Children [.words "Bob" none, .words "Ann" (some "Lee")] "12. Bob, Ann Lee".toList :=
    .list twelfth pair
  have third : Children [.unknown] ['?'] := .list .none (.one .unknown)
  have arrow : Opening ⟨[.unknown], [.words "7b" none], false⟩ (['?'] ++ [] ++ operator false) :=
    .sources (.one .unknown) blank_nil
  have seventh : Items Person ',' [.words "7b" none] "7b".toList :=
    .one (.one (word "7b" (by decide)))
  have only : Items Person '+' [.words "Kim" none] "Kim".toList :=
    .one (.one (word "Kim" (by decide)))
  have kim : Opening ⟨[.words "Kim" none], [], true⟩ ("Kim".toList ++ [] ++ operator true) :=
    .sources only blank_nil
  exact .family header (.blank (.relation (.listed parents (.line twins (.line third .none)))
    (.relation (.inline (.targets arrow blank_nil seventh)) (.relation (.listed kim .none) .none)))) .none

theorem text_smiths : Text
    ["Smith (Smyth ,O'Smith)".toList, [], "John+Byrne \tZoë =".toList, "12. Bob, Ann Lee".toList,
      ['?'], [], "?->7b".toList, "Kim=".toList, []] smithsSource.toList := by
  have here : Line "Smith (Smyth ,O'Smith)".toList "Smith (Smyth ,O'Smith) // here".toList :=
    .commented white_nil (show White [' '] by decide) (show '\n' ∉ " here".toList by decide)
  have tab : Line [] ['\t'] := .bare (show White ['\t'] by decide) white_nil
  have space : Line ['?'] [' ', '?'] := .bare (show White [' '] by decide) white_nil
  have question : Line "?->7b".toList "?->7b//?".toList :=
    .commented white_nil white_nil (show '\n' ∉ ['?'] by decide)
  exact .carriageReturn here (.lineFeed tab (.lineFeed (line_self _) (.carriageReturn (line_self _)
    (.lineFeed space (.lineFeed (line_self []) (.lineFeed question (.lineFeed (line_self _)
      (.last (line_self [])))))))))

theorem read_of_spells_smiths : Spells [smiths] smithsSource ∧
    (read smithsSource).map (List.map (·.plain)) = .ok [smiths] :=
  have h : Spells [smiths] smithsSource := ⟨_, documentLines_smiths, text_smiths⟩
  ⟨h, ((read_of_spells [smiths]).2 smithsSource h).1⟩

end Markup

end Pedigree
