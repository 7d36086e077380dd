import Pedigree.Proofs.Faultless
import Pedigree.Proofs.Tokens

/-! The grammar of single lines, with the places of the persons in them. It says how a line is divided
and nothing about how it is read. The readers of lines accept exactly what it describes: what a reader
takes is divided as the grammar has it, and a text that is divided in this way is read whole. -/
namespace Pedigree.Markup

open Spelling

namespace Grammar

/-- A person at an offset, with the range of its text. -/
structure Mentions (o : Nat) (m : Mention) (cs : List Char) : Prop where
  wording : Person m.wording cs
  start : m.span.start = o
  stop : m.span.stop = o + bytes cs

/-- An item with blanks on both sides. -/
inductive Spaced (Item : Nat → α → List Char → Prop) (o : Nat) (x : α) : List Char → Prop where
  | item {before cs after : List Char} : Blank before → Item (o + bytes before) x cs →
      Blank after → Spaced Item o x (before ++ cs ++ after)

/-- One or more items with separators between them. -/
inductive Separated (Item : Nat → α → List Char → Prop) (separator : Char) :
    Nat → List α → List Char → Prop where
  | one {o : Nat} {x : α} {cs : List Char} : Item o x cs → Separated Item separator o [x] cs
  | more {o : Nat} {x : α} {xs : List α} {cs ds : List Char} : Item o x cs →
      Separated Item separator (o + bytes (cs ++ [separator])) xs ds →
      Separated Item separator o (x :: xs) (cs ++ separator :: ds)

abbrev People (separator : Char) : Nat → List Mention → List Char → Prop :=
  Separated (Spaced Mentions) separator

abbrev Words : Nat → List String → List Char → Prop := Separated (Spaced fun _ => Name) ','

/-- Sources, an operator, and targets or nothing but blanks. -/
inductive RelationLine (o : Nat) : List Mention × Bool × Option (List Mention) → List Char → Prop where
  | bare {ss : List Mention} {isUnion : Bool} {left right : List Char} : People '+' o ss left →
      Blank right → RelationLine o (ss, isUnion, none) (left ++ operator isUnion ++ right)
  | full {ss ts : List Mention} {isUnion : Bool} {left right : List Char} : People '+' o ss left →
      People ',' (o + bytes (left ++ operator isUnion)) ts right →
      RelationLine o (ss, isUnion, some ts) (left ++ operator isUnion ++ right)

/-- Children, with a number before them or without one. -/
inductive ChildLine (o : Nat) : List Mention → List Char → Prop where
  | plain {ts : List Mention} {cs : List Char} : People ',' o ts cs → ChildLine o ts cs
  | numbered {ts : List Mention} {ds cs : List Char} : ds ≠ [] → (∀ c ∈ ds, c.isDigit) →
      People ',' (o + bytes (ds ++ ['.'])) ts cs → ChildLine o ts (ds ++ '.' :: cs)

/-- A surname, with other spellings in parentheses or without any. -/
inductive HeaderLine (o : Nat) : String × List String → List Char → Prop where
  | bare {surname : String} {cs after : List Char} : Name surname cs → Blank after →
      HeaderLine o (surname, []) (cs ++ after)
  | aliased {surname : String} {others : List String} {cs gap ds after : List Char} :
      Name surname cs → Blank gap → Words (o + bytes (cs ++ gap ++ ['('])) others ds →
      Blank after → HeaderLine o (surname, others) (cs ++ gap ++ '(' :: (ds ++ ')' :: after))

theorem blank_append {cs ds : List Char} (h : Blank cs) (h' : Blank ds) : Blank (cs ++ ds) :=
  List.forall_mem_append.mpr ⟨h, h'⟩

/-- Blanks after the last item belong to it. -/
theorem Separated.append_blank {Item : Nat → α → List Char → Prop} {separator : Char} {o : Nat}
    {xs : List α} {cs gap : List Char} (h : Separated (Spaced Item) separator o xs cs)
    (hg : Blank gap) : Separated (Spaced Item) separator o xs (cs ++ gap) := by
  induction h with
  | one h =>
    obtain ⟨hb, hi, ha⟩ := h
    rw [List.append_assoc]
    exact .one (.item hb hi (blank_append ha hg))
  | more h _ ih =>
    rw [List.append_assoc, List.cons_append]
    exact .more h ih

end Grammar

namespace Cursor

/-- Between two places stands a text. -/
structure Passes (c : Cursor) (cs : List Char) (d : Cursor) : Prop where
  rest : c.rest = cs ++ d.rest
  offset : d.offset = c.offset + bytes cs

/-- Reading on from the first place leads to the second one. -/
def Leads (c d : Cursor) : Prop := ∃ taken, c.Passes taken d

variable {c d e : Cursor} {cs ds : List Char}

theorem Passes.append (h : c.Passes cs d) (h' : d.Passes ds e) : c.Passes (cs ++ ds) e where
  rest := by rw [h.rest, h'.rest, List.append_assoc]
  offset := by rw [h'.offset, h.offset, bytes_append, Nat.add_assoc]

/-- At the end of a line nothing is left. -/
theorem Passes.rest_eq (h : c.Passes cs d) (hd : d.rest = []) : c.rest = cs := by
  rw [h.rest, hd, List.append_nil]

theorem Passes.stop_eq (h : c.Passes cs d) : c.stop = d.stop := by
  rw [stop, stop, h.rest, h.offset, bytes_append, Nat.add_assoc]

theorem passes_dropWhile (c : Cursor) (p : Char → Bool) :
    c.Passes (c.rest.takeWhile p) (c.dropWhile p) :=
  ⟨List.takeWhile_append_dropWhile.symm, rfl⟩

theorem passes_drop (c : Cursor) (n : Nat) : c.Passes (c.rest.take n) (c.drop n) :=
  ⟨(List.take_append_drop n c.rest).symm, rfl⟩

/-- A character that was seen is passed. -/
theorem passes_head {x : Char} (h : c.rest.head? = some x) : c.Passes [x] (c.drop 1) := by
  obtain ⟨cs, hcs⟩ := List.head?_eq_some_iff.mp h
  simpa [hcs] using c.passes_drop 1

theorem exists_passes_skipBlanks (c : Cursor) : ∃ gap, c.Passes gap c.skipBlanks ∧ Blank gap :=
  ⟨_, c.passes_dropWhile _, fun _ h => List.mem_takeWhile_imp h⟩

end Cursor

namespace Line

open Checked (exists_of_bind_eq_ok)
open Grammar

/-! ### What is taken -/

/-- Whatever the reader takes is an item where it was taken. -/
def Sound (reader : Cursor → Except Cursor (α × Cursor)) (Item : Nat → α → List Char → Prop) :
    Prop :=
  ∀ c x d, reader c = .ok (x, d) → ∃ cs, c.Passes cs d ∧ Item c.offset x cs

theorem name_sound : Sound name fun _ => Name := by
  intro c s d h
  unfold name at h
  dsimp only at h
  split at h
  · cases h
  · next hne =>
    cases h
    refine ⟨_, c.passes_dropWhile _, ?_⟩
    have hname := Name.word (s := String.ofList (c.rest.takeWhile CharClass.isName))
    simp only [String.toList_ofList] at hname
    exact hname (by simpa using hne) fun x hx => List.mem_takeWhile_imp hx

theorem exists_of_secondWord? {c d : Cursor} {s : String} (h : secondWord? c = some (s, d)) :
    ∃ gap cs, c.Passes (gap ++ cs) d ∧ gap ≠ [] ∧ Blank gap ∧ Name s cs := by
  unfold secondWord? at h
  dsimp only at h
  obtain ⟨gap, hgap, hblank⟩ := c.exists_passes_skipBlanks
  split at h
  · cases h
  · next hne =>
    cases hn : name c.skipBlanks with
    | error e => rw [hn] at h; cases h
    | ok r =>
      rw [hn] at h
      cases h
      obtain ⟨cs, hcs, hname⟩ := name_sound _ _ _ hn
      refine ⟨gap, cs, hgap.append hcs, ?_, hblank, hname⟩
      rintro rfl
      exact hne (Cursor.mk.injEq .. ▸ ⟨hgap.offset, hgap.rest.symm⟩)

theorem wording_sound : Sound wording fun _ => Person := by
  intro c w d h
  unfold wording at h
  split at h
  · next hq =>
    cases h
    exact ⟨_, Cursor.passes_head hq, .unknown⟩
  · obtain ⟨⟨first, e⟩, hn, h⟩ := exists_of_bind_eq_ok h
    obtain ⟨cs, hcs, hname⟩ := name_sound _ _ _ hn
    dsimp only at h
    split at h
    · next hs =>
      cases h
      obtain ⟨gap, ds, hds, hne, hblank, hsecond⟩ := exists_of_secondWord? hs
      refine ⟨_, hcs.append hds, ?_⟩
      rw [← List.append_assoc]
      exact .two hname hne hblank hsecond
    · cases h
      exact ⟨_, hcs, .one hname⟩

theorem person_sound : Sound person Mentions := by
  intro c m d h
  obtain ⟨⟨w, e⟩, hw, h⟩ := exists_of_bind_eq_ok h
  cases h
  obtain ⟨cs, hcs, hperson⟩ := wording_sound _ _ _ hw
  have ho := hcs.offset
  exact ⟨cs, hcs, hperson, rfl, by simp only [Cursor.spanTo]; omega⟩

variable {item : Cursor → Except Cursor (α × Cursor)} {Item : Nat → α → List Char → Prop}

theorem Sound.spaced (hi : Sound item Item) : Sound (spaced item) (Spaced Item) := by
  intro c x d h
  obtain ⟨⟨y, e⟩, hy, h⟩ := exists_of_bind_eq_ok h
  cases h
  obtain ⟨before, hb, hbefore⟩ := c.exists_passes_skipBlanks
  obtain ⟨cs, hcs, hitem⟩ := hi _ _ _ hy
  obtain ⟨after, ha, hafter⟩ := e.exists_passes_skipBlanks
  exact ⟨_, (hb.append hcs).append ha, .item hbefore (hb.offset ▸ hitem) hafter⟩

theorem Sound.separatedUpTo (hi : Sound item Item) (separator : Char) (fuel : Nat) :
    Sound (separatedUpTo item separator fuel) (Separated Item separator) := by
  induction fuel with
  | zero => intro c xs d h; cases h
  | succ fuel ih =>
    intro c xs d h
    obtain ⟨⟨x, e⟩, hx, h⟩ := exists_of_bind_eq_ok h
    obtain ⟨cs, hcs, hitem⟩ := hi _ _ _ hx
    dsimp only at h
    split at h
    · next hsep =>
      split at h
      · next ys e' hys =>
        cases h
        have hpass := hcs.append (Cursor.passes_head hsep)
        obtain ⟨ds, hds, hrest⟩ := ih _ _ _ hys
        refine ⟨_, hpass.append hds, ?_⟩
        rw [List.append_assoc, List.singleton_append]
        exact .more hitem (hpass.offset ▸ hrest)
      · cases h
        exact ⟨cs, hcs, .one hitem⟩
    · cases h
      exact ⟨cs, hcs, .one hitem⟩

theorem Sound.separated (hi : Sound item Item) (separator : Char) :
    Sound (separated item separator) (Separated Item separator) :=
  fun c => hi.separatedUpTo separator (c.rest.length + 1) c

theorem people_sound (separator : Char) :
    Sound (Line.separated (Line.spaced person) separator) (People separator) :=
  person_sound.spaced.separated separator

theorem operator_sound : Sound operator fun _ b cs => cs = Spelling.operator b := by
  intro c b d h
  unfold operator at h
  split at h
  · next hr =>
    cases h
    exact ⟨_, c.passes_drop 2, by simp [hr, Spelling.operator]⟩
  · next hr =>
    cases h
    exact ⟨_, c.passes_drop 1, by simp [hr, Spelling.operator]⟩
  · cases h

theorem of_finish_eq_ok {x y : α} {c : Cursor} (h : finish x c = .ok y) : x = y ∧ c.rest = [] := by
  unfold finish at h
  split at h
  · next he =>
    cases h
    exact ⟨rfl, List.isEmpty_iff.mp he⟩
  · cases h

/-- Where a line ends behind blanks, nothing but these is left. -/
theorem blank_of_skipBlanks {c : Cursor} (h : c.skipBlanks.rest = []) : Blank c.rest := by
  obtain ⟨gap, hgap, hblank⟩ := c.exists_passes_skipBlanks
  exact hgap.rest_eq h ▸ hblank

variable {c : Cursor}

theorem relationLine_of_relation {x : List Mention × Bool × Option (List Mention)}
    (h : relation c = .ok x) : RelationLine c.offset x c.rest := by
  unfold relation at h
  obtain ⟨⟨ss, d⟩, hs, h⟩ := exists_of_bind_eq_ok h
  obtain ⟨⟨isUnion, e⟩, ho, h⟩ := exists_of_bind_eq_ok h
  obtain ⟨left, hleft, hss⟩ := people_sound '+' _ _ _ hs
  obtain ⟨_, hop, rfl⟩ := operator_sound _ _ _ ho
  have hpass := hleft.append hop
  dsimp only at h
  split at h
  · next ts e' ht =>
    obtain ⟨rfl, hend⟩ := of_finish_eq_ok h
    obtain ⟨right, hright, hts⟩ := people_sound ',' _ _ _ ht
    rw [hpass.rest, hright.rest]
    exact .full hss (hpass.offset ▸ hts.append_blank (blank_of_skipBlanks hend))
  · obtain ⟨rfl, hend⟩ := of_finish_eq_ok h
    rw [hpass.rest]
    exact .bare hss (blank_of_skipBlanks hend)

theorem childLine_of_children {ts : List Mention} (h : children c = .ok ts) :
    ChildLine c.offset ts c.rest := by
  obtain ⟨⟨ms, d⟩, ht, h⟩ := exists_of_bind_eq_ok h
  obtain ⟨rfl, hend⟩ := of_finish_eq_ok h
  obtain ⟨cs, hcs, hms⟩ := people_sound ',' _ _ _ ht
  unfold skipNumber at hcs hms
  dsimp only at hcs hms
  split at hcs
  · next hn =>
    rw [if_pos hn] at hms
    have hdigits := c.passes_dropWhile Char.isDigit
    have hpass := hdigits.append (Cursor.passes_head hn.2)
    rw [hpass.rest, hcs.rest_eq hend, List.append_assoc, List.singleton_append]
    refine .numbered ?_ (fun x hx => List.mem_takeWhile_imp hx) (hpass.offset ▸ hms)
    intro hnil
    have hd := hdigits.offset
    have hr := hdigits.rest
    rw [hnil] at hd hr
    exact hn.1 (Cursor.mk.injEq .. ▸ ⟨hd, hr.symm⟩)
  · next hn =>
    rw [if_neg hn] at hms
    rw [hcs.rest_eq hend]
    exact .plain hms

theorem aliases_sound : Sound aliases fun o names cs =>
    ∃ ds, Words (o + bytes ['(']) names ds ∧ cs = '(' :: (ds ++ [')']) := by
  intro c names d h
  unfold aliases at h
  split at h
  · cases h
  · next hopen =>
    rw [not_not] at hopen
    obtain ⟨⟨ns, e⟩, hn, h⟩ := exists_of_bind_eq_ok h
    have hpass := Cursor.passes_head hopen
    obtain ⟨ds, hds, hns⟩ := name_sound.spaced.separated ',' _ _ _ hn
    dsimp only at h
    split at h
    · next hclose =>
      cases h
      exact ⟨_, (hpass.append hds).append (Cursor.passes_head hclose), ds, hpass.offset ▸ hns, by simp⟩
    · cases h

theorem headerLine_of_header {x : String × List String} (h : header c = .ok x) :
    HeaderLine c.offset x c.rest := by
  obtain ⟨⟨surname, d⟩, hn, h⟩ := exists_of_bind_eq_ok h
  obtain ⟨cs, hcs, hname⟩ := name_sound _ _ _ hn
  obtain ⟨gap, hgap, hblank⟩ := d.exists_passes_skipBlanks
  dsimp only at h
  split at h
  · next others e ha =>
    obtain ⟨rfl, hend⟩ := of_finish_eq_ok h
    obtain ⟨_, htake, ds, hds, rfl⟩ := aliases_sound _ _ _ ha
    have hpass := hcs.append hgap
    have hall := (hpass.append htake).rest
    rw [hall]
    have ho : c.offset + bytes (cs ++ gap ++ ['(']) = d.skipBlanks.offset + bytes ['('] := by
      rw [hpass.offset, bytes_append _ ['('], Nat.add_assoc]
    simpa using HeaderLine.aliased hname hblank (ho ▸ hds) (blank_of_skipBlanks hend)
  · obtain ⟨rfl, hend⟩ := of_finish_eq_ok h
    rw [hcs.rest]
    exact .bare hname (blank_of_skipBlanks hend)

/-! ### What is divided is read -/

/-- Items start with no blank, and they are read up to blanks and something that cannot continue
them. -/
structure Complete (item : Cursor → Except Cursor (α × Cursor))
    (Item : Nat → α → List Char → Prop) : Prop where
  flush : ∀ {o x cs}, Item o x cs → ∀ t, Flush (cs ++ t)
  reads : ∀ {o x cs}, Item o x cs → ∀ {gap t}, Blank gap → Stops t →
    item ⟨o, cs ++ (gap ++ t)⟩ = .ok (x, ⟨o + bytes cs, gap ++ t⟩)

theorem name_complete : Complete name fun _ => Name where
  flush h := h.flush
  reads h _ _ hg ht := name_eq_ok h (ht.1.blank_append hg) _

theorem person_complete : Complete person Mentions where
  flush h := h.wording.flush
  reads := by
    intro o m cs h gap t hg ht
    obtain ⟨⟨start, stop, _⟩, w⟩ := m
    obtain ⟨hw, hstart, hstop⟩ := h
    dsimp only at hw hstart hstop
    subst hstart hstop
    simp [person, wording_eq_ok hw hg ht, bind, Except.bind, pure, Except.pure, Cursor.spanTo]

variable {o fuel : Nat} {separator : Char} {cs t : List Char}

theorem Complete.spaced (hi : Complete item Item) {x : α} (h : Spaced Item o x cs) (ht : Stops t) :
    spaced item ⟨o, cs ++ t⟩ = .ok (x, ⟨o + bytes cs, t⟩) := by
  obtain @⟨before, cs, after, hb, hx, ha⟩ := h
  simp only [Line.spaced, List.append_assoc, skipBlanks_eq hb (hi.flush hx _), hi.reads hx ha ht,
    bind, Except.bind, skipBlanks_eq ha ht.2, bytes_append, Nat.add_assoc]
  rfl

theorem Complete.separatedUpTo (hi : Complete item Item) (hs : Stops [separator]) {xs : List α}
    (h : Separated (Spaced Item) separator o xs cs) (ht : Stops t)
    (hne : t.head? ≠ some separator) (hf : xs.length ≤ fuel) :
    separatedUpTo (Line.spaced item) separator fuel ⟨o, cs ++ t⟩ =
      .ok (xs, ⟨o + bytes cs, t⟩) := by
  induction h generalizing fuel with
  | one h =>
    obtain ⟨fuel, rfl⟩ := Nat.exists_eq_succ_of_ne_zero (n := fuel) (by simp at hf; omega)
    simp [Line.separatedUpTo, hi.spaced h ht, bind, Except.bind, pure, Except.pure, hne]
  | @more o x xs cs ds h _ ih =>
    obtain ⟨fuel, rfl⟩ := Nat.exists_eq_succ_of_ne_zero (n := fuel) (by simp at hf; omega)
    have hstop : Stops (separator :: (ds ++ t)) := by simpa [Stops, EndsName, Flush] using hs
    have hrest := ih (show xs.length ≤ fuel by simpa using hf)
    simp only [bytes_append, bytes_cons, bytes_nil, Nat.add_zero, ← Nat.add_assoc] at hrest
    simp only [List.append_assoc, List.cons_append, Line.separatedUpTo, hi.spaced h hstop, bind,
      Except.bind]
    simp [Cursor.drop, ← Nat.add_assoc, hrest, pure, Except.pure]

theorem length_le_of_separated {xs : List α} (h : Separated Item separator o xs cs) :
    xs.length ≤ cs.length + 1 := by
  induction h with
  | one => simp
  | more _ _ ih => simp; omega

theorem Complete.separated (hi : Complete item Item) (hs : Stops [separator]) {xs : List α}
    (h : Separated (Spaced Item) separator o xs cs) (ht : Stops t)
    (hne : t.head? ≠ some separator) :
    separated (Line.spaced item) separator ⟨o, cs ++ t⟩ = .ok (xs, ⟨o + bytes cs, t⟩) := by
  refine hi.separatedUpTo hs h ht hne ?_
  have := length_le_of_separated h
  simp
  omega

theorem operator_eq_ok (isUnion : Bool) (t : List Char) (o : Nat) :
    operator ⟨o, Spelling.operator isUnion ++ t⟩ =
      .ok (isUnion, ⟨o + bytes (Spelling.operator isUnion), t⟩) := by
  cases isUnion <;> simp [Spelling.operator, operator, Cursor.drop]

theorem sources_of_people {ss : List Mention} (h : People '+' o ss cs) (isUnion : Bool) :
    sources ⟨o, cs ++ (Spelling.operator isUnion ++ t)⟩ =
      .ok (ss, ⟨o + bytes cs, Spelling.operator isUnion ++ t⟩) := by
  have hs : Stops ['+'] := stops_cons (by decide) (by decide) _
  have ht : Stops (Spelling.operator isUnion ++ t) := by
    cases isUnion <;> exact stops_cons (by decide) (by decide) _
  exact person_complete.separated hs h ht (by cases isUnion <;> simp [Spelling.operator])

theorem targets_of_people {ts : List Mention} (h : People ',' o ts cs) :
    targets ⟨o, cs⟩ = .ok (ts, ⟨o + bytes cs, []⟩) := by
  simpa [targets] using person_complete.separated (stops_cons (by decide) (by decide) _) h stops_nil
    (by simp)

theorem targets_of_blank (h : Blank cs) : ∃ e, targets ⟨o, cs⟩ = .error e := by
  have hskip := skipBlanks_eq h stops_nil.2 o
  rw [List.append_nil] at hskip
  refine ⟨⟨o + bytes cs, []⟩, ?_⟩
  simp [targets, Line.separated, Line.separatedUpTo, Line.spaced, person, wording, name, hskip, bind,
    Except.bind]

theorem finish_of_blank (x : α) (h : Blank cs) :
    finish x (Cursor.skipBlanks ⟨o, cs⟩) = .ok x := by
  have hskip := skipBlanks_eq h stops_nil.2 o
  rw [List.append_nil] at hskip
  rw [hskip]
  rfl

theorem relation_of_relationLine {x : List Mention × Bool × Option (List Mention)}
    (h : RelationLine o x cs) : relation ⟨o, cs⟩ = .ok x := by
  cases h with
  | @bare ss isUnion left right hl hr =>
    obtain ⟨e, he⟩ := targets_of_blank (o := o + bytes left + bytes (Spelling.operator isUnion)) hr
    simp only [List.append_assoc, relation, sources_of_people hl isUnion, operator_eq_ok, he, bind,
      Except.bind, finish_of_blank _ hr]
  | @full ss ts isUnion left right hl hr =>
    rw [bytes_append, ← Nat.add_assoc] at hr
    simp only [List.append_assoc, relation, sources_of_people hl isUnion, operator_eq_ok,
      targets_of_people hr, bind, Except.bind, finish_of_blank _ blank_nil]

theorem skipNumber_of_digits {ds : List Char} (hne : ds ≠ []) (hd : ∀ c ∈ ds, c.isDigit) :
    skipNumber ⟨o, ds ++ '.' :: t⟩ = ⟨o + bytes (ds ++ ['.']), t⟩ := by
  have hskip := dropWhile_eq (t := '.' :: t) hd (by simp) o
  simp [skipNumber, hskip, hne, Cursor.drop, Nat.add_assoc]

/-- Digits that no point follows are left to the first child. -/
theorem skipNumber_of_not_mem (h : '.' ∉ cs) : skipNumber ⟨o, cs⟩ = ⟨o, cs⟩ := by
  have hd : (cs.dropWhile Char.isDigit).head? ≠ some '.' := fun hp =>
    h ((List.dropWhile_sublist _).mem (List.mem_of_head? hp))
  simp [skipNumber, hd, Cursor.dropWhile]

theorem made_of_people {ts : List Mention} (h : People ',' o ts cs) : Made ['?', ','] cs := by
  have spaced {o : Nat} {m : Mention} {cs : List Char} (h : Spaced Mentions o m cs) :
      Made ['?', ','] cs := by
    obtain ⟨hb, hm, ha⟩ := h
    simp [made_of_blank hb, (made_of_person hm.wording).mono, made_of_blank ha]
  induction h with
  | one h => exact spaced h
  | more h _ ih => simp [spaced h, ih]

theorem children_of_childLine {ts : List Mention} (h : ChildLine o ts cs) :
    children ⟨o, cs⟩ = .ok ts := by
  cases h with
  | plain h =>
    have hp : '.' ∉ cs := (made_of_people h).not_mem (by decide) (by decide) (by decide)
    simp only [children, skipNumber_of_not_mem hp, targets_of_people h, bind, Except.bind]
    rfl
  | numbered hne hd h =>
    simp only [children, skipNumber_of_digits hne hd, targets_of_people h, bind, Except.bind]
    rfl

theorem aliases_of_words {names : List String} {ds : List Char}
    (h : Words (o + bytes ['(']) names ds) :
    aliases ⟨o, '(' :: (ds ++ ')' :: t)⟩ = .ok (names, ⟨o + bytes ('(' :: (ds ++ [')'])), t⟩) := by
  have hnames := name_complete.separated (t := ')' :: t) (stops_cons (by decide) (by decide) _) h
    (stops_cons (by decide) (by decide) _) (by simp)
  simp only [bytes_cons, bytes_nil, Nat.add_zero] at hnames
  simp [aliases, Cursor.drop, hnames, bind, Except.bind, pure, Except.pure, Nat.add_assoc]

theorem header_of_headerLine {x : String × List String} (h : HeaderLine o x cs) :
    header ⟨o, cs⟩ = .ok x := by
  cases h with
  | @bare surname cs after hn ha =>
    have hname := name_eq_ok hn (t := after) (by simpa using stops_nil.1.blank_append ha) o
    have hskip := skipBlanks_eq ha stops_nil.2 (o + bytes cs)
    rw [List.append_nil] at hskip
    simp only [header, hname, bind, Except.bind, hskip, aliases]
    rfl
  | @aliased surname others cs gap ds after hn hg hw ha =>
    have hstop : Stops ('(' :: (ds ++ ')' :: after)) := stops_cons (by decide) (by decide) _
    have hname := name_eq_ok hn (hstop.1.blank_append hg) o
    rw [bytes_append, bytes_append, ← Nat.add_assoc, ← Nat.add_assoc] at hw
    simp only [List.append_assoc, header, hname, bind, Except.bind, skipBlanks_eq hg hstop.2,
      aliases_of_words hw, finish_of_blank _ ha]

/-! ### The readers and the grammar -/

theorem relation_eq_ok_iff {x : List Mention × Bool × Option (List Mention)} :
    relation c = .ok x ↔ RelationLine c.offset x c.rest :=
  ⟨relationLine_of_relation, relation_of_relationLine⟩

theorem children_eq_ok_iff {ts : List Mention} :
    children c = .ok ts ↔ ChildLine c.offset ts c.rest :=
  ⟨childLine_of_children, children_of_childLine⟩

theorem header_eq_ok_iff {x : String × List String} :
    header c = .ok x ↔ HeaderLine c.offset x c.rest :=
  ⟨headerLine_of_header, header_of_headerLine⟩

/-- A reader accepts exactly what is described, and there is only one way to describe it. -/
structure Accepts (r : Except Cursor α) (Described : α → Prop) : Prop where
  iff : ∀ x, r = .ok x ↔ Described x
  unique : ∀ x y, Described x → Described y → x = y

theorem Accepts.of_iff {r : Except Cursor α} {Described : α → Prop}
    (h : ∀ x, r = .ok x ↔ Described x) : Accepts r Described where
  iff := h
  unique x y hx hy := Except.ok.inj (((h x).mpr hx).symm.trans ((h y).mpr hy))

/-- Wherever a line stands, each of the three readers accepts it just when it is divided as the grammar
has it, and with exactly the words, the operator and the persons of this division. -/
theorem accepts_lines (c : Cursor) :
    Accepts (relation c) (RelationLine c.offset · c.rest) ∧
      Accepts (children c) (ChildLine c.offset · c.rest) ∧
      Accepts (header c) (HeaderLine c.offset · c.rest) :=
  ⟨.of_iff fun _ => relation_eq_ok_iff, .of_iff fun _ => children_eq_ok_iff,
    .of_iff fun _ => header_eq_ok_iff⟩

end Line

end Pedigree.Markup
