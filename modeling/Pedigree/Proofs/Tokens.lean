import Mathlib
import Pedigree.Proofs.Spelling

/-! What the readers of single tokens make of a token that is spelled by the rules, and which characters
it has. A reader is given a text that is followed by something it cannot take, and returns what the
text means with that rest. -/
namespace Pedigree

namespace CharClass

theorem not_isSpace_of_isAlphanum {c : Char} (h : c.isAlphanum) (hc : c.toNat < 0x80) :
    isSpace c = false := by
  simp only [Char.isAlphanum, Char.isAlpha, Char.isUpper, Char.isLower, Char.isDigit,
    Bool.or_eq_true, Bool.and_eq_true, decide_eq_true_eq, ge_iff_le, UInt32.le_iff_toNat_le] at h
  change ((65 ≤ c.toNat ∧ c.toNat ≤ 90) ∨ (97 ≤ c.toNat ∧ c.toNat ≤ 122)) ∨
    (48 ≤ c.toNat ∧ c.toNat ≤ 57) at h
  have hs : c ≠ ' ' := by rintro rfl; revert h; decide
  simp only [isSpace, if_pos hc, hs, decide_false, Bool.false_or, Bool.and_eq_false_iff,
    decide_eq_false_iff_not]
  omega

theorem not_letter_of_space {n : Nat} (h : within spaceRanges n) :
    within letterRanges n = false := by
  have hn : n = 0x85 ∨ n = 0xa0 ∨ n = 0x1680 ∨ (0x2000 ≤ n ∧ n ≤ 0x200a) ∨ n = 0x2028 ∨
      n = 0x2029 ∨ n = 0x202f ∨ n = 0x205f ∨ n = 0x3000 := by
    simp only [spaceRanges, within, Bool.or_eq_true, decide_eq_true_eq, Bool.if_false_left,
      Bool.and_eq_true, Bool.not_eq_true', decide_eq_false_iff_not, Bool.false_eq_true,
      or_false] at h
    omega
  obtain rfl | rfl | rfl | ⟨h₁, h₂⟩ | rfl | rfl | rfl | rfl | rfl := hn
  case inr.inr.inr.inl => interval_cases n <;> decide +kernel
  all_goals decide +kernel

/-- Trimming a line never cuts into a name. -/
theorem not_isSpace_of_isName {c : Char} (h : isName c) : isSpace c = false := by
  simp only [isName, Bool.or_eq_true, decide_eq_true_eq] at h
  obtain (h | rfl) | rfl := h
  · unfold isAlphanumeric at h
    split at h
    · next hc => exact not_isSpace_of_isAlphanum h hc
    · next hc =>
      rw [isSpace, if_neg hc]
      by_contra hs
      rw [Bool.not_eq_false] at hs
      rw [not_letter_of_space hs] at h
      exact Bool.false_ne_true h
  · decide
  · decide

end CharClass

namespace Markup

open Spelling

/-! ### Tokens -/

section Tokens

/-- A text that does not continue a name. -/
def EndsName (t : List Char) : Prop := ∀ c ∈ t.head?, CharClass.isName c = false

/-- A text that starts with no blank. -/
def Flush (t : List Char) : Prop := ∀ c ∈ t.head?, CharClass.isBlank c = false

/-- A text that continues neither a name nor the blanks after it. -/
def Stops (t : List Char) : Prop := EndsName t ∧ Flush t

theorem stops_nil : Stops [] := by simp [Stops, EndsName, Flush]

theorem stops_cons {c : Char} (hn : CharClass.isName c = false) (hb : CharClass.isBlank c = false)
    (t : List Char) : Stops (c :: t) := by simp [Stops, EndsName, Flush, hn, hb]

theorem not_isName_of_isBlank {c : Char} (h : CharClass.isBlank c) :
    CharClass.isName c = false := by
  by_contra hn
  rw [Bool.not_eq_false] at hn
  rw [CharClass.not_isBlank_of_isName hn] at h
  exact Bool.false_ne_true h

theorem EndsName.blank_append {gap t : List Char} (hg : Blank gap) (ht : EndsName t) :
    EndsName (gap ++ t) := by
  cases gap with
  | nil => exact ht
  | cons c cs => simpa [EndsName] using not_isName_of_isBlank (hg c (by simp))

theorem EndsName.of_blank {gap : List Char} (hg : Blank gap) (hne : gap ≠ []) (t : List Char) :
    EndsName (gap ++ t) := by
  obtain ⟨c, cs, rfl⟩ := List.exists_cons_of_ne_nil hne
  simpa [EndsName] using not_isName_of_isBlank (hg c (by simp))

theorem takeWhile_append_of_head {p : Char → Bool} {cs t : List Char} (h : ∀ c ∈ cs, p c)
    (ht : ∀ c ∈ t.head?, p c = false) : (cs ++ t).takeWhile p = cs := by
  rw [List.takeWhile_append_of_pos h]
  cases t with
  | nil => simp
  | cons c t => simp [ht c (by simp)]

theorem dropWhile_append_of_head {p : Char → Bool} {cs t : List Char} (h : ∀ c ∈ cs, p c)
    (ht : ∀ c ∈ t.head?, p c = false) : (cs ++ t).dropWhile p = t := by
  rw [List.dropWhile_append_of_pos h]
  cases t with
  | nil => simp
  | cons c t => simp [ht c (by simp)]

theorem dropWhile_eq {p : Char → Bool} {cs t : List Char} (h : ∀ c ∈ cs, p c)
    (ht : ∀ c ∈ t.head?, p c = false) (o : Nat) :
    Cursor.dropWhile ⟨o, cs ++ t⟩ p = ⟨o + bytes cs, t⟩ := by
  simp [Cursor.dropWhile, takeWhile_append_of_head h ht, dropWhile_append_of_head h ht]

theorem skipBlanks_eq {gap t : List Char} (hg : Blank gap) (ht : Flush t) (o : Nat) :
    Cursor.skipBlanks ⟨o, gap ++ t⟩ = ⟨o + bytes gap, t⟩ :=
  dropWhile_eq hg ht o

theorem Spelling.Name.exists_head {s : String} {cs : List Char} (h : Name s cs) :
    ∃ c ds, cs = c :: ds ∧ CharClass.isName c := by
  obtain ⟨hne, hn⟩ := h
  obtain ⟨c, ds, hs⟩ := List.exists_cons_of_ne_nil hne
  exact ⟨c, ds, hs, hn c (by simp [hs])⟩

theorem Spelling.Name.flush {s : String} {cs : List Char} (h : Name s cs) (t : List Char) :
    Flush (cs ++ t) := by
  obtain ⟨c, ds, rfl, hc⟩ := h.exists_head
  simpa [Flush] using CharClass.not_isBlank_of_isName hc

theorem Spelling.Person.flush {w : Wording} {cs : List Char} (h : Person w cs) (t : List Char) :
    Flush (cs ++ t) := by
  cases h with
  | unknown => simp [Flush]; decide
  | one h => exact h.flush t
  | two h => simpa using h.flush _

theorem Spelling.Person.ne_nil {w : Wording} {cs : List Char} (h : Person w cs) : cs ≠ [] := by
  have name {s : String} {cs : List Char} (h : Name s cs) : cs ≠ [] := by
    obtain ⟨c, ds, rfl, -⟩ := h.exists_head
    simp
  cases h with
  | unknown => simp
  | one h => exact name h
  | two h => simp [name h]

theorem name_eq_ok {s : String} {cs t : List Char} (h : Name s cs) (ht : EndsName t) (o : Nat) :
    Line.name ⟨o, cs ++ t⟩ = .ok (s, ⟨o + bytes cs, t⟩) := by
  obtain ⟨hne, hn⟩ := h
  simp [Line.name, takeWhile_append_of_head hn ht, dropWhile_eq hn ht, hne]

theorem name_eq_error {t : List Char} (ht : EndsName t) (o : Nat) :
    Line.name ⟨o, t⟩ = .error ⟨o, t⟩ := by
  have htake : t.takeWhile CharClass.isName = [] := by
    simpa using takeWhile_append_of_head (List.forall_mem_nil (CharClass.isName ·)) ht
  simp [Line.name, htake]

theorem secondWord?_eq_some {s : String} {gap cs t : List Char} (hne : gap ≠ []) (hg : Blank gap)
    (h : Name s cs) (ht : EndsName t) (o : Nat) :
    Line.secondWord? ⟨o, gap ++ (cs ++ t)⟩ = some (s, ⟨o + bytes gap + bytes cs, t⟩) := by
  simp [Line.secondWord?, skipBlanks_eq hg (h.flush t), name_eq_ok h ht, hne, Except.toOption]

theorem secondWord?_eq_none {gap t : List Char} (hg : Blank gap) (ht : Stops t) (o : Nat) :
    Line.secondWord? ⟨o, gap ++ t⟩ = none := by
  simp [Line.secondWord?, skipBlanks_eq hg ht.2, name_eq_error ht.1, Except.toOption]

theorem wording_of_name {s : String} {cs t : List Char} (h : Name s cs) (ht : EndsName t)
    (o : Nat) : Line.wording ⟨o, cs ++ t⟩ =
      match Line.secondWord? ⟨o + bytes cs, t⟩ with
      | some (second, e) => .ok (.words s (some second), e)
      | none => .ok (.words s none, ⟨o + bytes cs, t⟩) := by
  have hq : (cs ++ t).head? ≠ some '?' := by
    obtain ⟨c, ds, rfl, hc⟩ := h.exists_head
    rintro ⟨⟩
    exact absurd hc (by decide)
  simp only [Line.wording, if_neg hq, name_eq_ok h ht]
  rfl

/-- A second word is always taken, and blanks without one never are. -/
theorem wording_eq_ok {w : Wording} {cs gap t : List Char} (h : Person w cs) (hg : Blank gap)
    (ht : Stops t) (o : Nat) :
    Line.wording ⟨o, cs ++ (gap ++ t)⟩ = .ok (w, ⟨o + bytes cs, gap ++ t⟩) := by
  cases h with
  | unknown => rfl
  | one h =>
    rw [wording_of_name h (ht.1.blank_append hg), secondWord?_eq_none hg ht]
  | @two s s' cs between ds h hne hb h' =>
    simp only [List.append_assoc]
    rw [wording_of_name h (.of_blank hb hne _),
      secondWord?_eq_some hne hb h' (ht.1.blank_append hg)]
    simp [Nat.add_assoc]

end Tokens

/-! ### The characters of tokens -/

section Characters

/-- Only names, blanks and some further characters. -/
def Made (extra cs : List Char) : Prop :=
  ∀ c ∈ cs, CharClass.isName c ∨ CharClass.isBlank c ∨ c ∈ extra

variable {extra cs ds : List Char}

@[simp] theorem made_nil : Made extra [] := by simp [Made]

@[simp] theorem made_append : Made extra (cs ++ ds) ↔ Made extra cs ∧ Made extra ds :=
  List.forall_mem_append

@[simp] theorem made_cons {c : Char} :
    Made extra (c :: cs) ↔ (CharClass.isName c ∨ CharClass.isBlank c ∨ c ∈ extra) ∧ Made extra cs :=
  List.forall_mem_cons

theorem Made.mono {extra' : List Char} (h : Made extra cs) (hs : extra ⊆ extra') :
    Made extra' cs := fun c hc => (h c hc).imp_right (.imp_right fun h => hs h)

theorem Made.not_mem (h : Made extra cs) {c : Char} (hn : CharClass.isName c = false)
    (hb : CharClass.isBlank c = false) (hc : c ∉ extra) : c ∉ cs := fun hm => by
  simpa [hn, hb, hc] using h c hm

theorem made_of_mem (h : ∀ c ∈ cs, c ∈ extra) : Made extra cs := fun c hc => .inr (.inr (h c hc))

theorem made_of_blank (h : Blank cs) : Made extra cs := fun c hc => .inr (.inl (h c hc))

theorem isName_of_isDigit {c : Char} (h : c.isDigit) : CharClass.isName c := by
  have hc : c.toNat < 0x80 := by
    simp only [Char.isDigit, Bool.and_eq_true, decide_eq_true_eq, UInt32.le_iff_toNat_le] at h
    change _ ∧ c.toNat ≤ 57 at h
    omega
  simp [CharClass.isName, CharClass.isAlphanumeric, hc, Char.isAlphanum, h]

theorem made_of_name {s : String} (h : Name s cs) : Made extra cs := by
  obtain ⟨-, hn⟩ := h
  exact fun c hc => .inl (hn c hc)

theorem made_of_person {w : Wording} (h : Person w cs) : Made ['?'] cs := by
  cases h with
  | unknown => exact made_of_mem (by simp)
  | one h => exact made_of_name h
  | two h _ hg h' => simp [made_of_name h, made_of_blank hg, made_of_name h']

end Characters

end Markup

end Pedigree
