import Pedigree.Identity.Interner
import Pedigree.Proofs.Quotations

/-! Identities do not collide. Whatever calls are made, the symbols that they give are told apart just as
their texts are, and keep these texts. The texts of two members are told apart by family and name as long
as no family has a colon in its name, and no name that is read has one. -/
namespace Pedigree

namespace Interner

variable {I : Interner}

/-- What an interner has to keep to: a string that was interned has got the symbol, which stays its own
and gives the string back. -/
structure Lawful (I : Interner) : Prop where
  symbol_intern : ∀ s t, I.symbol? (I.intern s t).2 s = some (I.intern s t).1
  symbol_later : ∀ s t u k, I.symbol? t s = some k → I.symbol? (I.intern u t).2 s = some k
  resolve_symbol : ∀ s t k, I.symbol? t s = some k → I.resolve? t k = some s

/-- No string loses its symbol. -/
def Grows (t t' : I.Table) : Prop := ∀ s k, I.symbol? t s = some k → I.symbol? t' s = some k

theorem Grows.refl (t : I.Table) : Grows t t := fun _ _ h => h

theorem Grows.trans {t t' t'' : I.Table} (h : Grows t t') (h' : Grows t' t'') : Grows t t'' :=
  fun s k hk => h' s k (h s k hk)

/-- A step succeeds and makes the symbol of a string. -/
def Makes (step : I.Step I.Symbol) (t : I.Table) (s : String) : Prop :=
  ∃ k t', step t = some (k, t') ∧ Grows t t' ∧ I.symbol? t' s = some k

/-- Symbols that have been made for identities. -/
def Agree (t : I.Table) (made : List I.Symbol) (ids : List Id) : Prop :=
  List.Forall₂ (fun k id => I.symbol? t id.text = some k) made ids

/-! ### Calls -/

section Steps

variable {t t' : I.Table} {made : List I.Symbol} {ids : List Id}

theorem bind_eq {x : I.Step α} {f : α → I.Step β} {a : α} (h : x t = some (a, t')) :
    (x >>= f) t = f a t' := by
  change (x t).bind _ = _
  rw [h]
  rfl

theorem makes_new (hI : I.Lawful) (name : String) (t : I.Table) : Makes (I.new name) t name :=
  ⟨_, _, rfl, fun s k hk => hI.symbol_later s t name k hk, hI.symbol_intern name t⟩

/-- Looking a text up never fails for a symbol that was made. -/
theorem text_eq (hI : I.Lawful) {s : String} {k : I.Symbol} (h : I.symbol? t s = some k) :
    I.text k t = some (s, t) := by
  rw [text, hI.resolve_symbol s t k h, Option.map_some]

theorem makes_nested (hI : I.Lawful) {parent child : I.Symbol} {p c : String}
    (hp : I.symbol? t p = some parent) (hc : I.symbol? t c = some child) :
    Makes (I.nested parent child) t (p ++ "::" ++ c) := by
  have hstep : I.nested parent child t = I.new (p ++ "::" ++ c) t := by
    rw [nested, bind_eq (text_eq hI hp), bind_eq (text_eq hI hc)]
  unfold Makes
  rw [hstep]
  exact makes_new hI _ t

theorem makes_member (hI : I.Lawful) (family name : String) (t : I.Table) :
    Makes (I.member family name) t (Id.member family name).text := by
  obtain ⟨f, t₁, hf, hgf, hsf⟩ := makes_new hI family t
  obtain ⟨n, t₂, hn, hgn, hsn⟩ := makes_new hI name t₁
  obtain ⟨k, t₃, hk, hgk, hsk⟩ := makes_nested hI (hgn _ _ hsf) hsn
  refine ⟨k, t₃, ?_, (hgf.trans hgn).trans hgk, hsk⟩
  rw [member, bind_eq hf, bind_eq hn]
  exact hk

theorem Agree.grows (h : Agree t made ids) (hg : Grows t t') : Agree t' made ids :=
  h.imp fun _ _ hk => hg _ _ hk

theorem Agree.getElem? (h : Agree t made ids) {i : Nat} {id : Id} (hi : ids[i]? = some id) :
    ∃ k, made[i]? = some k ∧ I.symbol? t id.text = some k := by
  induction h generalizing i with
  | nil => simp at hi
  | cons hk _ ih =>
    cases i with
    | zero =>
      cases hi
      exact ⟨_, rfl, hk⟩
    | succ i => exact ih hi

/-- A call makes the symbol of the identity that it stands for. -/
theorem Agree.call (hI : I.Lawful) (h : Agree t made ids) {c : Call} {id : Id}
    (hc : c.id? ids = some id) : Makes (I.call made c) t id.text := by
  cases c with
  | new name =>
    cases hc
    exact makes_new hI name t
  | nested i j =>
    obtain ⟨p, hi, hc⟩ := Option.bind_eq_some_iff.mp hc
    obtain ⟨q, hj, hc⟩ := Option.bind_eq_some_iff.mp hc
    cases hc
    obtain ⟨parent, hparent, hp⟩ := h.getElem? hi
    obtain ⟨child, hchild, hq⟩ := h.getElem? hj
    have hstep : I.call made (.nested i j) t = I.nested parent child t := by
      simp only [Interner.call, hparent, hchild]
      rfl
    unfold Makes
    rw [hstep]
    exact makes_nested hI hp hq
  | member family name =>
    cases hc
    exact makes_member hI family name t

theorem Agree.next (hI : I.Lawful) (h : Agree t made ids) {c : Call} {all : List Id}
    (hc : Call.next ids c = some all) : ∃ k t', I.next made c t = some (made ++ [k], t') ∧
      Agree t' (made ++ [k]) all ∧ Grows t t' := by
  obtain ⟨id, hid, hall⟩ := Option.bind_eq_some_iff.mp hc
  cases hall
  obtain ⟨k, t', hk, hg, hs⟩ := h.call hI hid
  refine ⟨k, t', ?_, List.rel_append (h.grows hg) (.cons hs .nil), hg⟩
  rw [Interner.next, bind_eq hk]
  rfl

/-- Calls go on from symbols that have been made, which stay what they are. -/
theorem Agree.foldlM (hI : I.Lawful) {calls : List Call} {all : List Id} (h : Agree t made ids)
    (hc : calls.foldlM Call.next ids = some all) : ∃ more t',
      calls.foldlM I.next made t = some (made ++ more, t') ∧ Agree t' (made ++ more) all ∧
        Grows t t' := by
  induction calls generalizing t made ids with
  | nil =>
    cases hc
    refine ⟨[], ?_⟩
    rw [List.append_nil]
    exact ⟨t, rfl, h, .refl t⟩
  | cons c calls ih =>
    rw [List.foldlM_cons] at hc
    obtain ⟨next, hn, hc⟩ := Option.bind_eq_some_iff.mp hc
    obtain ⟨k, t₁, hk, ha, hg⟩ := h.next hI hn
    obtain ⟨more, t₂, hm, ha', hg'⟩ := ih ha hc
    rw [List.append_assoc, List.singleton_append] at hm ha'
    refine ⟨k :: more, t₂, ?_, ha', hg.trans hg'⟩
    rw [List.foldlM_cons, bind_eq hk]
    exact hm

end Steps

/-! ### What calls give -/

/-- Symbols with the texts of identities, told apart as these are. -/
structure Tells (I : Interner) (t : I.Table) (made : List I.Symbol) (ids : List Id) : Prop where
  texts : made.map (I.resolve? t) = ids.map fun id => some id.text
  eq_iff : ∀ a ∈ made, ∀ b ∈ made, a = b ↔ I.resolve? t a = I.resolve? t b

section Runs

variable {t t' : I.Table} {made : List I.Symbol} {ids all : List Id}

theorem symbol_eq_iff (hI : I.Lawful) {a b : I.Symbol} {s u : String}
    (ha : I.symbol? t s = some a) (hb : I.symbol? t u = some b) : a = b ↔ s = u := by
  constructor
  · rintro rfl
    exact Option.some.inj ((hI.resolve_symbol s t a ha).symm.trans (hI.resolve_symbol u t a hb))
  · rintro rfl
    exact Option.some.inj (ha.symm.trans hb)

theorem Agree.exists_text (h : Agree t made ids) {k : I.Symbol} (hk : k ∈ made) :
    ∃ s, I.symbol? t s = some k := by
  obtain ⟨id, -, hid⟩ := exists_mem_of_forall₂ h hk
  exact ⟨id.text, hid⟩

theorem Agree.tells (hI : I.Lawful) (h : Agree t made ids) : I.Tells t made ids where
  texts := by
    induction h with
    | nil => rfl
    | cons hk _ ih => rw [List.map_cons, List.map_cons, ih, hI.resolve_symbol _ _ _ hk]
  eq_iff a ha b hb := by
    obtain ⟨s, hs⟩ := h.exists_text ha
    obtain ⟨u, hu⟩ := h.exists_text hb
    rw [symbol_eq_iff hI hs hu, hI.resolve_symbol s t a hs, hI.resolve_symbol u t b hu,
      Option.some.injEq]

/-- A symbol that was made is looked up as before once the table has grown. -/
theorem Agree.resolve_eq (hI : I.Lawful) (h : Agree t made ids) (hg : Grows t t') :
    ∀ k ∈ made, I.resolve? t' k = I.resolve? t k := by
  intro k hk
  obtain ⟨s, hs⟩ := h.exists_text hk
  rw [hI.resolve_symbol s t k hs, hI.resolve_symbol s t' k (hg s k hs)]

theorem exists_foldlM_next {calls : List Call} (h : calls.foldlM Call.next ids = some all) :
    ∃ more, all = ids ++ more ∧ ∀ (i : Nat) family name,
      calls[i]? = some (.member family name) → more[i]? = some (Id.member family name) := by
  induction calls generalizing ids with
  | nil =>
    cases h
    exact ⟨[], by simp, by simp⟩
  | cons c calls ih =>
    rw [List.foldlM_cons] at h
    obtain ⟨next, hn, h⟩ := Option.bind_eq_some_iff.mp h
    obtain ⟨id, hid, hnext⟩ := Option.bind_eq_some_iff.mp hn
    cases hnext
    obtain ⟨more, rfl, hmore⟩ := ih h
    refine ⟨id :: more, by simp, fun i family name hi => ?_⟩
    cases i with
    | zero =>
      cases hi
      exact hid.symm
    | succ i => exact hmore i family name hi

theorem getElem?_ids {calls : List Call} (h : Call.ids calls = some ids) {i : Nat}
    {family name : String} (hi : calls[i]? = some (.member family name)) :
    ids[i]? = some (.member family name) := by
  obtain ⟨more, rfl, hmore⟩ := exists_foldlM_next h
  exact hmore i family name hi

theorem Agree.member_eq_iff (hI : I.Lawful) (h : Agree t made ids) {calls : List Call}
    (hc : Call.ids calls = some ids) {i j : Nat} {f n f' n' : String}
    (hi : calls[i]? = some (.member f n)) (hj : calls[j]? = some (.member f' n')) :
    made[i]? = made[j]? ↔ Id.member f n = Id.member f' n' := by
  obtain ⟨a, ha, hsa⟩ := h.getElem? (getElem?_ids hc hi)
  obtain ⟨b, hb, hsb⟩ := h.getElem? (getElem?_ids hc hj)
  rw [ha, hb, Option.some.injEq, symbol_eq_iff hI hsa hsb, Id.eq_iff_text_eq]

/-- Further calls go on where the first ones have ended. -/
theorem run_append {calls : List Call} (h : I.run calls t = some (made, t')) (later : List Call) :
    I.run (calls ++ later) t = later.foldlM I.next made t' := by
  rw [run, List.foldlM_append]
  exact bind_eq h

theorem exists_run (hI : I.Lawful) {calls : List Call} (hc : Call.ids calls = some ids)
    (t : I.Table) : ∃ made t', I.run calls t = some (made, t') ∧ Agree t' made ids := by
  obtain ⟨made, t', hrun, ha, -⟩ := Agree.foldlM hI (.nil : Agree t [] []) hc
  exact ⟨made, t', hrun, ha⟩

theorem Agree.later (hI : I.Lawful) (h : Agree t made ids) {calls later : List Call}
    (hc : Call.ids calls = some ids) (hl : Call.ids (calls ++ later) = some all) :
    ∃ more t', later.foldlM I.next made t = some (made ++ more, t') ∧ I.Tells t' (made ++ more) all ∧
      ∀ k ∈ made, I.resolve? t' k = I.resolve? t k := by
  have hl' : later.foldlM Call.next ids = some all := by
    rw [Call.ids, List.foldlM_append] at hl
    obtain ⟨_, hids, hl⟩ := Option.bind_eq_some_iff.mp hl
    cases hc.symm.trans hids
    exact hl
  obtain ⟨more, t', hrun, ha, hg⟩ := h.foldlM hI hl'
  exact ⟨more, t', hrun, ha.tells hI, h.resolve_eq hI hg⟩

end Runs

end Interner

/-! ### Members -/

theorem Id.member_eq_iff {f n f' n' : String} (hf : ':' ∉ f.toList) (hf' : ':' ∉ f'.toList) :
    Id.member f n = Id.member f' n' ↔ f = f' ∧ n = n' := by
  constructor
  · intro h
    have ht : f.toList ++ ':' :: ':' :: n.toList = f'.toList ++ ':' :: ':' :: n'.toList := by
      simpa [Id.member, Id.nested, ← String.toList_inj] using h
    have upto {s : String} (hs : ':' ∉ s.toList) (t : List Char) :
        (s.toList ++ ':' :: t).takeWhile (· != ':') = s.toList :=
      Markup.takeWhile_append_of_head (fun c hc => bne_iff_ne.mpr fun he => hs (he ▸ hc)) (by simp)
    have hfamily : f.toList = f'.toList := by rw [← upto hf, ht, upto hf']
    rw [hfamily] at ht
    have hname := List.append_cancel_left ht
    simp only [List.cons.injEq, true_and] at hname
    exact ⟨String.toList_inj.mp hfamily, String.toList_inj.mp hname⟩
  · rintro ⟨rfl, rfl⟩
    rfl

theorem Id.colon_not_mem {s : String} (h : ∀ c ∈ s.toList, CharClass.isName c) : ':' ∉ s.toList :=
  fun hc => absurd (h ':' hc) (by decide)

theorem Snapshot.memberAt_eq_iff {source : String} {d : Markup.Document}
    (h : Markup.read source = .ok d) {o p : Markup.Occurrence} (ho : o ∈ Markup.occurrences d)
    (hp : p ∈ Markup.occurrences d) {f n f' n' : String} (hd : Markup.Denotes d o f n)
    (hd' : Markup.Denotes d p f' n') : memberAt d o = memberAt d p ↔ f = f' ∧ n = n' := by
  have colon {o : Markup.Occurrence} (ho : o ∈ Markup.occurrences d) {f n : String}
      (hd : Markup.Denotes d o f n) : ':' ∉ f.toList := by
    obtain ⟨g, hg, rfl⟩ := (hd.defined ho).exists_family
    exact Id.colon_not_mem (Markup.isWord_of_mem h g hg).2
  have hid := (memberAt_eq_some_iff h ho).mpr ⟨f, n, hd, rfl⟩
  have hid' := (memberAt_eq_some_iff h hp).mpr ⟨f', n', hd', rfl⟩
  rw [hid, hid', Option.some.injEq, Id.member_eq_iff (colon ho hd) (colon hp hd')]

namespace Interner

/-- Whatever an interner has seen before, calls that tell only of earlier ones go through; their symbols
are equal when their texts are, and later calls leave these texts as they are. Members whose families
are of name characters are told apart by family and name, by their symbols as by their texts, and so are
the members that a document tells of. -/
theorem identities_apart :
    (∀ I : Interner, I.Lawful → ∀ t calls ids, Call.ids calls = some ids →
      ∃ made t', I.run calls t = some (made, t') ∧ I.Tells t' made ids ∧
        (∀ later all, Call.ids (calls ++ later) = some all →
          ∃ more t'', I.run (calls ++ later) t = some (made ++ more, t'') ∧
            I.Tells t'' (made ++ more) all ∧ ∀ k ∈ made, I.resolve? t'' k = I.resolve? t' k) ∧
        ∀ (i j : Nat) f n f' n', calls[i]? = some (.member f n) →
          calls[j]? = some (.member f' n') → (∀ c ∈ f.toList, CharClass.isName c) →
          (∀ c ∈ f'.toList, CharClass.isName c) → (made[i]? = made[j]? ↔ f = f' ∧ n = n')) ∧
    (∀ f n f' n' : String, (∀ c ∈ f.toList, CharClass.isName c) →
      (∀ c ∈ f'.toList, CharClass.isName c) →
      (Id.member f n = Id.member f' n' ↔ f = f' ∧ n = n')) ∧
    ∀ source d, Markup.read source = .ok d → ∀ o ∈ Markup.occurrences d,
      ∀ p ∈ Markup.occurrences d, ∀ f n f' n', Markup.Denotes d o f n → Markup.Denotes d p f' n' →
        (Snapshot.memberAt d o = Snapshot.memberAt d p ↔ f = f' ∧ n = n') := by
  have apart (f n f' n' : String) (hf : ∀ c ∈ f.toList, CharClass.isName c)
      (hf' : ∀ c ∈ f'.toList, CharClass.isName c) :
      Id.member f n = Id.member f' n' ↔ f = f' ∧ n = n' :=
    Id.member_eq_iff (Id.colon_not_mem hf) (Id.colon_not_mem hf')
  refine ⟨fun I hI t calls ids hc => ?_, apart, fun source d h o ho p hp f n f' n' =>
    Snapshot.memberAt_eq_iff h ho hp⟩
  obtain ⟨made, t', hrun, ha⟩ := exists_run hI hc t
  refine ⟨made, t', hrun, ha.tells hI, fun later all hl => ?_, fun i j f n f' n' hi hj hf hf' => ?_⟩
  · rw [run_append hrun]
    exact ha.later hI hc hl
  · rw [ha.member_eq_iff hI hc hi hj, apart f n f' n' hf hf']

/-- A list with a string, which is put at its end if it is not there. -/
def enlist (s : String) (t : List String) : List String := if s ∈ t then t else t ++ [s]

/-- Strings in the order in which they have come, each known by its number. -/
def listing : Interner where
  Table := List String
  Symbol := Nat
  symbol? t s := t.idxOf? s
  intern s t := ((t.idxOf? s).getD t.length, enlist s t)
  resolve? t k := t[k]?

theorem idxOf?_enlist_self (s : String) (t : List String) :
    (enlist s t).idxOf? s = some ((t.idxOf? s).getD t.length) := by
  unfold enlist
  split
  · next hs =>
    obtain ⟨k, hk⟩ := Option.ne_none_iff_exists'.mp (mt List.idxOf?_eq_none_iff.mp (not_not_intro hs))
    rw [hk, Option.getD_some]
  · next hs =>
    have hn := List.idxOf?_eq_none_iff.mpr hs
    rw [hn]
    rw [List.idxOf?] at hn ⊢
    rw [List.findIdx?_append, hn]
    simp

theorem idxOf?_enlist {s : String} {t : List String} {k : Nat} (h : t.idxOf? s = some k)
    (u : String) : (enlist u t).idxOf? s = some k := by
  unfold enlist
  split
  · exact h
  · rw [List.idxOf?] at h ⊢
    rw [List.findIdx?_append, h, Option.some_or]

theorem lawful_listing : listing.Lawful where
  symbol_intern := idxOf?_enlist_self
  symbol_later _ _ u _ h := idxOf?_enlist h u
  resolve_symbol _ _ _ h := by
    obtain ⟨hk, hs, -⟩ := List.idxOf?_eq_some_iff.mp h
    exact List.getElem?_eq_some_iff.mpr ⟨hk, hs⟩

/-- The member that the third call makes of two names comes back at once. -/
def leeCalls : List Call :=
  [.new "Lee", .new "Bo", .nested 0 1, .member "Lee" "Bo", .member "Lee" "Ann"]

theorem identities_apart_lees : listing.Lawful ∧
    (∃ made t, listing.run leeCalls (["Ann"] : List String) = some (made, t) ∧
      made.map (listing.resolve? t) =
        [some "Lee", some "Bo", some "Lee::Bo", some "Lee::Bo", some "Lee::Ann"] ∧
      made[3]? ≠ made[4]? ∧
      ∃ more t', listing.run (leeCalls ++ [.member "Bo" "Lee"]) (["Ann"] : List String) =
        some (made ++ more, t') ∧ ∀ k ∈ made, listing.resolve? t' k = listing.resolve? t k) ∧
    ∃ d, Markup.read Snapshot.leesSource = .ok d ∧ ∃ o ∈ Markup.occurrences d,
      ∃ p ∈ Markup.occurrences d, o.mention.wording = .words "Bo" none ∧
        p.mention.wording = .words "Óla" (some "Ray") ∧
        Snapshot.memberAt d o ≠ Snapshot.memberAt d p := by
  obtain ⟨hruns, -, hdocs⟩ := identities_apart
  refine ⟨lawful_listing, ?_, ?_⟩
  · obtain ⟨made, t, hrun, ht, hlater, hm⟩ := hruns listing lawful_listing ["Ann"] leeCalls _ rfl
    obtain ⟨more, t', hrun', -, hk⟩ := hlater [.member "Bo" "Lee"] _ rfl
    have hne : "Bo" ≠ "Ann" := by decide
    have hlee : Markup.IsWord "Lee" := by decide +kernel
    have hiff := hm 3 4 "Lee" "Bo" "Lee" "Ann" rfl rfl hlee.2 hlee.2
    exact ⟨made, t, hrun, ht.texts, fun h => hne (hiff.mp h).2, more, t', hrun', hk⟩
  · obtain ⟨d, hd, o, ho, p, hp, hor, how, hpr, hpw⟩ : ∃ d, Markup.read Snapshot.leesSource = .ok d ∧
        ∃ o ∈ Markup.occurrences d, ∃ p ∈ Markup.occurrences d, o.role = .target ∧
          o.mention.wording = .words "Bo" none ∧ p.role = .target ∧
          p.mention.wording = .words "Óla" (some "Ray") :=
      Checked.exists_of_toOption_map_decide (by decide +kernel)
    have hne : "Bo" ≠ "Óla" := by decide
    exact ⟨d, hd, o, ho, p, hp, how, hpw, fun h =>
      hne ((hdocs _ d hd o ho p hp _ _ _ _ (.child hor how) (.child hpr hpw)).mp h).2⟩

end Interner

end Pedigree
