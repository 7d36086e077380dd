import Pedigree.Session.FileTree

/-! Which paths texts name, and what writing does. Every file is found by its names from the root,
and below the working directory by those from there. Writing changes one file and no directory, so
all texts name the same paths as before. -/
namespace Pedigree.FileTree

variable {t : FileTree} {path p q : FilePath}

/-! ### Directories -/

theorem isDirectory_iff : t.isDirectory p ↔
    (∃ d ∈ t.working :: t.folders, p <+: d) ∨ ∃ f ∈ t.files, p <+: f.1 ∧ p ≠ f.1 := by
  simp [isDirectory]

theorem isDirectory_working : t.isDirectory t.working :=
  isDirectory_iff.2 (.inl ⟨t.working, List.mem_cons_self, List.prefix_rfl⟩)

theorem isDirectory_of_prefix (h : t.isDirectory q) (hp : p <+: q) : t.isDirectory p := by
  rw [isDirectory_iff] at h ⊢
  cases h with
  | inl h =>
    obtain ⟨d, hd, hq⟩ := h
    exact .inl ⟨d, hd, hp.trans hq⟩
  | inr h =>
    obtain ⟨f, hf, hq, hne⟩ := h
    refine .inr ⟨f, hf, hp.trans hq, ?_⟩
    rintro rfl
    exact hne (hq.eq_of_length_le hp.length_le)

theorem isDirectory_root : t.isDirectory [] := isDirectory_of_prefix isDirectory_working List.nil_prefix

/-- A file lies in a directory. -/
theorem isDirectory_dropLast (hne : path ≠ []) (hfile : (t.get? path).isSome) :
    t.isDirectory path.dropLast := by
  obtain ⟨content, hcontent⟩ := Option.isSome_iff_exists.1 hfile
  have hshorter : path.dropLast ≠ path := by
    intro he
    have hlength := congrArg List.length he
    rw [List.length_dropLast] at hlength
    have := List.length_pos_iff.2 hne
    omega
  exact isDirectory_iff.2
    (.inr ⟨_, Keyed.mem_of_lookup hcontent, List.dropLast_prefix path, hshorter⟩)

theorem prefix_dropLast (h : p <+: path) (hne : p ≠ path) : p <+: path.dropLast := by
  cases List.eq_nil_or_concat path with
  | inl hnil =>
    rw [hnil] at h ⊢
    exact h
  | inr hconcat =>
    obtain ⟨parent, name, rfl⟩ := hconcat
    rw [List.concat_eq_append] at h hne ⊢
    rw [List.dropLast_concat]
    exact (List.prefix_concat_iff.1 h).resolve_left hne

/-- A file that is put into a directory makes no new directory, and takes none away. -/
theorem isDirectory_put (hparent : t.isDirectory path.dropLast) (content : ByteArray) (p : FilePath) :
    (t.put path content).isDirectory p = t.isDirectory p := by
  rw [Bool.eq_iff_iff]
  constructor
  · intro h
    cases isDirectory_iff.1 h with
    | inl h => exact isDirectory_iff.2 (.inl h)
    | inr h =>
      obtain ⟨f, hf, hp, hpf⟩ := h
      cases List.mem_cons.1 hf with
      | inl hf =>
        subst hf
        exact isDirectory_of_prefix hparent (prefix_dropLast hp hpf)
      | inr hf => exact isDirectory_iff.2 (.inr ⟨f, (List.mem_filter.1 hf).1, hp, hpf⟩)
  · intro h
    cases isDirectory_iff.1 h with
    | inl h => exact isDirectory_iff.2 (.inl h)
    | inr h =>
      obtain ⟨f, hf, hp, hpf⟩ := h
      refine isDirectory_iff.2 (.inr ?_)
      by_cases he : f.1 = path
      · exact ⟨(path, content), List.mem_cons_self, he ▸ hp, he ▸ hpf⟩
      · exact ⟨f, List.mem_cons_of_mem _ (List.mem_filter.2 ⟨hf, by simpa using he⟩), hp, hpf⟩

/-! ### Texts of paths -/

/-- What a file or a directory may be called. -/
structure IsName (name : String) : Prop where
  ne_empty : name ≠ ""
  ne_current : name ≠ "."
  ne_parent : name ≠ ".."
  no_slash : '/' ∉ name.toList
  no_null : '\x00' ∉ name.toList
  short : name.utf8ByteSize ≤ nameLimit

/-- A path from the working directory as a text. -/
def relative (path : FilePath) : String := "/".intercalate path

/-- A path from the root as a text. -/
def absolute (path : FilePath) : String := "/".intercalate ("" :: path)

/-- A path that something may have, and that is not too long to be looked up. -/
structure IsPath (path : FilePath) : Prop where
  ne_nil : path ≠ []
  names : ∀ s ∈ path, IsName s
  short : (absolute path).utf8ByteSize ≤ pathLimit

theorem absolute_eq (hne : path ≠ []) : absolute path = "/" ++ relative path := by
  rw [absolute, String.intercalate_cons_of_ne_nil hne, String.empty_append, relative]

theorem IsPath.short_relative (h : IsPath path) : (relative path).utf8ByteSize ≤ pathLimit := by
  have hshort := h.short
  rw [absolute_eq h.ne_nil, String.utf8ByteSize_append] at hshort
  omega

theorem IsName.isPath {name : String} (h : IsName name) : IsPath [name] := by
  refine ⟨List.cons_ne_nil _ _, by simpa using h, ?_⟩
  have hslash : "/".utf8ByteSize = 1 := by decide
  have hlimits : nameLimit < pathLimit := by decide
  have hshort := h.short
  rw [absolute_eq (List.cons_ne_nil _ _), relative, String.intercalate_singleton,
    String.utf8ByteSize_append, hslash]
  omega

theorem names_intercalate {texts : List String} (hne : texts ≠ [])
    (h : ∀ s ∈ texts, '/' ∉ s.toList) : names ("/".intercalate texts) = texts := by
  have hsplit : (['/'].intercalate (texts.map String.toList)).splitOn '/' =
      texts.map String.toList := by
    apply List.splitOn_intercalate
    · simpa using h
    · simpa using hne
  rw [names, String.toList_intercalate]
  change ((['/'].intercalate (texts.map String.toList)).splitOn '/').map String.ofList = texts
  rw [hsplit, List.map_map]
  exact (List.map_congr_left fun s _ => String.ofList_toList).trans (List.map_id texts)

theorem exists_toList_intercalate (s : String) (texts : List String) :
    ∃ cs, ("/".intercalate (s :: texts)).toList = s.toList ++ cs := by
  by_cases hne : texts = []
  · subst hne
    exact ⟨[], by simp⟩
  · rw [String.intercalate_cons_of_ne_nil hne, String.append_assoc, String.toList_append]
    exact ⟨_, rfl⟩

theorem mem_intercalate {texts : List String} {c : Char}
    (h : c ∈ ("/".intercalate texts).toList) : c = '/' ∨ ∃ s ∈ texts, c ∈ s.toList := by
  induction texts with
  | nil => simp at h
  | cons s texts ih =>
    by_cases hne : texts = []
    · subst hne
      exact .inr ⟨s, List.mem_cons_self, by simpa using h⟩
    · rw [String.intercalate_cons_of_ne_nil hne, String.toList_append, String.toList_append,
        List.mem_append, List.mem_append] at h
      obtain (h | h) | h := h
      · exact .inr ⟨s, List.mem_cons_self, h⟩
      · exact .inl (by simpa using h)
      · obtain h | ⟨u, hu, hc⟩ := ih h
        · exact .inl h
        · exact .inr ⟨u, List.mem_cons_of_mem _ hu, hc⟩

theorem enter?_name {name : String} (hd : t.isDirectory p) (hn : IsName name) :
    t.enter? p name = some (p ++ [name]) := by
  have hcurrent : ¬(name = "." ∨ name = "") := fun h => h.elim hn.ne_current hn.ne_empty
  rw [enter?, hd, if_neg (by simpa using hn.short), if_neg hcurrent, if_neg hn.ne_parent]

/-- Names lead from a directory to what they name, through all directories on the way. -/
theorem foldlM_enter? {texts : List String} (hn : ∀ s ∈ texts, IsName s)
    (hd : t.isDirectory (p ++ texts.dropLast)) : texts.foldlM t.enter? p = some (p ++ texts) := by
  induction texts generalizing p with
  | nil => simp
  | cons s texts ih =>
    rw [List.forall_mem_cons] at hn
    have hp : t.isDirectory p := isDirectory_of_prefix hd (List.prefix_append ..)
    rw [List.foldlM_cons, enter?_name hp hn.1]
    change texts.foldlM t.enter? (p ++ [s]) = _
    by_cases hne : texts = []
    · subst hne
      rfl
    · rw [List.dropLast_cons_of_ne_nil hne] at hd
      rw [ih hn.2 (by simpa using hd)]
      simp

/-- A text made of names leads on from the root or the working directory, as its first character
says. -/
theorem locate?_intercalate {texts : List String} {c : Char}
    (hhead : ("/".intercalate texts).toList.head? = some c)
    (hchars : ∀ s ∈ texts, '/' ∉ s.toList ∧ '\x00' ∉ s.toList)
    (hlength : ("/".intercalate texts).utf8ByteSize ≤ pathLimit) :
    t.locate? ("/".intercalate texts) =
      texts.foldlM t.enter? (if c = '/' then [] else t.working) := by
  have hne : "/".intercalate texts ≠ "" := by
    intro h
    rw [h] at hhead
    cases hhead
  have hnull : '\x00' ∉ ("/".intercalate texts).toList := by
    intro h
    obtain h | ⟨s, hs, h⟩ := mem_intercalate h
    · revert h
      decide
    · exact (hchars s hs).2 h
  have hgood : ¬("/".intercalate texts = "" ∨ '\x00' ∈ ("/".intercalate texts).toList ∨
      pathLimit < ("/".intercalate texts).utf8ByteSize) := by
    rintro (h | h | h)
    · exact hne h
    · exact hnull h
    · exact Nat.not_lt.2 hlength h
  have htexts : texts ≠ [] := by
    rintro rfl
    exact hne rfl
  rw [locate?, if_neg hgood, names_intercalate htexts fun s hs => (hchars s hs).1, base, hhead]
  simp only [Option.some.injEq]

/-- From the root all is found by its names, wherever one works. -/
theorem locate?_absolute (h : IsPath path) (hd : t.isDirectory path.dropLast) :
    t.locate? (absolute path) = some path := by
  have hhead : (absolute path).toList.head? = some '/' := by
    rw [absolute_eq h.ne_nil]
    simp
  have hchars : ∀ s ∈ "" :: path, '/' ∉ s.toList ∧ '\x00' ∉ s.toList :=
    List.forall_mem_cons.2
      ⟨by simp, fun s hs => ⟨(h.names s hs).no_slash, (h.names s hs).no_null⟩⟩
  have hroot : t.enter? [] "" = some [] := by
    rw [enter?, isDirectory_root]
    rfl
  have hlocate := locate?_intercalate (t := t) hhead hchars h.short
  rw [if_pos rfl, List.foldlM_cons, hroot] at hlocate
  exact hlocate.trans (foldlM_enter? h.names hd)

/-- Below the working directory the names from there are enough. -/
theorem locate?_relative (h : IsPath path) (hd : t.isDirectory (t.working ++ path.dropLast)) :
    t.locate? (relative path) = some (t.working ++ path) := by
  obtain ⟨first, rest, rfl⟩ := List.exists_cons_of_ne_nil h.ne_nil
  have hfirst := h.names first List.mem_cons_self
  obtain ⟨c, cs, hc⟩ := List.exists_cons_of_ne_nil (mt String.toList_eq_nil_iff.1 hfirst.ne_empty)
  have hhead : (relative (first :: rest)).toList.head? = some c := by
    obtain ⟨ds, hds⟩ := exists_toList_intercalate first rest
    rw [relative, hds, hc]
    rfl
  have hslash : c ≠ '/' := by
    rintro rfl
    exact hfirst.no_slash (hc ▸ List.mem_cons_self)
  have hlocate := locate?_intercalate (t := t) hhead
    (fun s hs => ⟨(h.names s hs).no_slash, (h.names s hs).no_null⟩) h.short_relative
  rw [if_neg hslash] at hlocate
  exact hlocate.trans (foldlM_enter? h.names hd)

/-- Up from the working directory, past the root, and down again. -/
example : (⟨[], [["etc"]], ["home", "lee"]⟩ : FileTree).locate? "../../../etc/./out.json" =
    some ["etc", "out.json"] := by
  decide +kernel

/-! ### Reading and writing -/

theorem fromUTF8?_toUTF8 (text : String) : String.fromUTF8? text.toUTF8 = some text := by
  rw [String.fromUTF8?, String.toUTF8_eq_toByteArray, dif_pos text.isValidUTF8]
  rfl

theorem read?_of_locate? {s text : String} (hs : t.locate? s = some path)
    (htext : t.get? path = some text.toUTF8) : t.read? s = some text := by
  rw [read?, hs]
  dsimp only [Option.bind_eq_bind, Option.bind_some]
  rw [htext]
  exact fromUTF8?_toUTF8 text

theorem holds_of_locate? {s : String} (hs : t.locate? s = some path)
    (hfile : (t.get? path).isSome) : t.holds s := by
  rw [holds, hs]
  dsimp only
  rw [hfile, Bool.or_true]

/-- Every file is held at its absolute path. -/
theorem holds_absolute (h : IsPath path) (hfile : (t.get? path).isSome) :
    t.holds (absolute path) :=
  holds_of_locate? (locate?_absolute h (isDirectory_dropLast h.ne_nil hfile)) hfile

theorem write?_eq_some {t' : FileTree} {s text : String} (h : t.write? s text = some t') :
    ∃ path, t.locate? s = some path ∧ t.isDirectory path.dropLast ∧
      t' = t.put path text.toUTF8 := by
  unfold write? at h
  obtain ⟨path, hpath, h⟩ := Option.bind_eq_some_iff.1 h
  split at h
  · cases h
  · next hd =>
    simp only [Bool.or_eq_true, Bool.not_eq_true', not_or, Bool.not_eq_true,
      Bool.not_eq_false] at hd
    exact ⟨path, hpath, hd.2, (Option.some.inj h).symm⟩

/-- Texts name the same paths after a file was put into a directory. -/
theorem locate?_put (hparent : t.isDirectory path.dropLast) (content : ByteArray) (s : String) :
    (t.put path content).locate? s = t.locate? s := by
  have henter : (t.put path content).enter? = t.enter? := by
    funext p name
    rw [enter?, enter?, isDirectory_put hparent]
  have hbase : (t.put path content).base s = t.base s := rfl
  rw [locate?, locate?, henter, hbase]

/-- What is written can be read again. No other file is touched, and no directory. -/
theorem write?_spec {t' : FileTree} {s text : String} (h : t.write? s text = some t') :
    ∃ path, t.locate? s = some path ∧ (∀ other, other ≠ path → t'.get? other = t.get? other) ∧
      (∀ other, t'.isDirectory other = t.isDirectory other) ∧ t'.read? s = some text := by
  obtain ⟨path, hpath, hparent, rfl⟩ := write?_eq_some h
  have hlocate : (t.put path text.toUTF8).locate? s = some path :=
    (locate?_put hparent _ s).trans hpath
  refine ⟨path, hpath, ?_, isDirectory_put hparent _, read?_of_locate? hlocate ?_⟩
  · intro other hother
    rw [get?_put, if_neg hother]
  · rw [get?_put, if_pos rfl]

end Pedigree.FileTree
