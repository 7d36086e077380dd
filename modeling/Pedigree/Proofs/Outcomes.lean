import Pedigree.Proofs.Files
import Pedigree.Session.Run

/-! How a session ends. Each of its stages is only reached if those before it went well, and writing
is the last one, so a session that fails leaves all files as they were. -/
namespace Pedigree

/-- Why nothing is drawn, where the grid has a step. -/
theorem Layout.align_eq_error {settings : Settings Binary32} {ratio : Binary32}
    {document : Snapshot} {r : Refusal} (hs : 0 < settings.style.gridStep)
    (h : align settings ratio document = .error r) :
    (ratio.isPositive = false ∧ r = .fontRatio ratio) ∨ ∃ f, r = .fault f := by
  unfold align at h
  split at h
  · next hratio =>
    cases h
    exact .inl ⟨by simpa using hratio, rfl⟩
  · rw [if_neg (Int.not_le.2 hs)] at h
    cases hd : drawn settings ratio document with
    | ok blocks =>
      rw [hd] at h
      cases h
    | error f =>
      rw [hd] at h
      cases h
      exact .inr ⟨f, rfl⟩

namespace Session

/-! ### Computations on files -/

variable {α β : Type}

/-- What a computation gives on some files, and the files after it. -/
def outcome (x : ExceptT Failure (StateM FileTree) α) (t : FileTree) :
    Except Failure α × FileTree := Id.run (x.run.run t)

/-- The computation gives a result and leaves the files alone. -/
def Gives (x : ExceptT Failure (StateM FileTree) α) (t : FileTree) (r : Except Failure α) : Prop :=
  outcome x t = (r, t)

section

variable {x : ExceptT Failure (StateM FileTree) α} {f : α → ExceptT Failure (StateM FileTree) β}
  {t : FileTree}

theorem outcome_bind : outcome (x >>= f) t = match outcome x t with
    | (.ok a, t') => outcome (f a) t'
    | (.error e, t') => (.error e, t') := by
  unfold outcome
  simp only [ExceptT.run_bind, StateT.run_bind, Id.run_bind]
  generalize (StateT.run x.run t).run = r
  cases r with
  | mk e t' =>
    cases e with
    | ok a => rfl
    | error e => rfl

theorem Gives.outcome_bind {a : α} (h : Gives x t (.ok a)) :
    outcome (x >>= f) t = outcome (f a) t := by
  rw [Session.outcome_bind, h]

theorem Gives.bind {a : α} {r : Except Failure β} (h : Gives x t (.ok a)) (hf : Gives (f a) t r) :
    Gives (x >>= f) t r := by
  rw [Gives, h.outcome_bind, hf]

theorem Gives.error {e : Failure} (h : Gives x t (.error e)) : Gives (x >>= f) t (.error e) := by
  rw [Gives, Session.outcome_bind, h]

theorem gives_lift {e r : Except Failure α} (h : e = r) : Gives (liftM e) t r := by
  rw [h]
  rfl

theorem gives_throw (e : Failure) : Gives (throw e : ExceptT _ _ α) t (.error e) := rfl

end

variable {t : FileTree}

theorem gives_holds (path : String) : Gives (liftM (FileTree.disk.holds path)) t
    (.ok (t.holds path)) := rfl

theorem gives_read? (path : String) : Gives (liftM (FileTree.disk.read? path)) t
    (.ok (t.read? path)) := rfl

theorem gives_source_of_some {path text : String} (h : t.read? path = some text) :
    Gives (source FileTree.disk path) t (.ok text) := by
  have hr := gives_read? (t := t) path
  rw [h] at hr
  exact hr.bind rfl

theorem gives_source_of_none {path : String} (h : t.read? path = none) :
    Gives (source FileTree.disk path) t (.error (.problem .file)) := by
  have hr := gives_read? (t := t) path
  rw [h] at hr
  exact hr.bind rfl

theorem run_write (t : FileTree) (path text : String) :
    Id.run ((FileTree.disk.write path text).run t) =
      ((t.write? path text).isSome, (t.write? path text).getD t) := by
  unfold FileTree.disk
  cases h : t.write? path text with
  | none => simp [h]
  | some t' => simp [h]

theorem outcome_write (t : FileTree) (path text : String) :
    outcome (liftM (FileTree.disk.write path text)) t =
      ((.ok (t.write? path text).isSome, (t.write? path text).getD t) :
        Except Failure Bool × FileTree) := by
  have hw : outcome (liftM (FileTree.disk.write path text)) t =
      (fun r : Bool × FileTree => (.ok r.1, r.2))
        (Id.run ((FileTree.disk.write path text).run t)) := rfl
  rw [hw, run_write]

/-! ### Stages -/

/-- Where the settings of a session lie. -/
def place (t : FileTree) (platform named : Option String) : Option String :=
  match named with
  | some path => some path
  | none => if t.holds localSettings then some localSettings else platform.filter t.holds

/-- A file of the platform's is found by its absolute path, wherever a session runs. -/
theorem place_absolute {path : FilePath} (h : FileTree.IsPath path) (hfile : (t.get? path).isSome)
    (hlocal : t.holds localSettings = false) :
    place t (some (FileTree.absolute path)) none = some (FileTree.absolute path) := by
  rw [place, if_neg (by simp [hlocal]), Option.filter_some, if_pos (FileTree.holds_absolute h hfile)]

example : place ⟨[(["etc", "lineage", "config.toml"], .empty)], [], ["home", "lee"]⟩
    (some "/etc/lineage/config.toml") none = some "/etc/lineage/config.toml" := by
  decide +kernel

/-- What the settings in a place come to. Without a place they are the default. -/
inductive Configures (t : FileTree) : Option String → Except Failure (Settings Binary32) → Prop
  | usual : Configures t none (.ok default)
  | missing {path : String} : t.holds path = false →
      Configures t (some path) (.error (.problem (.missingSettings path)))
  | unread {path : String} : t.holds path → t.read? path = none →
      Configures t (some path) (.error (.problem .file))
  | read {path text : String} {r : Except Failure (Settings Binary32)} : t.holds path →
      t.read? path = some text → validated text = r → Configures t (some path) r

theorem gives_settingsAt {path text : String} (hh : t.holds path) (hr : t.read? path = some text) :
    Gives (settingsAt FileTree.disk path) t (validated text) := by
  have hg := gives_holds (t := t) path
  rw [hh] at hg
  exact hg.bind ((gives_source_of_some hr).bind (gives_lift rfl))

theorem configures_at (path : String) :
    ∃ r, Gives (settingsAt FileTree.disk path) t r ∧ Configures t (some path) r := by
  have hg := gives_holds (t := t) path
  cases hh : t.holds path with
  | false =>
    rw [hh] at hg
    exact ⟨_, hg.bind (gives_throw _), .missing hh⟩
  | true =>
    rw [hh] at hg
    cases hr : t.read? path with
    | none => exact ⟨_, hg.bind (gives_source_of_none hr).error, .unread hh hr⟩
    | some text => exact ⟨_, gives_settingsAt hh hr, .read hh hr rfl⟩

theorem gives_findM? (paths : List String) :
    Gives (paths.findM? fun path => liftM (FileTree.disk.holds path)) t
      (.ok (paths.find? t.holds)) := by
  induction paths with
  | nil => rfl
  | cons path paths ih =>
    have hg := gives_holds (t := t) path
    rw [List.find?_cons]
    cases hh : t.holds path with
    | false =>
      rw [hh] at hg
      exact hg.bind ih
    | true =>
      rw [hh] at hg
      exact hg.bind rfl

/-- Looking for the settings and reading them leaves the files alone. -/
theorem configures (platform named : Option String) :
    ∃ r, Gives (settings FileTree.disk (localSettings :: platform.toList) named) t r ∧
      Configures t (place t platform named) r := by
  cases named with
  | some path => exact configures_at path
  | none =>
    have hplace : place t platform none = (localSettings :: platform.toList).find? t.holds := by
      rw [place, List.find?_cons]
      cases t.holds localSettings with
      | true => rfl
      | false =>
        cases platform with
        | none => rfl
        | some path =>
          cases hp : t.holds path with
          | true => simp [hp]
          | false => simp [hp]
    have hg := gives_findM? (t := t) (localSettings :: platform.toList)
    rw [hplace]
    cases hf : (localSettings :: platform.toList).find? t.holds with
    | none =>
      rw [hf] at hg
      exact ⟨_, hg.bind rfl, .usual⟩
    | some path =>
      rw [hf] at hg
      obtain ⟨r, hr, hc⟩ := configures_at (t := t) path
      exact ⟨r, hg.bind hr, hc⟩

theorem positive_of_validated {text : String} {s : Settings Binary32}
    (h : validated text = .ok s) : s.fontRatio.isPositive ∧ 0 < s.style.gridStep := by
  unfold validated at h
  split at h
  · cases h
  · split at h
    · cases h
    · next hratio =>
      split at h
      · cases h
      · next hstep =>
        cases h
        exact ⟨by simpa using hratio, Int.not_le.1 hstep⟩

theorem kind_of_validated {text : String} {p : Problem}
    (h : validated text = .error (.problem p)) : p.kind = .settings := by
  unfold validated at h
  split at h
  · cases h
    rfl
  · split at h
    · cases h
      rfl
    · split at h
      · cases h
        rfl
      · cases h

/-- The settings that a session goes on with have a positive font ratio and a grid. -/
theorem Configures.positive {place : Option String} {s : Settings Binary32}
    (h : Configures t place (.ok s)) : s.fontRatio.isPositive ∧ 0 < s.style.gridStep := by
  cases h with
  | usual => exact ⟨by decide +kernel, by decide⟩
  | read _ _ hv => exact positive_of_validated hv

theorem Configures.of_missing {path : String} {r : Except Failure (Settings Binary32)}
    (h : Configures t (some path) r) (hm : t.holds path = false) :
    r = .error (.problem (.missingSettings path)) := by
  cases h with
  | missing => rfl
  | unread hh => exact absurd hh (by simp [hm])
  | read hh => exact absurd hh (by simp [hm])

/-- Settings are never to blame for a layout. -/
theorem Configures.kind_ne_layout {place : Option String} {p : Problem}
    (h : Configures t place (.error (.problem p))) : p.kind ≠ .layout := by
  cases h with
  | missing => exact Problem.Kind.noConfusion
  | unread => exact Problem.Kind.noConfusion
  | read _ _ hv =>
    rw [kind_of_validated hv]
    exact Problem.Kind.noConfusion

/-- What the input comes to with some settings. Without a font ratio among the arguments that of the
settings is used. -/
inductive Draws (t : FileTree) (s : Settings Binary32) (args : Arguments) :
    Except Failure (List Drawing.Block) → Prop
  | unread : t.read? args.input = none → Draws t s args (.error (.problem .file))
  | markup {text : String} {diagnostics : List Diagnostic} : t.read? args.input = some text →
      Snapshot.parse text = .error diagnostics →
      Draws t s args (.error (.problem (.markup diagnostics text)))
  | ratio {text : String} {d : Snapshot} {unknown : List UnknownMember} :
      t.read? args.input = some text → Snapshot.parse text = .ok (d, unknown) →
      (args.fontRatio.getD s.fontRatio).isPositive = false →
      Draws t s args (.error (.problem (.fontRatio (args.fontRatio.getD s.fontRatio))))
  | fault {text : String} {d : Snapshot} {unknown : List UnknownMember} {f : Fault} :
      t.read? args.input = some text → Snapshot.parse text = .ok (d, unknown) →
      Layout.align s (args.fontRatio.getD s.fontRatio) d = .error (.fault f) →
      Draws t s args (.error (.fault f))
  | drawn {text : String} {d : Snapshot} {unknown : List UnknownMember}
      {blocks : List Drawing.Block} :
      t.read? args.input = some text → Snapshot.parse text = .ok (d, unknown) →
      Layout.align s (args.fontRatio.getD s.fontRatio) d = .ok blocks → Draws t s args (.ok blocks)

theorem gives_blocks {s : Settings Binary32} {ratio : Option Binary32} {path text : String}
    {d : Snapshot} (hr : t.read? path = some text) (hd : document text = .ok d) :
    Gives (blocks FileTree.disk s ratio path) t (aligned s (ratio.getD s.fontRatio) d) :=
  (gives_source_of_some hr).bind ((gives_lift hd).bind (gives_lift rfl))

/-- So does reading the input and laying it out. -/
theorem draws {s : Settings Binary32} (hs : 0 < s.style.gridStep) (args : Arguments) :
    ∃ r, Gives (blocks FileTree.disk s args.fontRatio args.input) t r ∧ Draws t s args r := by
  cases hread : t.read? args.input with
  | none => exact ⟨_, (gives_source_of_none hread).error, .unread hread⟩
  | some text =>
    have hsource := gives_source_of_some hread
    cases hparse : Snapshot.parse text with
    | error diagnostics =>
      have hd : document text = .error (.problem (.markup diagnostics text)) := by
        rw [document, hparse]
      exact ⟨_, hsource.bind (gives_lift hd).error, .markup hread hparse⟩
    | ok parsed =>
      have hd : document text = .ok parsed.1 := by rw [document, hparse]
      have hlaid : Gives (blocks FileTree.disk s args.fontRatio args.input) t _ :=
        gives_blocks hread hd
      rw [aligned] at hlaid
      cases halign : Layout.align s (args.fontRatio.getD s.fontRatio) parsed.1 with
      | ok blocks =>
        rw [halign] at hlaid
        exact ⟨_, hlaid, .drawn hread hparse halign⟩
      | error refusal =>
        rw [halign] at hlaid
        cases Layout.align_eq_error hs halign with
        | inl h =>
          obtain ⟨hratio, rfl⟩ := h
          exact ⟨_, hlaid, .ratio hread hparse hratio⟩
        | inr h =>
          obtain ⟨f, rfl⟩ := h
          exact ⟨_, hlaid, .fault hread hparse halign⟩

/-- How a session ends, and the files after it. -/
inductive Ends (t : FileTree) (place : Option String) (args : Arguments) :
    Except Failure Unit × FileTree → Prop
  | configuration {f : Failure} : Configures t place (.error f) → Ends t place args (.error f, t)
  | drawing {s : Settings Binary32} {f : Failure} : Configures t place (.ok s) →
      Draws t s args (.error f) → Ends t place args (.error f, t)
  | unwritten {s : Settings Binary32} {blocks : List Drawing.Block} :
      Configures t place (.ok s) → Draws t s args (.ok blocks) →
      t.write? args.output ((Export.blocks blocks).pretty 0) = none →
      Ends t place args (.error (.problem .file), t)
  | written {s : Settings Binary32} {blocks : List Drawing.Block} {t' : FileTree} :
      Configures t place (.ok s) → Draws t s args (.ok blocks) →
      t.write? args.output ((Export.blocks blocks).pretty 0) = some t' →
      Ends t place args (.ok (), t')

/-- A session ends in one of these ways. -/
theorem ends (t : FileTree) (platform : Option String) (args : Arguments) :
    Ends t (place t platform args.config) args (outcome (run FileTree.disk platform args) t) := by
  obtain ⟨r, hr, hc⟩ := configures (t := t) platform args.config
  cases r with
  | error f =>
    have hrun : outcome (run FileTree.disk platform args) t = (.error f, t) := hr.error
    rw [hrun]
    exact .configuration hc
  | ok s =>
    obtain ⟨r, hb, hd⟩ := draws hc.positive.2 args
    rw [run, hr.outcome_bind]
    cases r with
    | error f =>
      rw [hb.error]
      exact .drawing hc hd
    | ok blocks =>
      rw [hb.outcome_bind, outcome_bind, outcome_write]
      cases hw : t.write? args.output ((Export.blocks blocks).pretty 0) with
      | none => exact .unwritten hc hd hw
      | some t' => exact .written hc hd hw

theorem Ends.unchanged {place : Option String} {args : Arguments} {f : Failure} {t' : FileTree}
    (h : Ends t place args (.error f, t')) : t' = t := by
  cases h with
  | configuration => rfl
  | drawing => rfl
  | unwritten => rfl

/-- Only a font ratio among the arguments can spoil a layout. -/
theorem Ends.ratio_of_layout {place : Option String} {args : Arguments} {p : Problem}
    {t' : FileTree} (h : Ends t place args (.error (.problem p), t')) (hk : p.kind = .layout) :
    ∃ x, args.fontRatio = some x ∧ x.isPositive = false ∧ p = .fontRatio x := by
  cases h with
  | configuration hc => exact absurd hk hc.kind_ne_layout
  | drawing hc hd =>
    cases hd with
    | unread => cases hk
    | markup => cases hk
    | ratio _ _ hratio =>
      cases hx : args.fontRatio with
      | none =>
        rw [hx, Option.getD_none, hc.positive.1] at hratio
        cases hratio
      | some x =>
        rw [hx, Option.getD_some] at hratio
        exact ⟨x, rfl, hratio, rfl⟩
  | unwritten => cases hk

/-- A session that fails changes no file, and one that ends well writes the blocks of its input to
one file. What can go wrong is met in a fixed order: settings, input, markup, font ratio and
writing. Where no settings are named and there are none in the working directory, those of the
platform are used, by their absolute path. Only a font ratio among the arguments that is not positive is a layout problem. -/
theorem run_ends (t : FileTree) (platform : Option String) (args : Arguments) :
    let r := outcome (run FileTree.disk platform args) t
    Ends t (place t platform args.config) args r ∧ (∀ f, r.1 = .error f → r.2 = t) ∧
    (r.1 = .ok () → ∃ s text d unknown blocks path,
      Configures t (place t platform args.config) (.ok s) ∧
      t.read? args.input = some text ∧ Snapshot.parse text = .ok (d, unknown) ∧
      Layout.align s (args.fontRatio.getD s.fontRatio) d = .ok blocks ∧
      t.locate? args.output = some path ∧
      (∀ other, other ≠ path → r.2.get? other = t.get? other) ∧
      (∀ other, r.2.isDirectory other = t.isDirectory other) ∧
      r.2.read? args.output = some ((Export.blocks blocks).pretty 0)) ∧
    (∀ path, args.config = some path → t.holds path = false →
      r.1 = .error (.problem (.missingSettings path))) ∧
    (∀ path, FileTree.IsPath path → (t.get? path).isSome →
      platform = some (FileTree.absolute path) → args.config = none →
      t.holds localSettings = false → place t platform args.config = platform) ∧
    ∀ p, r.1 = .error (.problem p) → p.kind = .layout →
      ∃ x, args.fontRatio = some x ∧ x.isPositive = false ∧ p = .fontRatio x := by
  intro r
  have h : Ends t (place t platform args.config) args r := ends t platform args
  refine ⟨h, ?_, ?_, ?_, ?_, ?_⟩
  · intro f hf
    generalize r = r at h hf
    cases r
    cases hf
    exact h.unchanged
  · intro hok
    generalize r = r at h hok
    cases h with
    | configuration => cases hok
    | drawing => cases hok
    | unwritten => cases hok
    | @written s blocks t' hc hd hw =>
      obtain ⟨path, hpath, hothers, hfolders, hread⟩ := FileTree.write?_spec hw
      cases hd with
      | drawn hinput hparse halign =>
        exact ⟨s, _, _, _, blocks, path, hc, hinput, hparse, halign, hpath, hothers, hfolders,
          hread⟩
  · intro path hpath hmissing
    have hplace : place t platform args.config = some path := by
      rw [hpath]
      rfl
    rw [hplace] at h
    generalize r = r at h
    cases h with
    | configuration hc => exact congrArg _ (Except.error.inj (hc.of_missing hmissing))
    | drawing hc => cases hc.of_missing hmissing
    | unwritten hc => cases hc.of_missing hmissing
    | written hc => cases hc.of_missing hmissing
  · intro path hpath hfile hplatform hnone hlocal
    rw [hplatform, hnone, place_absolute hpath hfile hlocal]
  · intro p hp hk
    generalize r = r at h hp
    cases r
    cases hp
    exact h.ratio_of_layout hk

end Session

end Pedigree
