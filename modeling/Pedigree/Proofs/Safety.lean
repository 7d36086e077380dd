import Pedigree.Proofs.Outcomes
import Pedigree.Proofs.Sizes

/-! Which sessions end without a fault. Settings are accepted with sizes below zero, and those lead
to boxes of a negative size. -/
namespace Pedigree

namespace FileTree

/-- A configuration and an input. -/
def ofTexts (config input : String) : FileTree :=
  ⟨[(["c"], config.toUTF8), (["i"], input.toUTF8)], [], []⟩

theorem ofTexts_spec (config input : String) : (ofTexts config input).holds "c" ∧
    (ofTexts config input).read? "c" = some config ∧
      (ofTexts config input).read? "i" = some input := by
  have hname {name : String} (h : IsName name) : (ofTexts config input).locate? name = some [name] := by
    have hrelative : relative [name] = name := String.intercalate_singleton
    rw [← hrelative]
    exact locate?_relative h.isPath isDirectory_root
  have hc : IsName "c" := ⟨by decide, by decide, by decide, by decide, by decide, by decide⟩
  have hi : IsName "i" := ⟨by decide, by decide, by decide, by decide, by decide, by decide⟩
  exact ⟨holds_of_locate? (hname hc) rfl, read?_of_locate? (hname hc) rfl,
    read?_of_locate? (hname hi) rfl⟩

end FileTree

namespace Session

variable {t : FileTree}

theorem Configures.unique {place : Option String} {r r' : Except Failure (Settings Binary32)}
    (h : Configures t place r) (h' : Configures t place r') : r = r' := by
  cases h with
  | usual =>
    cases h'
    rfl
  | missing hm => exact (h'.of_missing hm).symm
  | unread hh hn =>
    cases h' with
    | missing hm => rw [hm] at hh; cases hh
    | unread => rfl
    | read _ hs => rw [hn] at hs; cases hs
  | read hh hs hv =>
    cases h' with
    | missing hm => rw [hm] at hh; cases hh
    | unread _ hn => rw [hn] at hs; cases hs
    | read _ hs' hv' =>
      rw [hs] at hs'
      cases hs'
      rw [← hv, hv']

/-- A session that meets a fault meets it where it lays out its input. -/
theorem Ends.align_eq_fault {place : Option String} {args : Arguments} {s : Settings Binary32}
    {f : Fault} {t' : FileTree} (h : Ends t place args (.error (.fault f), t'))
    (hc : Configures t place (.ok s)) : ∃ text d unknown, t.read? args.input = some text ∧
      Snapshot.parse text = .ok (d, unknown) ∧
        Layout.align s (args.fontRatio.getD s.fontRatio) d = .error (.fault f) := by
  cases h with
  | configuration hf => cases hf.unique hc
  | drawing hs hd =>
    cases hs.unique hc
    cases hd with
    | fault hread hparse halign => exact ⟨_, _, _, hread, hparse, halign⟩

/-- Where no size is negative, only an overflow keeps a session from its end: no box gets a negative
size and nothing is divided by zero. -/
theorem run_eq_overflow {platform : Option String} {args : Arguments} {s : Settings Binary32}
    (hc : Configures t (place t platform args.config) (.ok s)) (hs : s.style.Upright) :
    ∀ f t', outcome (run FileTree.disk platform args) t = (.error (.fault f), t') →
      f = .overflow := by
  intro f t' hr
  have he := ends t platform args
  rw [hr] at he
  obtain ⟨text, d, unknown, -, -, halign⟩ := he.align_eq_fault hc
  have hratio : (args.fontRatio.getD s.fontRatio).isPositive := by
    by_contra hn
    rw [Layout.align, if_pos (by simpa using hn)] at halign
    cases halign
  exact Layout.Refusal.fault.inj ((Layout.sizes_nonneg hs hratio d).2.2.2.2 _ halign)

/-- The arguments that name a configuration and an input. -/
def named : Arguments := ⟨"i", "o", some "c", none, "info"⟩

def couple : String := "Smith\nJohn = Bob\n"

theorem configures_named {config input : String} {s : Settings Binary32}
    (h : validated config = .ok s) :
    Configures (.ofTexts config input) (place (.ofTexts config input) none named.config) (.ok s) :=
  .read (FileTree.ofTexts_spec config input).1 (FileTree.ofTexts_spec config input).2.1 h

/-- A negative padding is accepted, and the block of a family that is narrower gets a negative
size. -/
def negativePadding : Settings Binary32 :=
  { (default : Settings Binary32) with
    style := { (default : Style Binary32) with padding := -1000 } }

theorem run_fault_negativePadding :
    let files := FileTree.ofTexts "[style]\nfamily_padding = -1000\n" couple
    Configures files (place files none named.config) (.ok negativePadding) ∧
      outcome (run FileTree.disk none named) files = (.error (.fault .negativeSize), files) := by
  intro files
  obtain ⟨hholds, hconfig, hinput⟩ :=
    FileTree.ofTexts_spec "[style]\nfamily_padding = -1000\n" couple
  have hvalid : validated "[style]\nfamily_padding = -1000\n" = .ok negativePadding := by
    decide +kernel
  obtain ⟨d, hd, hfault⟩ : ∃ d, document couple = .ok d ∧
      aligned negativePadding negativePadding.fontRatio d = .error (.fault .negativeSize) := by
    have hmap : ((document couple).map fun d =>
        (aligned negativePadding negativePadding.fontRatio d).map fun _ => ()).toOption =
          some (.error (.fault .negativeSize)) := by
      decide +kernel
    obtain ⟨d, hd, hf⟩ := Checked.eq_ok_of_toOption_map hmap
    refine ⟨d, hd, ?_⟩
    generalize aligned negativePadding negativePadding.fontRatio d = r at hf
    cases r with
    | ok blocks => cases hf
    | error e =>
      cases hf
      rfl
  refine ⟨configures_named hvalid, ?_⟩
  have hsettings := gives_settingsAt hholds hconfig
  have hblocks : Gives (blocks FileTree.disk negativePadding none "i") files _ :=
    gives_blocks hinput hd
  rw [hvalid] at hsettings
  rw [Option.getD_none, hfault] at hblocks
  exact hsettings.bind hblocks.error

/-- The default settings, as an empty file gives them. -/
theorem run_eq_overflow_couple :
    let files := FileTree.ofTexts "" couple
    (default : Settings Binary32).style.Upright ∧
      Configures files (place files none named.config) (.ok default) ∧
      ∀ f t', outcome (run FileTree.disk none named) files = (.error (.fault f), t') →
        f = .overflow := by
  have hs : (default : Settings Binary32).style.Upright :=
    ⟨by decide +kernel, by decide, by decide, by decide +kernel, by decide, by decide⟩
  have hc : Configures (FileTree.ofTexts "" couple)
      (place (FileTree.ofTexts "" couple) none named.config) (.ok default) :=
    configures_named (by decide +kernel)
  exact ⟨hs, hc, run_eq_overflow hc hs⟩

end Session

end Pedigree
