import Pedigree.Layout
import Pedigree.Markup.Diagnostic

/-! What can go wrong in a session, and how it is reported. -/
namespace Pedigree

inductive Problem where
  /-- A file cannot be read or written. -/
  | file
  | markup (diagnostics : List Diagnostic) (source : String)
  | missingSettings (path : String)
  | malformedSettings
  /-- Settings with a font ratio that is not positive. -/
  | settingsRatio (ratio : Binary32)
  /-- Settings with a grid step that is not positive. -/
  | settingsStep (step : Int)
  | fontRatio (ratio : Binary32)
  | gridStep (step : Int)
  deriving DecidableEq

namespace Problem

/-- Which part of a session is to blame. -/
inductive Kind where
  | file
  | markup
  | settings
  | layout
  deriving DecidableEq, Repr

def kind : Problem → Kind
  | file => .file
  | markup .. => .markup
  | missingSettings _ | malformedSettings | settingsRatio _ | settingsStep _ | gridStep _ =>
    .settings
  | fontRatio _ => .layout

/-- The text of a problem; that of a file is the system's. -/
def message? : Problem → Option String
  | file => none
  | markup diagnostics _ => some (Diagnostic.summary diagnostics)
  | missingSettings path => settings ("Missing configuration file: " ++ path)
  | malformedSettings => settings "Failed to parse TOML configuration"
  | settingsRatio x => settings
      ("Validation error: layout.font_ratio must be a positive number, got " ++ x.text)
  | settingsStep n => settings
      ("Validation error: style.grid_step must be positive, got " ++ toString n)
  | gridStep n => settings ("grid step must be positive, got " ++ toString n)
  | fontRatio x => some
      ("Layout error: font ratio must be a positive number, got " ++ x.text)
where
  settings (s : String) : Option String := some ("Configuration error: " ++ s)

end Problem

/-- A problem as it is shown. -/
structure Report where
  code : String
  text : Option String
  help : Option String
  labels : List Diagnostic.Label
  /-- The source that the labels point into. -/
  source : Option String
  /-- Whether another error is the cause. -/
  hasCause : Bool
  deriving DecidableEq

namespace Problem

def code : Kind → String
  | .file => "lineage::io"
  | .markup => "lineage::syntax"
  | .settings => "lineage::config"
  | .layout => "lineage::layout"

def settingsHelp : String := "check the file passed with --config or found in lineage/config.toml"

/-- One report for each diagnostic of a source, and one for any other problem. -/
def reports (p : Problem) : List Report :=
  match p with
  | markup diagnostics source => diagnostics.map fun d =>
    ⟨code p.kind, some d.message, d.help, d.labels, some source, false⟩
  | _ =>
    let help := if p.kind = .settings then some settingsHelp else none
    [⟨code p.kind, p.message?, help, [], none, p.kind == .file⟩]

end Problem

end Pedigree
