import Pedigree.Export.Blocks
import Pedigree.Identity.Resolver
import Pedigree.Session.Arguments
import Pedigree.Session.FileTree
import Pedigree.Session.Problem
import Pedigree.Toml.Document

/-! A session: find the settings, read the input, lay it out and write the blocks. Files are read
and written through a few operations, so that a session runs on a disk as well as on a value. -/
namespace Pedigree

/-- What a session does with files. -/
structure Disk (m : Type → Type) where
  /-- Whether a path leads to a file or a directory. -/
  holds : String → m Bool
  /-- The text of a file, if it can be read. -/
  read? : String → m (Option String)
  /-- Replaces the text of a file, and says whether that worked. -/
  write : String → String → m Bool

/-- The operations on a tree of files. -/
def FileTree.disk : Disk (StateM FileTree) where
  holds path := return (← get).holds path
  read? path := return (← get).read? path
  write path text := do
    match (← get).write? path text with
    | some t => set t; return true
    | none => return false

namespace Session

inductive Failure where
  | problem (p : Problem)
  /-- A number left its range. -/
  | fault (f : Fault)
  deriving DecidableEq

variable {m : Type → Type} [Monad m]

/-- The settings of a file, with a positive font ratio and grid step. -/
def validated (source : String) : Except Failure (Settings Binary32) :=
  match Settings.ofToml? source with
  | none => .error (.problem .malformedSettings)
  | some s =>
    if !s.fontRatio.isPositive then .error (.problem (.settingsRatio s.fontRatio))
    else if s.style.gridStep ≤ 0 then .error (.problem (.settingsStep s.style.gridStep))
    else .ok s

def document (source : String) : Except Failure Snapshot :=
  match Snapshot.parse source with
  | .ok (snapshot, _) => .ok snapshot
  | .error diagnostics => .error (.problem (.markup diagnostics source))

def aligned (settings : Settings Binary32) (ratio : Binary32) (s : Snapshot) :
    Except Failure (List Drawing.Block) :=
  (Layout.align settings ratio s).mapError fun
    | .fontRatio x => .problem (.fontRatio x)
    | .gridStep n => .problem (.gridStep n)
    | .fault f => .fault f

def source (disk : Disk m) (path : String) : ExceptT Failure m String := do
  match ← disk.read? path with
  | some text => return text
  | none => throw (.problem .file)

def settingsAt (disk : Disk m) (path : String) : ExceptT Failure m (Settings Binary32) := do
  if ← disk.holds path then
    validated (← source disk path)
  else throw (.problem (.missingSettings path))

/-- Where settings lie that no argument names. -/
def localSettings : String := "lineage/config.toml"

/-- The settings in the file that an argument names, or else in the first of the usual places that
holds any, or else the default. -/
def settings (disk : Disk m) (usual : List String) (named : Option String) :
    ExceptT Failure m (Settings Binary32) := do
  match named with
  | some path => settingsAt disk path
  | none =>
    match ← usual.findM? (fun path => (disk.holds path : ExceptT Failure m Bool)) with
    | some path => settingsAt disk path
    | none => return default

/-- The blocks of a file. Without a font ratio that of the settings is used. -/
def blocks (disk : Disk m) (settings : Settings Binary32) (ratio : Option Binary32)
    (path : String) : ExceptT Failure m (List Drawing.Block) := do
  aligned settings (ratio.getD settings.fontRatio) (← document (← source disk path))

/-- Runs a session. The settings may also lie in a place of the platform's. -/
def run (disk : Disk m) (platform : Option String) (args : Arguments) : ExceptT Failure m Unit := do
  let settings ← settings disk (localSettings :: platform.toList) args.config
  let blocks ← blocks disk settings args.fontRatio args.input
  if !(← disk.write args.output ((Export.blocks blocks).pretty 0)) then
    throw (.problem .file)

end Session

end Pedigree
