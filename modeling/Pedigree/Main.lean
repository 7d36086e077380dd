import Pedigree.Session.Run

/-! The command line. -/
namespace Pedigree

namespace Main

/-- The operations on the files of the machine. -/
def disk : Disk IO where
  holds path := try discard (IO.FS.realPath path); pure true catch _ => pure false
  read? path := try return some (← IO.FS.readFile path) catch _ => pure none
  write path text := try IO.FS.writeFile path text; pure true catch _ => pure false

/-- Where settings of the user lie. -/
def platform : IO (Option String) := do
  let home := (← IO.getEnv "HOME").map (· ++ "/.config")
  let base := ((← IO.getEnv "XDG_CONFIG_HOME").filter (·.startsWith "/")).or home
  return base.map (· ++ "/lineage/config.toml")

def usage : String := "\n".intercalate [
  "Usage: pedigree [OPTIONS] <INPUT>",
  "",
  "Options:",
  "  -o, --output <FILE>        where the blocks are written [default: out.json]",
  "  -c, --config <FILE>        settings in TOML",
  "  -f, --font-ratio <NUMBER>  average width of a glyph relative to the font size",
  "      --log-level <LEVEL>    off, error, warn, info, debug or trace [default: info]",
  "  -h, --help                 this text",
  "  -V, --version              the version"]

def stopped (s : Arguments.Stop) : IO UInt32 := do
  match s with
  | .help => IO.println usage; return 0
  | .version => IO.println "pedigree 1.0.0"; return 0
  | .unknown => IO.eprintln "error: unexpected argument"
  | .missingValue => IO.eprintln "error: an option lacks its value"
  | .surplusValue => IO.eprintln "error: a value for an option that takes none"
  | .repeated => IO.eprintln "error: an option is given twice"
  | .malformed => IO.eprintln "error: the font ratio is not a number"
  | .missingInput => IO.eprintln "error: no input file is given"
  return 2

def lines (r : Report) : List String :=
  (r.code ++ ": " ++ r.text.getD "a file cannot be read or written") ::
    r.labels.map (fun l => "  " ++ l.span.text ++ ": " ++ l.message) ++
    r.help.toList.map ("  help: " ++ ·)

end Main

end Pedigree

open Pedigree in
def main (words : List String) : IO UInt32 := do
  match Arguments.read words with
  | .error s => Main.stopped s
  | .ok args =>
    match ← (Session.run Main.disk (← Main.platform) args).run with
    | .ok () => return 0
    | .error (.problem p) =>
      (p.reports.flatMap Main.lines).forM IO.eprintln
      return 1
    | .error (.fault _) =>
      IO.eprintln "error: a coordinate is out of range"
      return 1
