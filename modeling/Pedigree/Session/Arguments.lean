import Pedigree.Number.Decimal

/-! The arguments of a session: an input file and options. An option has a long name and maybe a
letter, and takes one value: the next argument, or the rest of its own. After `--` no argument is
an option. -/
namespace Pedigree

structure Arguments where
  input : String
  output : String
  config : Option String
  fontRatio : Option Binary32
  logLevel : String
  deriving DecidableEq

namespace Arguments

/-- An option with a value. -/
inductive Key where
  | output
  | config
  | fontRatio
  | logLevel
  deriving DecidableEq, Repr

def Key.ofName? : String → Option Key
  | "output" => some output
  | "config" => some config
  | "font-ratio" => some fontRatio
  | "log-level" => some logLevel
  | _ => none

def Key.ofLetter? : Char → Option Key
  | 'o' => some output
  | 'c' => some config
  | 'f' => some fontRatio
  | _ => none

/-- Why there is no session. -/
inductive Stop where
  | help
  | version
  /-- An unknown option, or a second input. -/
  | unknown
  | missingValue
  /-- A value for an option that takes none. -/
  | surplusValue
  | repeated
  /-- A font ratio that is no number. -/
  | malformed
  | missingInput
  deriving DecidableEq, Repr

/-- What is known after some of the arguments. The last option is only looked at closely when
something follows it. -/
structure Progress where
  input : Option String
  given : List (Key × String)
  /-- The last option, and its value once there is one. -/
  pending : Option (Key × Option String)
  trailing : Bool

namespace Progress

def start : Progress := ⟨none, [], none, false⟩

/-- Accepts the last option. -/
def settle (p : Progress) : Except Stop Progress :=
  match p.pending with
  | none => .ok p
  | some (_, none) => .error .missingValue
  | some (k, some v) =>
    if (p.given.lookup k).isSome then .error .repeated
    else if k = .fontRatio ∧ Binary32.ofText? v = none then .error .malformed
    else .ok { p with given := (k, v) :: p.given, pending := none }

/-- An option whose value is to follow. -/
def await (p : Progress) (k : Key) : Except Stop Progress := do
  return { ← p.settle with pending := some (k, none) }

/-- An option with its value. -/
def give (p : Progress) (k : Key) (v : String) : Except Stop Progress := do
  settle { ← p.settle with pending := some (k, some v) }

def flag (p : Progress) (s : Stop) : Except Stop Progress := do
  discard p.settle
  .error s

/-- The flags, by name and by letter. -/
def flagNamed? : String → Option Stop
  | "help" => some .help
  | "version" => some .version
  | _ => none

def flagLettered? : Char → Option Stop
  | 'h' => some .help
  | 'V' => some .version
  | _ => none

def long (p : Progress) (cs : List Char) : Except Stop Progress :=
  let name := String.ofList (cs.takeWhile (· ≠ '='))
  let value := match cs.dropWhile (· ≠ '=') with
    | [] => none
    | _ :: v => some (String.ofList v)
  match Key.ofName? name, flagNamed? name, value with
  | some k, _, some v => p.give k v
  | some k, _, none => p.await k
  | none, some _, some _ => .error .surplusValue
  | none, some s, none => p.flag s
  | none, none, _ => .error .unknown

def short (p : Progress) (c : Char) (cs : List Char) : Except Stop Progress :=
  match Key.ofLetter? c, flagLettered? c, cs with
  | some k, _, [] => p.await k
  | some k, _, '=' :: v => p.give k (String.ofList v)
  | some k, _, v => p.give k (String.ofList v)
  | none, some s, _ => p.flag s
  | none, none, _ => .error .unknown

def plain (p : Progress) (s : String) : Except Stop Progress :=
  match p.pending, p.trailing with
  | some (k, none), false => .ok { p with pending := some (k, some s) }
  | _, _ =>
    if p.input.isSome then .error .unknown
    else do return { ← p.settle with input := some s }

def step (p : Progress) (s : String) : Except Stop Progress :=
  if p.trailing then p.plain s
  else match s.toList with
    | ['-', '-'] => .ok { p with trailing := true }
    | '-' :: '-' :: cs => p.long cs
    | '-' :: c :: cs => p.short c cs
    | _ => p.plain s

def finish (p : Progress) : Except Stop Arguments := do
  let p ← p.settle
  match p.input with
  | none => .error .missingInput
  | some input => .ok {
    input
    output := (p.given.lookup .output).getD "out.json"
    config := p.given.lookup .config
    fontRatio := (p.given.lookup .fontRatio).bind Binary32.ofText?
    logLevel := (p.given.lookup .logLevel).getD "info" }

end Progress

def read (words : List String) : Except Stop Arguments := do
  (← words.foldlM Progress.step Progress.start).finish

end Arguments

end Pedigree
