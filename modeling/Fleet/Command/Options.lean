/-!
Reading command lines. An option has a long and a short name; it is a flag, takes one value, or
may be repeated to be counted. Short flags may be joined, and a value may follow its option after
an equals sign, directly after a short name, or as the next argument. After two dashes no argument
is an option.
-/

namespace Fleet.Command

inductive Arity where
  /-- Given once or not at all. -/
  | flag
  | counted
  /-- Takes one value, out of the choices if there are any. -/
  | valued (choices : List String)
deriving DecidableEq, Repr

structure Opt where
  long : String
  short : Char
  arity : Arity
  required : Bool
deriving DecidableEq, Repr

/-- Why a command line is refused, or what it asks for instead of running a command. -/
inductive Usage where
  | unknownArgument
  | argumentConflict
  | invalidValue
  | tooManyValues
  | invalidSubcommand
  | missingRequired
  | help
  | helpForMissing
  | version
deriving DecidableEq, Repr

/-- The options that were given, in order, each with its value if it takes one. -/
abbrev Given := List (String × Option String)

namespace Given

def has (g : Given) (long : String) : Bool := g.any fun entry => entry.1 == long

def value? (g : Given) (long : String) : Option String := (g.lookup long).join

end Given

/-- A command: its name, its options, those of them that exclude each other, and whether it shows
its help when nothing at all is given. -/
structure Spec where
  name : String
  options : List Opt
  exclusive : List String
  helpWhenEmpty : Bool
deriving Repr

/-- What stands on the command line, with its options, before and after the command's name. -/
structure Line where
  command : Option String
  given : Given
deriving DecidableEq, Repr

/-- The level at which arguments are read: its options, whether it can tell its version, and the
commands that may follow. -/
structure Scope where
  options : List Opt
  versioned : Bool
  commands : List Spec

/-- What has been read: the options settled, and the latest one that takes its value from an
argument of its own. That one is settled, and looked at, only when something follows that is right
for the command line, or at its end. -/
structure Progress where
  settled : Given
  pending : Option (Opt × Option String)

namespace Progress

def start : Progress := ⟨[], none⟩

/-- Takes an option with what was given for it. A single-use option that comes again is refused
before its value is looked at. -/
def take (p : Progress) (o : Opt) (value : Option String) : Except Usage Progress :=
  let taken : Progress := { p with settled := p.settled ++ [(o.long, value)] }
  match o.arity with
  | .counted => .ok taken
  | .flag => if p.settled.has o.long then .error .argumentConflict else .ok taken
  | .valued choices =>
    match value with
    | none => .error .invalidValue
    | some v =>
      if p.settled.has o.long then .error .argumentConflict
      else if !choices.isEmpty && !choices.contains v then .error .invalidValue
      else .ok taken

def settle (p : Progress) : Except Usage Progress :=
  match p.pending with
  | some (o, value) => { p with pending := none }.take o value
  | none => .ok p

def react (p : Progress) (o : Opt) (value : Option String) : Except Usage Progress := do
  (← p.settle).take o value

/-- Leaves the value of an option to the next argument. -/
def await (p : Progress) (o : Opt) : Except Usage Progress := do
  return { ← p.settle with pending := some (o, none) }

/-- The option that the next argument is the value of. -/
def awaiting? (p : Progress) : Option Opt :=
  match p.pending with
  | some (o, none) => some o
  | _ => none

end Progress

namespace Scope

def long? (s : Scope) (name : String) : Option Opt := s.options.find? fun o => o.long == name

def short? (s : Scope) (c : Char) : Option Opt := s.options.find? fun o => o.short == c

/-- Splits a text at its first equals sign. -/
def splitEquals (cs : List Char) : String × Option String :=
  let name := cs.takeWhile (· != '=')
  match cs.dropWhile (· != '=') with
  | [] => (String.ofList name, none)
  | _ :: value => (String.ofList name, some (String.ofList value))

/-- An argument after two dashes. -/
def readLong (s : Scope) (p : Progress) (cs : List Char) : Except Usage Progress :=
  let (name, value) := splitEquals cs
  match s.long? name with
  | some o =>
    match o.arity, value with
    | .valued _, some _ => p.react o value
    | .valued _, none => p.await o
    | _, some _ => .error .tooManyValues
    | _, none => p.react o none
  | none =>
    if name = "help" ∨ s.versioned ∧ name = "version" then
      if value.isSome then .error .tooManyValues
      else do
        let _ ← p.settle
        .error (if name = "help" then .help else .version)
    else .error .unknownArgument

/-- Flags joined after one dash; an option that takes a value takes the rest for it. -/
def readShort (s : Scope) : Progress → List Char → Except Usage Progress
  | p, [] => .ok p
  | p, c :: cs =>
    match s.short? c with
    | some o =>
      match o.arity with
      | .valued _ =>
        match cs with
        | [] => p.await o
        | '=' :: value => p.react o (some (String.ofList value))
        | value => p.react o (some (String.ofList value))
      | _ => do readShort s (← p.react o none) cs
    | none =>
      if c = 'h' ∨ s.versioned ∧ c = 'V' then do
        let _ ← p.settle
        .error (if c = 'h' then .help else .version)
      else .error .unknownArgument

/-- The help of a command is asked for by its name; help itself has help. -/
def helpFor (s : Scope) : List String → Usage
  | [] => .help
  | [name] =>
    if name = "help" ∨ s.commands.any (·.name == name) then .help else .invalidSubcommand
  | _ => .invalidSubcommand

/-- Reads arguments up to the name of a command, which is given with those after it. -/
def read (s : Scope) : Bool → Progress → List String →
    Except Usage (Progress × Option (Spec × List String))
  | _, p, [] => .ok (p, none)
  | trailing, p, arg :: args =>
    let stray := if s.commands.isEmpty then .unknownArgument
      else if trailing && (arg == "help" || s.commands.any (·.name == arg)) then .unknownArgument
      else .invalidSubcommand
    if trailing then .error stray
    else match p.awaiting?, arg.toList with
    | _, ['-', '-'] => read s true p args
    | _, '-' :: '-' :: cs => do read s false (← s.readLong p cs) args
    | _, '-' :: c :: cs => do read s false (← s.readShort p (c :: cs)) args
    | some o, _ => read s false { p with pending := some (o, some arg) } args
    | none, _ =>
      match s.commands.find? (·.name == arg) with
      | some c => .ok (p, some (c, args))
      | none => .error (if !s.commands.isEmpty && arg == "help" then s.helpFor args else stray)

end Scope

/-- What has to hold once all arguments of a command are read, in the order it is looked at. -/
def Spec.validate (spec : Spec) (given : Given) : Except Usage Unit :=
  if spec.helpWhenEmpty && given.isEmpty then .error .helpForMissing
  else if 1 < (spec.exclusive.filter given.has).length then .error .argumentConflict
  else if spec.options.any fun o => o.required && !given.has o.long then .error .missingRequired
  else .ok ()

/-- Reads the arguments after a command's name. Options of the whole program may come there too. -/
def Spec.read (spec : Spec) (global : List Opt) (args : List String) : Except Usage Given := do
  let scope : Scope := ⟨spec.options ++ global, false, []⟩
  let (p, _) ← scope.read false .start args
  let p ← p.settle
  spec.validate p.settled
  return p.settled

/-- Reads a whole command line. -/
def Scope.parse (s : Scope) (args : List String) : Except Usage Line := do
  let (p, rest) ← s.read false .start args
  match rest with
  | some (spec, args) => return ⟨some spec.name, ← spec.read s.options args⟩
  | none => return ⟨none, (← p.settle).settled⟩

end Fleet.Command
