import ResourceBundles.CommandLine.Basic

/-!
# Reading command lines

The first argument is the word for a command.  Options and other arguments follow in
any order.  The value of an option stands behind an equals sign or is an argument of
its own; two hyphens alone end the options.

Arguments are read from left to right, and the first fault counts.  A value that is an
argument of its own is looked at only when the argument behind it has been recognised,
so that an unknown argument is the fault that counts.
-/

namespace ResourceBundles

namespace CommandLine

inductive Form where
  /-- Two hyphens alone. -/
  | separator
  /-- A name behind two hyphens, and a value behind an equals sign. -/
  | long (name : Text) (value : Option Text)
  /-- Letters behind a hyphen. -/
  | short (letters : Text)
  | plain
deriving DecidableEq

def Form.ofArgument : Text → Form
  | ['-', '-'] => separator
  | '-' :: '-' :: t =>
    match t.dropWhile (· ≠ '=') with
    | [] => long t none
    | _ :: value => long (t.takeWhile (· ≠ '=')) (some value)
  | '-' :: c :: t => short (c :: t)
  | _ => plain

inductive Verb where
  | check
  | tree
  | init
deriving DecidableEq

namespace Verb

def ofWord? (t : Text) : Option Verb :=
  if t = "check" then some check
  else if t = "tree" then some tree
  else if t = "init" then some init
  else none

end Verb

def helpWord : Text := "help"

/-- Whether a word may stand in the place of a command. -/
def isVerb (t : Text) : Bool := (Verb.ofWord? t).isSome || t = helpWord

inductive Setting where
  | sourceRoot
  | formatStyle
  | encoding
deriving DecidableEq

def Setting.ofName? (v : Verb) (t : Text) : Option Setting :=
  if v = .init then none
  else if t = "source-root" then some sourceRoot
  else if t = "format-style" then some formatStyle
  else if t = "encoding" then some encoding
  else none

inductive Switch where
  | help
  | verbose
  | json
deriving DecidableEq

def Switch.ofName? (v : Verb) (t : Text) : Option Switch :=
  if t = "help" then some help
  else if t = "verbose" ∧ v ≠ .init then some verbose
  else if t = "json" ∧ v = .tree then some json
  else none

def Switch.ofLetter? (v : Verb) (c : Char) : Option Switch :=
  if c = 'h' then some help
  else if c = 'v' ∧ v ≠ .init then some verbose
  else none

structure Draft where
  overrides : Overrides
  json : Bool
  bundles : List Text
  /-- A setting that is still to be taken up, with the value if there is one. -/
  pending : Option (Setting × Option Text)
deriving DecidableEq

namespace Draft

def empty : Draft := ⟨Overrides.none, false, [], none⟩

def choose (previous choice : Option α) : Except Refusal (Option α) :=
  if previous.isSome then .error .repeated
  else if choice.isSome then .ok choice
  else .error .invalidValue

def assign (d : Draft) (s : Setting) (value : Text) : Except Refusal Draft :=
  match s with
  | .sourceRoot => do
    let root ← choose d.overrides.sourceRoot (if value = [] then none else some value)
    return { d with overrides.sourceRoot := root }
  | .formatStyle => do
    let style ← choose d.overrides.style (Style.ofName? false value)
    return { d with overrides.style := style }
  | .encoding => do
    let encoding ← choose d.overrides.encoding (Encoding.ofName? false value)
    return { d with overrides.encoding := encoding }

def resolve (d : Draft) : Except Refusal Draft :=
  match d.pending with
  | none => .ok d
  | some (_, none) => .error .invalidValue
  | some (s, some value) => { d with pending := none }.assign s value

def switch (d : Draft) (s : Switch) : Except Refusal Draft := do
  let d ← d.resolve
  match s with
  | .help => .error .help
  | .verbose =>
    if d.overrides.verbose then .error .repeated
    else return { d with overrides.verbose := true }
  | .json => if d.json then .error .repeated else return { d with json := true }

def readLong (v : Verb) (name : Text) (value : Option Text) (d : Draft) :
    Except Refusal Draft :=
  match Setting.ofName? v name with
  | some s => do
    let d ← d.resolve
    match value with
    | some value => d.assign s value
    | none => return { d with pending := some (s, none) }
  | none =>
    match Switch.ofName? v name with
    | some s => if value.isSome then .error .needlessValue else d.switch s
    | none => .error .unknownArgument

def readShort (v : Verb) : Text → Draft → Except Refusal Draft
  | [], d => .ok d
  | c :: letters, d =>
    match Switch.ofLetter? v c with
    | some s => do readShort v letters (← d.switch s)
    | none => .error .unknownArgument

/-- Read the name of a bundle.  Only one verb takes more than one. -/
def readBundle (v : Verb) (t : Text) (d : Draft) : Except Refusal Draft :=
  if v = .check ∨ (v = .tree ∧ d.bundles = []) then do
    let d ← d.resolve
    return { d with bundles := d.bundles ++ [t] }
  else .error .unknownArgument

/-- Read the names of bundles up to the end of the command line. -/
def readBundles (v : Verb) : List Text → Draft → Except Refusal Draft
  | [], d => d.resolve
  | t :: ts, d => do readBundles v ts (← d.readBundle v t)

def read (v : Verb) : List Text → Draft → Except Refusal Draft
  | [], d => d.resolve
  | t :: ts, d =>
    match Form.ofArgument t with
    | .separator => readBundles v ts d
    | .long name value => do read v ts (← d.readLong v name value)
    | .short letters => do read v ts (← d.readShort v letters)
    | .plain =>
      match d.pending with
      | some (s, none) => read v ts { d with pending := some (s, some t) }
      | _ => do read v ts (← d.readBundle v t)

def command (v : Verb) (d : Draft) : Except Refusal Command :=
  match v with
  | .check => .ok (.check d.bundles d.overrides)
  | .tree =>
    match d.bundles with
    | [] => .error .missingArgument
    | bundle :: _ => .ok (.tree bundle d.json d.overrides)
  | .init => .ok .init

end Draft

/-- The answer to a question for help about the command of some words. -/
def help : List Text → Refusal
  | [] => .help
  | [t] => if isVerb t then .help else .unknownCommand
  | _ => .unknownCommand

def leadingOption (help version : Bool) (value : Option Text) : Refusal :=
  if !help && !version then .unknownArgument
  else if value.isSome then .needlessValue
  else if help then .help
  else .version

end CommandLine

open CommandLine in
/-- The command that a command line asks for.  One without a word asks for none. -/
def Command.ofArguments : List Text → Except Refusal (Option Command)
  | [] => .ok none
  | t :: ts =>
    match Form.ofArgument t with
    | .separator =>
      match ts with
      | [] => .ok none
      | word :: _ => .error (if isVerb word then .unknownArgument else .unknownCommand)
    | .long name value => .error (leadingOption (name = "help") (name = "version") value)
    | .short letters =>
      .error (leadingOption (letters.head? = some 'h') (letters.head? = some 'V') none)
    | .plain =>
      if t = helpWord then .error (help ts)
      else
        match Verb.ofWord? t with
        | none => .error .unknownCommand
        | some v => do
          let d ← Draft.read v ts Draft.empty
          return some (← d.command v)

end ResourceBundles
