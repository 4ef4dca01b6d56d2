import ResourceBundles.Settings

/-!
# Commands

What the program can be asked to do, and the answers to command lines that ask for
none of it.
-/

namespace ResourceBundles

inductive Command where
  /-- Report the issues of the named bundles, or of all bundles if none is named. -/
  | check (bundles : List Text) (overrides : Overrides)
  /-- Show the key tree of a bundle, drawn or as data. -/
  | tree (bundle : Text) (json : Bool) (overrides : Overrides)
  /-- Write a configuration file with the standard values. -/
  | init
deriving DecidableEq

/-- Why a command line is answered without a run: it asks about the program itself,
or it is faulty. -/
inductive Refusal where
  | help
  | version
  | unknownCommand
  | unknownArgument
  | missingArgument
  /-- An option without its value, or a value that the option does not have. -/
  | invalidValue
  /-- An option that is given twice. -/
  | repeated
  /-- A value behind an option that has none. -/
  | needlessValue
deriving DecidableEq

def Refusal.code : Refusal → Nat
  | help => 0
  | version => 0
  | _ => 2

end ResourceBundles
