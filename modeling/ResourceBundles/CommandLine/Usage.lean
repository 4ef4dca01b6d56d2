import ResourceBundles.CommandLine.Basic

/-!
# Usage

The texts that the program shows instead of a run.
-/

namespace ResourceBundles

def programName : Text := "bundlegen"

def versionLine : Text := Text.line (programName ++ " 0.1.0")

def usage : Text :=
  Text.line ("Usage: " ++ programName ++ " [COMMAND]") ++
  Text.line [] ++
  Text.line "Commands:" ++
  Text.line "  check [BUNDLES]...  Check bundles for malformed patterns and unusable keys" ++
  Text.line "  tree <BUNDLE>       Print the accessor namespace tree of a bundle" ++
  Text.line "  init                Initialize a new .bundlegenrc.json configuration file" ++
  Text.line "  help                Print this message" ++
  Text.line [] ++
  Text.line "Options of check and tree:" ++
  Text.line "  --source-root <DIRECTORY>              Where bundle names are looked up" ++
  Text.line "  --format-style <conversion|pattern>    The format convention of values" ++
  Text.line "  --encoding <utf-8|iso-8859-1>          The encoding of bundle files" ++
  Text.line "  -v, --verbose                          Tell more" ++
  Text.line "  --json                                 Print the tree as JSON (tree only)" ++
  Text.line [] ++
  Text.line "Options:" ++
  Text.line "  -h, --help     Print help" ++
  Text.line "  -V, --version  Print version"

namespace Refusal

def message : Refusal → Text
  | help => []
  | version => []
  | unknownCommand => "unrecognized subcommand"
  | unknownArgument => "unexpected argument"
  | missingArgument => "a required argument was not provided"
  | invalidValue => "a value is missing or invalid"
  | repeated => "an argument cannot be used multiple times"
  | needlessValue => "unexpected value for an option that takes none"

def text (r : Refusal) : Text :=
  match r with
  | help => usage
  | version => versionLine
  | r => Text.line ("error: " ++ r.message) ++ Text.line [] ++ usage

end Refusal
end ResourceBundles
