import ResourceBundles.FileSystem
import ResourceBundles.Properties.Reader
import ResourceBundles.Text.Encoding
import ResourceBundles.Text.Quoted

/-!
# Bundle files

A bundle file is read, decoded and parsed.  Each of the three steps may fail, and
the failure names the file.
-/

namespace ResourceBundles

inductive BundleFault where
  | unreadable (error : FileError)
  | undecodable (error : Utf8Error)
  | malformed (error : Properties.EntryError)
deriving DecidableEq

structure BundleError where
  path : Path
  fault : BundleFault
deriving DecidableEq

def decodeMessage (e : Utf8Error) : Text := "File is not valid UTF-8: " ++ e.message

def BundleError.message (e : BundleError) : Text :=
  let file := Text.quoted e.path.text
  match e.fault with
  | .unreadable error => "Failed to read bundle file: " ++ file ++ ": " ++ error.message
  | .undecodable error => "Failed to decode bundle file: " ++ file ++ ": " ++ decodeMessage error
  | .malformed error => "Failed to parse bundle file: " ++ file ++ ": " ++ error.message

abbrev FileReader := Path → Except FileError (List UInt8)

namespace Properties

def parseFile (read : FileReader) (encoding : Encoding) (path : Path) :
    Except BundleError Bundle :=
  match read path with
  | .error e => .error ⟨path, .unreadable e⟩
  | .ok bytes =>
    match encoding.decode bytes with
    | .error e => .error ⟨path, .undecodable e⟩
    | .ok text =>
      match parse text with
      | .error e => .error ⟨path, .malformed e⟩
      | .ok bundle => .ok bundle

end Properties
end ResourceBundles
