import ResourceBundles.Json.Scalar

/-!
# Passing over JSON values

A value that nobody asks for is passed over, but it must be JSON.  The lists and
objects that are open are kept in a stack, so values may be nested to any depth.
-/

namespace ResourceBundles.Json

inductive Frame where
  | list
  | object
deriving DecidableEq

namespace Frame

def close : Frame → Char
  | list => ']'
  | object => '\x7d'

/-- The reason to give where the text ends inside a frame. -/
def unfinished : Frame → Reason
  | list => .unfinishedList
  | object => .unfinishedObject

/-- The reason to give where an item is followed by something else than the next
item or the end. -/
def unclosed : Frame → Reason
  | list => .expectedListEnd
  | object => .expectedObjectEnd

end Frame

def readColon (k : Cursor) : Except ReadError Cursor :=
  let k := k.skipBlanks
  match k.peek? with
  | none => k.failNext .unfinishedObject
  | some c => if c = ':' then .ok k.advance else k.failNext .expectedColon

/-- Pass over the key of the next member, if the frame is an object. -/
def skipKey (f : Frame) (k : Cursor) : Except ReadError Cursor :=
  match f with
  | .list => .ok k
  | .object =>
    let k := k.skipBlanks
    match k.peek? with
    | none => k.failNext .unfinishedObject
    | some c =>
      if c = '"' then (skipChars k.advance).bind readColon else k.failNext .keyNotString

/-- Close the frames that end here, and go on to the next value.  `afterItem` tells
whether a value stands in front of the cursor.  The result is `none` for the stack
once every frame is closed. -/
def closeFrames (afterItem : Bool) :
    List Frame → Cursor → Except ReadError (Option (List Frame) × Cursor)
  | [], k => .ok (none, k)
  | f :: frames, k =>
    let k := k.skipBlanks
    match k.peek? with
    | none => k.failNext f.unfinished
    | some c =>
      if c = ',' ∧ afterItem then
        (skipKey f k.advance).map fun k => (some (f :: frames), k)
      else if c = f.close then closeFrames true frames k.advance
      else if afterItem then k.failNext f.unclosed
      else (skipKey f k).map fun k => (some (f :: frames), k)

/-- Pass over a value inside some frames and over the rest of the frames; at most
`fuel` values are passed over. -/
def skipFrom : Nat → List Frame → Cursor → Except ReadError Cursor
  | 0, _, k => k.fail .unfinishedValue
  | fuel + 1, frames, k => do
    let k := k.skipBlanks
    let continueWith (afterItem : Bool) (frames : List Frame) (k : Cursor) :
        Except ReadError Cursor :=
      match closeFrames afterItem frames k with
      | .error e => .error e
      | .ok (none, k) => .ok k
      | .ok (some frames, k) => skipFrom fuel frames k
    match k.peek? with
    | none => k.failNext .unfinishedValue
    | some 'n' => do continueWith true frames (← readWord "ull" k.advance)
    | some 't' => do continueWith true frames (← readWord "rue" k.advance)
    | some 'f' => do continueWith true frames (← readWord "alse" k.advance)
    | some '-' => do continueWith true frames (← skipNumber k.advance)
    | some '"' => do continueWith true frames (← skipChars k.advance)
    | some '[' => continueWith false (.list :: frames) k.advance
    | some '\x7b' => continueWith false (.object :: frames) k.advance
    | some c =>
      if c.isDigit then do continueWith true frames (← skipNumber k)
      else k.failNext .expectedValue

def skipValue (k : Cursor) : Except ReadError Cursor := skipFrom (k.rest.length + 1) [] k

end ResourceBundles.Json
