import ResourceBundles.Format.Limit
import ResourceBundles.Text.Blank

/-!
# Choice styles

A choice style is a list of intervals with a bar between two of them.  An
interval is a limit, a relation and a text: `0#none|1#one|1<many`.  The intervals
stand in ascending order.  Relations and bars inside single quotes are ordinary
characters, and two quotes in a row are one quote character of the text.
-/

namespace ResourceBundles.Choice

/-- The lower end of an interval.  An end that its interval excludes comes just
after the same end included. -/
structure Bound where
  limit : Limit
  exclusive : Bool
deriving DecidableEq

def Bound.lt (a b : Bound) : Bool :=
  a.limit.lt b.limit || (a.limit == b.limit && !a.exclusive && b.exclusive)

def isRelation (c : Char) : Bool := c == '#' || c == '<' || c == '≤'

/-- What is known after the first characters of a style. -/
structure Progress where
  limit : Text
  /-- Whether the relation of the current interval has been read. -/
  inText : Bool
  quoted : Bool
  closedOne : Bool
  previous : Option Bound
deriving DecidableEq

def Progress.start : Progress := ⟨[], false, false, false, none⟩

namespace Progress

/-- Read an ordinary character, which matters only in a limit. -/
def keep (p : Progress) (c : Char) : Progress :=
  if p.inText then p else { p with limit := p.limit ++ [c] }

/-- Read a relation: the limit before it must be a number above the bound of the
interval before. -/
def relate (p : Progress) (c : Char) : Option Progress :=
  (Limit.parse? (Text.trim p.limit)).bind fun limit =>
    let bound : Bound := ⟨limit, c == '<'⟩
    if p.previous.all (·.lt bound) then
      some { p with limit := [], inText := true, previous := some bound }
    else none

def close (p : Progress) : Option Progress :=
  if p.inText then some { p with inText := false, closedOne := true } else none

def read (p : Progress) (c : Char) : Option Progress :=
  if p.quoted then some (p.keep c)
  else if isRelation c then p.relate c
  else if c = '|' then p.close
  else some (p.keep c)

/-- Whether the style may end here: in the text of an interval, or with nothing
but white space behind the last bar. -/
def complete (p : Progress) : Bool :=
  p.inText || (p.closedOne && Text.trim p.limit == [])

def accepts (p : Progress) : Text → Bool
  | [] => p.complete
  | '\'' :: '\'' :: t => p.accepts t
  | '\'' :: t => { p with quoted := !p.quoted }.accepts t
  | c :: t =>
    match p.read c with
    | some q => q.accepts t
    | none => false

end Progress

def accepts (style : Text) : Bool := Progress.start.accepts style

end ResourceBundles.Choice
