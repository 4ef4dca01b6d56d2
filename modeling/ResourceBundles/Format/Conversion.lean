import ResourceBundles.Format.Specifier

/-!
# Argument types of conversion formats

The specifiers of a format are read from left to right.  Each takes its position
by its addressing and narrows the type set of that position to its own kind;
kinds that share no value leave `universal`.  Positions that no specifier takes
accept any value.
-/

namespace ResourceBundles.Conversion

/-- What is known after the first specifiers of a format. -/
structure Progress where
  /-- The type sets of the positions so far; `none` where nothing is taken. -/
  slots : List (Option TypeSet)
  last : Option Nat
  next : Nat
deriving DecidableEq

def Progress.start : Progress := ⟨[], none, 0⟩

/-- Narrow the slot at a position to a kind, adding free slots up to it. -/
def narrow (slots : List (Option TypeSet)) (position : Nat) (k : Kind) :
    List (Option TypeSet) :=
  let grown := slots ++ List.replicate (position + 1 - slots.length) none
  grown.modify position fun
    | some s => some (s.retain (.single k))
    | none => some (.single k)

def Progress.take (p : Progress) (position : Nat) (k : Kind) : Progress :=
  { p with slots := narrow p.slots position k, last := some position }

/-- Read one more reference.  A reference to the argument before it is left out
where no argument has been taken yet. -/
def Progress.step (p : Progress) : Addressing × Kind → Progress
  | (.literal, _) => p
  | (.relative, k) =>
    match p.last with
    | some position => p.take position k
    | none => p
  | (.ordinary, k) => { p.take p.next k with next := p.next + 1 }
  | (.explicit position, k) => p.take position k

/-- The type sets of the argument positions of a format. -/
def resolve (t : Text) : List TypeSet :=
  ((Specifier.references t).foldl Progress.step .start).slots.map (·.getD .universal)

end ResourceBundles.Conversion
