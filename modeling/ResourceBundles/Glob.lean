import ResourceBundles.Text.Basic

/-!
# Glob patterns

A question mark stands for any character, a star for any text, and brackets for
one of the characters or ranges inside them, or for any other character if they
open with an exclamation mark.  Two stars stand for any number of directories and
must be a whole piece of the path; they take the slash behind them.  The other
wildcards match slashes as well.
-/

namespace ResourceBundles

/-- Why a text is no glob pattern.  Positions count characters. -/
structure GlobError where
  position : Nat
  reason : Text
deriving DecidableEq

def GlobError.message (e : GlobError) : Text :=
  "Pattern syntax error near position " ++ Text.decimal e.position ++ ": " ++ e.reason

namespace Glob

/-- Some of the characters between brackets; a single character is a range. -/
structure Range where
  first : Char
  last : Char
deriving DecidableEq

def Range.contains (r : Range) (c : Char) : Bool := r.first ≤ c && c ≤ r.last

inductive Token where
  | char (c : Char)
  | anyChar
  | anySequence
  /-- Any number of directories. -/
  | anyDirectories
  | within (ranges : List Range)
  | without (ranges : List Range)
deriving DecidableEq

/-- The ranges between brackets.  A minus sign joins its two neighbours. -/
def ranges : Text → List Range
  | first :: '-' :: last :: t => ⟨first, last⟩ :: ranges t
  | c :: t => ⟨c, c⟩ :: ranges t
  | [] => []

/-- The text before the first closing bracket, and the text behind it. -/
def cutBracket : Text → Option (Text × Text)
  | [] => none
  | c :: t =>
    if c = ']' then some ([], t) else (cutBracket t).map fun (front, rest) => (c :: front, rest)

/-- The token behind an opening bracket, and the text behind the token.  The first
character between the brackets may be a closing bracket. -/
def readBracket : Text → Option (Token × Text)
  | '!' :: c :: t => (cutBracket t).map fun (front, rest) => (.without (ranges (c :: front)), rest)
  | '!' :: [] => none
  | c :: t => (cutBracket t).map fun (front, rest) => (.within (ranges (c :: front)), rest)
  | [] => none

theorem length_cutBracket_lt {t front rest : Text} (h : cutBracket t = some (front, rest)) :
    rest.length < t.length := by
  induction t generalizing front with
  | nil => simp [cutBracket] at h
  | cons c t ih =>
    simp only [cutBracket] at h
    split at h
    · simp only [Option.some.injEq, Prod.mk.injEq] at h
      simp [h.2]
    · simp only [Option.map_eq_some_iff, Prod.mk.injEq, Prod.exists] at h
      obtain ⟨f, r, hr, _, rfl⟩ := h
      exact Nat.lt_succ_of_lt (ih hr)

theorem length_readBracket_lt {t rest : Text} {k : Token}
    (h : readBracket t = some (k, rest)) : rest.length < t.length := by
  unfold readBracket at h
  split at h
  · simp only [Option.map_eq_some_iff, Prod.mk.injEq, Prod.exists] at h
    obtain ⟨f, r, hr, _, rfl⟩ := h
    have := length_cutBracket_lt hr
    simp only [List.length_cons]
    omega
  · simp at h
  · simp only [Option.map_eq_some_iff, Prod.mk.injEq, Prod.exists] at h
    obtain ⟨f, r, hr, _, rfl⟩ := h
    have := length_cutBracket_lt hr
    simp only [List.length_cons]
    omega
  · simp at h

def wildcardError (position : Nat) : GlobError :=
  ⟨position, "wildcards are either regular `*` or recursive `**`"⟩

def recursiveError (position : Nat) : GlobError :=
  ⟨position, "recursive wildcards must form a single path component"⟩

def rangeError (position : Nat) : GlobError := ⟨position, "invalid range pattern"⟩

/-- The tokens of the rest of a pattern, given its position and whether a piece
starts there. -/
def tokensFrom (position : Nat) (pieceStart : Bool) : Text → Except GlobError (List Token)
  | [] => .ok []
  | '*' :: '*' :: '*' :: _ => .error (wildcardError (position + 2))
  | '*' :: '*' :: t =>
    if pieceStart then
      match t with
      | [] => .ok [.anyDirectories]
      | '/' :: t => (tokensFrom (position + 3) true t).map (.anyDirectories :: ·)
      | _ => .error (recursiveError (position + 2))
    else .error (recursiveError (position - 1))
  | '*' :: t => (tokensFrom (position + 1) false t).map (.anySequence :: ·)
  | '?' :: t => (tokensFrom (position + 1) false t).map (.anyChar :: ·)
  | '[' :: t =>
    match h : readBracket t with
    | none => .error (rangeError position)
    | some (k, rest) =>
      have : rest.length < t.length := length_readBracket_lt h
      (tokensFrom (position + 1 + (t.length - rest.length)) false rest).map (k :: ·)
  | c :: t => (tokensFrom (position + 1) (c == '/') t).map (.char c :: ·)
termination_by t => t.length

def parse (t : Text) : Except GlobError (List Token) := tokensFrom 0 true t

/-- Whether `p` holds of a text or of a part of it that is left when characters
are taken from its start. -/
def anySuffix (p : Text → Bool) : Text → Bool
  | [] => p []
  | c :: t => p (c :: t) || anySuffix p t

/-- Whether `p` holds of the part of a text behind one of its slashes, or of the
empty text. -/
def anyBelow (p : Text → Bool) : Text → Bool
  | [] => p []
  | c :: t => (c == '/' && p t) || anyBelow p t

def Token.matchAll : List Token → Text → Bool
  | [], t => t.isEmpty
  | .anySequence :: ks, t => anySuffix (matchAll ks) t
  | .anyDirectories :: ks, t => matchAll ks t || anyBelow (matchAll ks) t
  | .char d :: ks, t =>
    match t with
    | c :: t => c == d && matchAll ks t
    | [] => false
  | .anyChar :: ks, t =>
    match t with
    | _ :: t => matchAll ks t
    | [] => false
  | .within rs :: ks, t =>
    match t with
    | c :: t => rs.any (·.contains c) && matchAll ks t
    | [] => false
  | .without rs :: ks, t =>
    match t with
    | c :: t => !rs.any (·.contains c) && matchAll ks t
    | [] => false

end Glob
end ResourceBundles
