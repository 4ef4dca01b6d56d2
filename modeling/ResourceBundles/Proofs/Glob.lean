import ResourceBundles.Glob
import Mathlib.Data.List.Basic

/-!
# Patterns without wildcards

A pattern with neither a star nor a question mark takes its characters one by one, either
a character itself or those between two brackets.  So it matches no text but itself if it
has no bracket, and otherwise only texts with fewer brackets than it has itself.
-/

namespace ResourceBundles.Glob

variable {t s body rest : Text} {k : Token} {ks : List Token} {position : Nat} {pieceStart : Bool}

theorem eq_of_cutBracket (h : cutBracket t = some (body, rest)) : t = body ++ ']' :: rest := by
  induction t generalizing body with
  | nil => exact absurd h (Option.some_ne_none _).symm
  | cons c t ih =>
      rw [cutBracket] at h
      split_ifs at h with hc
      · obtain ⟨rfl, rfl⟩ := Prod.mk.inj (Option.some.inj h)
        exact congrArg (· :: t) hc
      · obtain ⟨⟨front, back⟩, hcut, hcons⟩ := Option.map_eq_some_iff.mp h
        obtain ⟨rfl, rfl⟩ := Prod.mk.inj hcons
        exact congrArg (c :: ·) (ih hcut)

/-- A token for the characters between two brackets. -/
inductive Token.IsClass : Token → Prop where
  | within (ranges : List Range) : IsClass (.within ranges)
  | without (ranges : List Range) : IsClass (.without ranges)

theorem of_readBracket (h : readBracket t = some (k, rest)) :
    k.IsClass ∧ ∃ body, t = body ++ ']' :: rest := by
  unfold readBracket at h
  split at h
  · next c t =>
      obtain ⟨⟨front, back⟩, hcut, hk⟩ := Option.map_eq_some_iff.mp h
      obtain ⟨rfl, rfl⟩ := Prod.mk.inj hk
      exact ⟨.without _, '!' :: c :: front, congrArg ('!' :: c :: ·) (eq_of_cutBracket hcut)⟩
  · exact absurd h (Option.some_ne_none _).symm
  · next c t _ _ =>
      obtain ⟨⟨front, back⟩, hcut, hk⟩ := Option.map_eq_some_iff.mp h
      obtain ⟨rfl, rfl⟩ := Prod.mk.inj hk
      exact ⟨.within _, c :: front, congrArg (c :: ·) (eq_of_cutBracket hcut)⟩
  · exact absurd h (Option.some_ne_none _).symm

/-! ## Tokens -/

/-- The tokens of a pattern without wildcards. -/
inductive Spells : Text → List Token → Prop where
  | nil : Spells [] []
  | char {c : Char} {t : Text} {ks : List Token} (hc : c ≠ '[') (h : Spells t ks) :
      Spells (c :: t) (.char c :: ks)
  | brackets {body rest : Text} {k : Token} {ks : List Token} (hk : k.IsClass)
      (h : Spells rest ks) : Spells ('[' :: (body ++ ']' :: rest)) (k :: ks)

theorem exists_of_map_eq_ok {parsed : Except GlobError (List Token)}
    (h : parsed.map (k :: ·) = .ok ks) : ∃ ks', parsed = .ok ks' ∧ ks = k :: ks' := by
  cases parsed with
  | error e => exact nomatch h
  | ok ks' => exact ⟨ks', rfl, (Except.ok.inj h).symm⟩

/-- A pattern without wildcards is read character by character. -/
theorem spells_of_tokensFrom (hstar : '*' ∉ t) (hmark : '?' ∉ t)
    (h : tokensFrom position pieceStart t = .ok ks) : Spells t ks := by
  fun_induction tokensFrom position pieceStart t generalizing ks with
  | case1 => exact Except.ok.inj h ▸ .nil
  | case2 | case3 | case4 | case5 | case6 | case7 => exact absurd List.mem_cons_self hstar
  | case8 => exact absurd List.mem_cons_self hmark
  | case9 => exact nomatch h
  | case10 position pieceStart t k rest hread _ ih =>
      obtain ⟨ks, hrest, rfl⟩ := exists_of_map_eq_ok h
      obtain ⟨hk, body, rfl⟩ := of_readBracket hread
      simp only [List.mem_cons, List.mem_append, not_or] at hstar hmark
      exact .brackets hk (ih hstar.2.2.2 hmark.2.2.2 hrest)
  | case11 position pieceStart c t _ _ _ _ hc ih =>
      obtain ⟨ks, hrest, rfl⟩ := exists_of_map_eq_ok h
      exact .char hc (ih (List.not_mem_of_not_mem_cons hstar)
        (List.not_mem_of_not_mem_cons hmark) hrest)

/-! ## Matching -/

theorem Token.IsClass.exists_of_matchAll (hk : k.IsClass)
    (h : Token.matchAll (k :: ks) s = true) :
    ∃ c rest, s = c :: rest ∧ Token.matchAll ks rest = true := by
  cases s with
  | nil => cases hk <;> exact absurd h Bool.false_ne_true
  | cons c rest => cases hk <;> exact ⟨c, rest, rfl, (Bool.and_eq_true_iff.mp h).2⟩

theorem matchAll_char {c : Char} :
    Token.matchAll (.char c :: ks) s = true ↔
      ∃ rest, s = c :: rest ∧ Token.matchAll ks rest = true := by
  cases s with
  | nil => simp [Token.matchAll]
  | cons d s => simp [Token.matchAll, and_assoc]

theorem matchAll_nil : Token.matchAll [] s = true ↔ s = [] := List.isEmpty_iff

/-- A pattern with neither wildcards nor brackets matches itself alone. -/
theorem Spells.matchAll_iff (h : Spells t ks) (hopen : '[' ∉ t) :
    Token.matchAll ks s = true ↔ s = t := by
  induction h generalizing s with
  | nil => exact matchAll_nil
  | char hc h ih =>
      rw [matchAll_char]
      simp [ih (List.not_mem_of_not_mem_cons hopen)]
  | brackets hk h ih => exact absurd List.mem_cons_self hopen

theorem Spells.head?_eq (h : Spells t ks) (hopen : t.head? ≠ some '[')
    (hmatch : Token.matchAll ks s = true) : s.head? = t.head? := by
  cases h with
  | nil => exact congrArg List.head? (matchAll_nil.mp hmatch)
  | char hc h =>
      obtain ⟨rest, rfl, -⟩ := matchAll_char.mp hmatch
      rfl
  | brackets hk h => exact absurd rfl hopen

def isBracket (c : Char) : Bool := c == '[' || c == ']'

/-- A matched text has fewer brackets than the pattern if that has any to open a class. -/
theorem Spells.countP_isBracket (h : Spells t ks) (hmatch : Token.matchAll ks s = true) :
    s.countP isBracket ≤ t.countP isBracket ∧
      ('[' ∈ t → s.countP isBracket < t.countP isBracket) := by
  induction h generalizing s with
  | nil =>
      obtain rfl := matchAll_nil.mp hmatch
      exact ⟨Nat.le_refl _, fun h => absurd h List.not_mem_nil⟩
  | @char c t ks hc h ih =>
      obtain ⟨rest, rfl, hrest⟩ := matchAll_char.mp hmatch
      obtain ⟨hle, hlt⟩ := ih hrest
      have hmem : '[' ∈ c :: t → '[' ∈ t := fun hm => List.mem_of_ne_of_mem hc.symm hm
      simp only [List.countP_cons]
      exact ⟨Nat.add_le_add_right hle _, fun hm => Nat.add_lt_add_right (hlt (hmem hm)) _⟩
  | @brackets body rest k ks hk h ih =>
      obtain ⟨c, s, rfl, hs⟩ := hk.exists_of_matchAll hmatch
      obtain ⟨hle, -⟩ := ih hs
      -- The two brackets of the class stand against the one character that it takes.
      have hopen : isBracket '[' = true := rfl
      have hclose : isBracket ']' = true := rfl
      have hlt : (c :: s).countP isBracket <
          ('[' :: (body ++ ']' :: rest)).countP isBracket := by
        simp only [List.countP_cons, List.countP_append, hopen, hclose, if_true]
        split_ifs <;> omega
      exact ⟨Nat.le_of_lt hlt, fun _ => hlt⟩

end ResourceBundles.Glob
