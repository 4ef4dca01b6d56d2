import ResourceBundles.Properties.Reader
import ResourceBundles.Proofs.Properties.Lines
import ResourceBundles.Proofs.Text.Units

/-!
# Spellings of keys and values

A character of a key or a value is written as its backslash escape where it would
be taken for something else, and otherwise as itself or as the escapes of its UTF-16
units.  Whatever spelling is chosen, resolving its escapes gives the text back.
-/

namespace ResourceBundles.Properties

/-! ## Resolving escapes -/

theorem unescapeFrom_unit {a b c d : Char} (h : [a, b, c, d].all Text.isHexDigit = true)
    (pending : List UInt16) (t : Text) :
    unescapeFrom pending ('\\' :: 'u' :: a :: b :: c :: d :: t) =
      unescapeFrom (pending ++ [hexUnit [a, b, c, d]]) t := by
  rw [unescapeFrom, if_pos h]

theorem unescapeFrom_escape {c : Char} (h : c ≠ 'u') (pending : List UInt16) (t : Text) :
    unescapeFrom pending ('\\' :: c :: t) =
      (unescapeFrom [] t).map fun r => Utf16.decode pending ++ escapedChar c :: r := by
  rw [unescapeFrom]
  all_goals simp [h]

theorem unescapeFrom_raw {c : Char} (h : c ≠ '\\') (pending : List UInt16) (t : Text) :
    unescapeFrom pending (c :: t) =
      (unescapeFrom [] t).map fun r => Utf16.decode pending ++ c :: r := by
  rw [unescapeFrom]
  all_goals simp [h]

/-- Whether a text starts with the four hexadecimal digits of a unit. -/
def StartsWithUnit (t : Text) : Prop :=
  4 ≤ t.length ∧ ∀ c ∈ t.take 4, Text.isHexDigit c = true

instance : DecidablePred StartsWithUnit := fun t =>
  inferInstanceAs (Decidable (4 ≤ t.length ∧ ∀ c ∈ t.take 4, Text.isHexDigit c = true))

theorem startsWithUnit_cons {a b c d : Char} {t : Text} :
    StartsWithUnit (a :: b :: c :: d :: t) ↔ [a, b, c, d].all Text.isHexDigit = true := by
  simp [StartsWithUnit]

theorem StartsWithUnit.exists_eq {t : Text} (h : StartsWithUnit t) :
    ∃ a b c d rest, t = a :: b :: c :: d :: rest ∧ [a, b, c, d].all Text.isHexDigit = true := by
  match t with
  | [] | [_] | [_, _] | [_, _, _] => exact absurd h.1 (by simp)
  | a :: b :: c :: d :: rest => exact ⟨a, b, c, d, rest, rfl, startsWithUnit_cons.mp h⟩

theorem unescapeFrom_lone (pending : List UInt16) :
    unescapeFrom pending ['\\'] = .ok (Utf16.decode pending) := by
  simp [unescapeFrom]

theorem unescapeFrom_malformed {t : Text} (h : ¬StartsWithUnit t) (pending : List UInt16) :
    unescapeFrom pending ('\\' :: 'u' :: t) = .error (t.take 4) := by
  match t with
  | [] | [_] | [_, _] | [_, _, _] => simp [unescapeFrom]
  | a :: b :: c :: d :: rest =>
      rw [startsWithUnit_cons] at h
      rw [unescapeFrom, if_neg h]
      rfl

/-- A text is read escape by escape, and nothing is read behind a malformed one. -/
theorem escape_induction {P : Text → Prop} (nil : P []) (lone : P ['\\'])
    (unit : ∀ a b c d t, [a, b, c, d].all Text.isHexDigit = true → P t →
      P ('\\' :: 'u' :: a :: b :: c :: d :: t))
    (malformed : ∀ t, ¬StartsWithUnit t → P ('\\' :: 'u' :: t))
    (escape : ∀ c t, c ≠ 'u' → P t → P ('\\' :: c :: t))
    (raw : ∀ c t, c ≠ '\\' → P t → P (c :: t)) (t : Text) : P t := by
  induction hn : t.length using Nat.strong_induction_on generalizing t with
  | _ n ih =>
      subst hn
      match t with
      | [] => exact nil
      | c :: t =>
          by_cases hc : c = '\\'
          · subst hc
            match t with
            | [] => exact lone
            | d :: t =>
                by_cases hd : d = 'u'
                · subst hd
                  by_cases h : StartsWithUnit t
                  · obtain ⟨a, b, c, d, rest, rfl, hhex⟩ := h.exists_eq
                    refine unit a b c d rest hhex (ih rest.length ?_ rest rfl)
                    simp only [List.length_cons]
                    omega
                  · exact malformed t h
                · refine escape d t hd (ih t.length ?_ t rfl)
                  exact Nat.lt_add_of_pos_right Nat.two_pos
          · exact raw c t hc (ih t.length (Nat.lt_succ_self t.length) t rfl)

/-! ## Spellings -/

/-- The character behind the backslash in the escape of a character. -/
def escapeLetter (c : Char) : Char :=
  match c with
  | '\t' => 't'
  | '\n' => 'n'
  | '\r' => 'r'
  | '\x0c' => 'f'
  | c => c

def escapeOf (c : Char) : Text := ['\\', escapeLetter c]

/-- The characters that are always written as their backslash escapes. -/
def specials : Side → List Char
  | .key => ['\\', '=', ':', '#', '!', ' ', '\t', '\x0c', '\r', '\n']
  | .value => ['\\', '\t', '\x0c', '\r', '\n']

/-- Some units, each as a backslash, a `u` and four hexadecimal digits of any case. -/
inductive UnitEscapes : List UInt16 → Text → Prop
  | nil : UnitEscapes [] []
  | cons {u : UInt16} {us : List UInt16} {a b c d : Char} {w : Text}
      (hhex : [a, b, c, d].all Text.isHexDigit = true)
      (hu : Text.ofHexDigits [a, b, c, d] = u.toNat) (h : UnitEscapes us w) :
      UnitEscapes (u :: us) ('\\' :: 'u' :: a :: b :: c :: d :: w)

/-- A way to write the characters of a text on one side of an entry. -/
inductive Spells (side : Side) : Text → Text → Prop
  | nil : Spells side [] []
  | escape {c : Char} {t w : Text} (hc : c ∈ specials side) (h : Spells side t w) :
      Spells side (c :: t) (escapeOf c ++ w)
  | raw {c : Char} {t w : Text} (hc : c ∉ specials side) (h : Spells side t w) :
      Spells side (c :: t) (c :: w)
  | units {c : Char} {t v w : Text} (hc : c ∉ specials side)
      (hv : UnitEscapes (Utf16.units c) v) (h : Spells side t w) : Spells side (c :: t) (v ++ w)

/-- A way to write a value, whose leading spaces are escaped as well. -/
def SpellsValue (value raw : Text) : Prop :=
  ∃ w, Spells .value (value.dropWhile (· = ' ')) w ∧
    raw = (value.takeWhile (· = ' ')).flatMap escapeOf ++ w

variable {side : Side} {t w : Text}

theorem specials_value_subset (side : Side) : specials .value ⊆ specials side := by
  cases side <;> simp [specials]

theorem escapeLetter_spec {c : Char} (h : c ∈ specials side) :
    escapedChar (escapeLetter c) = c ∧ escapeLetter c ≠ 'u' := by
  have hsub : specials side ⊆ specials .key := by cases side <;> simp [specials]
  have hkey : c ∈ specials .key := hsub h
  simp only [specials, List.mem_cons, List.not_mem_nil, or_false] at hkey
  rcases hkey with rfl | rfl | rfl | rfl | rfl | rfl | rfl | rfl | rfl | rfl <;> decide

theorem unescapeFrom_units {us : List UInt16} {v : Text} (h : UnitEscapes us v)
    (pending : List UInt16) (t : Text) :
    unescapeFrom pending (v ++ t) = unescapeFrom (pending ++ us) t := by
  induction h generalizing pending with
  | nil => rw [List.nil_append, List.append_nil]
  | @cons u us a b c d w hhex hu _ ih =>
      have hunit : hexUnit [a, b, c, d] = u := by
        rw [hexUnit, hu]
        exact UInt16.ofNat_toNat
      simp only [List.cons_append]
      rw [unescapeFrom_unit hhex, hunit, ih, List.append_assoc, List.singleton_append]

/-- A spelling resolves to its text behind the units of another text. -/
theorem unescapeFrom_spells (h : Spells side t w) (s : Text) :
    unescapeFrom (Utf16.encode s) w = .ok (s ++ t) := by
  induction h generalizing s with
  | nil =>
      rw [unescapeFrom, Utf16.decode_encode, List.append_nil]
  | @escape c t w hc _ ih =>
      obtain ⟨hletter, hu⟩ := escapeLetter_spec hc
      have hrest : unescapeFrom [] w = .ok t := ih []
      rw [escapeOf, List.cons_append, List.singleton_append, unescapeFrom_escape hu, hrest, hletter,
        Utf16.decode_encode]
      rfl
  | @raw c t w hc _ ih =>
      have hne : c ≠ '\\' := by
        rintro rfl
        exact hc (specials_value_subset side (by decide))
      have hrest : unescapeFrom [] w = .ok t := ih []
      rw [unescapeFrom_raw hne, hrest, Utf16.decode_encode]
      rfl
  | @units c t v w hc hv _ ih =>
      rw [unescapeFrom_units hv, ← Utf16.encode_concat, ih, List.append_assoc,
        List.singleton_append]

theorem unescape_spells (h : Spells side t w) : unescape w = .ok t :=
  unescapeFrom_spells h []

theorem unescape_escapeOf_append {cs : Text} (hcs : ∀ c ∈ cs, c ∈ specials side)
    (h : unescape w = .ok t) : unescape (cs.flatMap escapeOf ++ w) = .ok (cs ++ t) := by
  induction cs with
  | nil => exact h
  | cons c cs ih =>
      obtain ⟨hletter, hu⟩ := escapeLetter_spec (hcs c List.mem_cons_self)
      have hrest : unescapeFrom [] (cs.flatMap escapeOf ++ w) = .ok (cs ++ t) :=
        ih fun d hd => hcs d (List.mem_cons_of_mem c hd)
      rw [unescape, List.flatMap_cons, List.append_assoc, escapeOf, List.cons_append,
        List.singleton_append, unescapeFrom_escape hu, hrest, hletter]
      rfl

theorem space_of_mem_takeWhile {value : Text} {c : Char}
    (h : c ∈ value.takeWhile (· = ' ')) : c = ' ' :=
  of_decide_eq_true (List.all_eq_true.mp List.all_takeWhile c h)

theorem unescape_spellsValue {value raw : Text} (h : SpellsValue value raw) :
    unescape raw = .ok value := by
  obtain ⟨w, hw, rfl⟩ := h
  have hspaces : ∀ c ∈ value.takeWhile (· = ' '), c ∈ specials .key := by
    intro c hc
    rw [space_of_mem_takeWhile hc]
    decide
  rw [unescape_escapeOf_append hspaces (unescape_spells hw), List.takeWhile_append_dropWhile]

/-! ## Whole escapes -/

/-- A text in which every backslash escapes a character of the text, and all other
characters satisfy a condition. -/
inductive Whole (p : Char → Prop) : Text → Prop
  | nil : Whole p []
  | pair (c : Char) {w : Text} (h : Whole p w) : Whole p ('\\' :: c :: w)
  | plain {c : Char} {w : Text} (hc : c ≠ '\\') (hp : p c) (h : Whole p w) : Whole p (c :: w)

variable {p : Char → Prop}

theorem Whole.append {v : Text} (hv : Whole p v) (hw : Whole p w) : Whole p (v ++ w) := by
  induction hv with
  | nil => exact hw
  | pair c _ ih => exact .pair c ih
  | plain hc hp _ ih => exact .plain hc hp ih

theorem isHexDigit_ne {c d : Char} (hc : Text.isHexDigit c = true)
    (hd : Text.isHexDigit d = false) : c ≠ d := by
  rintro rfl
  rw [hc] at hd
  exact Bool.noConfusion hd

theorem toNat_le_of_isHexDigit {c : Char} (h : Text.isHexDigit c = true) : c.toNat ≤ 0x7F := by
  simp only [Text.isHexDigit, Char.isDigit, Bool.or_eq_true, Bool.and_eq_true, decide_eq_true_eq,
    ge_iff_le, Char.le_def, UInt32.le_iff_toNat_le] at h
  have hdigit : ∀ d : Char, c.val.toNat ≤ d.val.toNat → d.toNat ≤ 0x7F → c.toNat ≤ 0x7F :=
    fun d hle hd => Nat.le_trans hle hd
  rcases h with (⟨-, h⟩ | ⟨-, h⟩) | ⟨-, h⟩
  · exact hdigit '9' h (by decide)
  · exact hdigit 'f' h (by decide)
  · exact hdigit 'F' h (by decide)

theorem endsKey_of_isHexDigit {c : Char} (h : Text.isHexDigit c = true) : endsKey c = false := by
  have hne : ∀ d, Text.isHexDigit d = false → c ≠ d := fun d hd => isHexDigit_ne h hd
  simp [endsKey, isSign, isBlank, hne '=' (by decide), hne ':' (by decide), hne ' ' (by decide),
    hne '\t' (by decide), hne '\x0c' (by decide)]

theorem UnitEscapes.whole {us : List UInt16} {v : Text} (h : UnitEscapes us v)
    (hp : ∀ c, Text.isHexDigit c = true → p c) : Whole p v := by
  induction h with
  | nil => exact .nil
  | @cons u us a b c d w hhex _ _ ih =>
      have hdigit : ∀ e ∈ [a, b, c, d], e ≠ '\\' ∧ p e := by
        intro e he
        have hex := List.all_eq_true.mp hhex e he
        exact ⟨isHexDigit_ne hex (by decide), hp e hex⟩
      obtain ⟨ha, hpa⟩ := hdigit a (by simp)
      obtain ⟨hb, hpb⟩ := hdigit b (by simp)
      obtain ⟨hc, hpc⟩ := hdigit c (by simp)
      obtain ⟨hd, hpd⟩ := hdigit d (by simp)
      exact .pair 'u' (.plain ha hpa (.plain hb hpb (.plain hc hpc (.plain hd hpd ih))))

/-- A spelling holds whole escapes and characters that are not special. -/
theorem Spells.whole (h : Spells side t w)
    (hp : ∀ c, c ∉ specials side ∨ Text.isHexDigit c = true → p c) : Whole p w := by
  induction h with
  | nil => exact .nil
  | escape _ _ ih => exact .pair _ ih
  | @raw c t w hc _ ih =>
      refine .plain ?_ (hp c (.inl hc)) ih
      rintro rfl
      exact hc (specials_value_subset side (by decide))
  | units _ hv _ ih => exact (hv.whole fun c hc => hp c (.inr hc)).append ih

theorem Whole.foldl_escapes (h : Whole p w) : w.foldl escapes false = false := by
  induction h with
  | nil => rfl
  | pair c _ ih =>
      have hpair : escapes (escapes false '\\') c = false := by simp [escapes]
      rw [List.foldl_cons, List.foldl_cons, hpair, ih]
  | plain hc _ _ ih => rw [List.foldl_cons, escapes_of_ne hc, ih]

/-- A key ends behind whole escapes and characters that do not end it. -/
theorem cutKey_whole (h : Whole (fun c => endsKey c = false) w) (t : Text) :
    cutKey false (w ++ t) = (w ++ (cutKey false t).1, (cutKey false t).2) := by
  induction h with
  | nil => rfl
  | pair c _ ih =>
      have hpair : ∀ u, cutKey false ('\\' :: c :: u) =
          ('\\' :: c :: (cutKey false u).1, (cutKey false u).2) := by
        intro u
        by_cases hc : c = '\\' <;> simp [cutKey, hc]
      rw [List.cons_append, List.cons_append, hpair, ih]
      rfl
  | @plain c w hc hp _ ih =>
      have hplain : ∀ u, cutKey false (c :: u) = (c :: (cutKey false u).1, (cutKey false u).2) := by
        intro u
        simp [cutKey, hc, hp]
      rw [List.cons_append, hplain, ih]
      rfl

theorem cutKey_of_endsKey {c : Char} (h : endsKey c = true) (t : Text) :
    cutKey false (c :: t) = ([], c :: t) := by
  have hc : c ≠ '\\' := by
    rintro rfl
    exact absurd h (by decide)
  simp [cutKey, hc, h]

end ResourceBundles.Properties
