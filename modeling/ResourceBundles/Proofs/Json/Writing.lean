import ResourceBundles.Json.Basic
import ResourceBundles.Json.Scalar
import ResourceBundles.Proofs.Text.Units
import Mathlib

/-!
# Written JSON

What is written for a JSON value can be read in one way only.  The reader of strings gives
back every string that was written, and values of different forms start differently, so that
a value is told by the text in front of any rest.
-/

namespace ResourceBundles.Json

variable {level : Nat} {r s : Text} {j k : Json}

/-! ## Strings -/

theorem twoHexDigits_spec : ∀ n < 0x20, (twoHexDigits n).length = 2 ∧
    (twoHexDigits n).all Text.isHexDigit ∧ Text.ofHexDigits ('0' :: '0' :: twoHexDigits n) = n := by
  decide

theorem readUnit_control {n : Nat} (hn : n < 0x20) (p : Position) (t : Text) :
    ∃ p', readUnit ⟨p, '0' :: '0' :: twoHexDigits n ++ t⟩ = .ok (UInt16.ofNat n, ⟨p', t⟩) := by
  obtain ⟨hlength, hall, hvalue⟩ := twoHexDigits_spec n hn
  obtain ⟨a, b, hab⟩ := List.length_eq_two.mp hlength
  rw [hab] at hall hvalue ⊢
  have hlong : ¬Text.utf8Length ('0' :: '0' :: a :: b :: t) < 4 := by
    have ha := a.utf8Size_pos
    have hb := b.utf8Size_pos
    simp only [Text.utf8Length_cons, show ('0' : Char).utf8Size = 1 from rfl]
    omega
  have hdigits : ['0', '0', a, b].all Text.isHexDigit = true := by
    simpa [show Text.isHexDigit '0' = true from rfl] using hall
  simp only [List.cons_append, List.nil_append]
  rw [readUnit, if_neg hlong]
  simp only [hdigits, if_true, hvalue]
  exact ⟨_, rfl⟩

/-- A control character is read from the one unit that it is written as. -/
theorem readUnits_control {c : Char} (hc : c.toNat < 0x20) (p : Position) (t : Text) :
    ∃ p', readUnits ⟨p, '0' :: '0' :: twoHexDigits c.toNat ++ t⟩ = .ok (c, ⟨p', t⟩) := by
  have hunit : c.toNat < 0x10000 := by omega
  obtain ⟨p', hread⟩ := readUnit_control hc p t
  obtain ⟨hhigh, hlow⟩ := Utf16.isHalf_ofNat hunit
  refine ⟨p', ?_⟩
  rw [readUnits]
  simp only [hread, bind, Except.bind, hlow, hhigh, Bool.false_eq_true, if_false, Utf16.ofUnit,
    Bool.or_self, Utf16.toNat_ofNat hunit, Char.ofNat_toNat]
  rfl

theorem readCharsFrom_escapeChar (fuel : Nat) (p : Position) (c : Char) (t : Text) :
    ∃ p', readCharsFrom (fuel + 1) ⟨p, escapeChar c ++ t⟩ = (do
      let (cs, k) ← readCharsFrom fuel ⟨p', t⟩
      return (c :: cs, k)) := by
  unfold escapeChar
  split
  · exact ⟨_, rfl⟩
  · exact ⟨_, rfl⟩
  · exact ⟨_, rfl⟩
  · exact ⟨_, rfl⟩
  · exact ⟨_, rfl⟩
  · exact ⟨_, rfl⟩
  · exact ⟨_, rfl⟩
  · split
    · rename_i hc
      obtain ⟨p', hread⟩ := readUnits_control hc ((p.after '\\').after 'u') t
      have htext : ("\\u00" : Text) ++ twoHexDigits c.toNat ++ t =
          '\\' :: 'u' :: ('0' :: '0' :: twoHexDigits c.toNat ++ t) := by simp
      refine ⟨p', ?_⟩
      rw [htext]
      change (readUnits ⟨(p.after '\\').after 'u', _⟩ >>= _) = _
      rw [hread]
      rfl
    · rename_i hc
      refine ⟨p.after c, ?_⟩
      simp [readCharsFrom, Cursor.next?, hc]

/-- Reading a written string gives it back, together with the rest. -/
theorem readCharsFrom_flatMap {fuel : Nat} {t : Text} (h : t.length < fuel) (p : Position)
    (r : Text) :
    ∃ p', readCharsFrom fuel ⟨p, t.flatMap escapeChar ++ '"' :: r⟩ = .ok (t, ⟨p', r⟩) := by
  induction t generalizing fuel p with
  | nil =>
      obtain ⟨fuel, rfl⟩ := Nat.exists_eq_add_of_lt h
      exact ⟨_, rfl⟩
  | cons c t ih =>
      obtain ⟨fuel, rfl⟩ := Nat.exists_eq_add_one_of_ne_zero (Nat.ne_zero_of_lt h)
      obtain ⟨p', hstep⟩ :=
        readCharsFrom_escapeChar fuel p c (t.flatMap escapeChar ++ '"' :: r)
      obtain ⟨p'', hrest⟩ := ih (Nat.lt_of_succ_lt_succ h) p'
      refine ⟨p'', ?_⟩
      rw [List.flatMap_cons, List.append_assoc, hstep, hrest]
      rfl

theorem encodeString_append_inj {t u r s : Text}
    (h : encodeString t ++ r = encodeString u ++ s) : t = u ∧ r = s := by
  have hbody : t.flatMap escapeChar ++ '"' :: r = u.flatMap escapeChar ++ '"' :: s := by
    simpa [encodeString] using h
  have ht : t.length < t.length + u.length + 1 := by omega
  have hu : u.length < t.length + u.length + 1 := by omega
  obtain ⟨p, hread⟩ := readCharsFrom_flatMap ht ⟨1, 0⟩ r
  obtain ⟨q, hread'⟩ := readCharsFrom_flatMap hu ⟨1, 0⟩ s
  rw [hbody, hread', Except.ok.injEq, Prod.mk.injEq, Cursor.mk.injEq] at hread
  exact ⟨hread.1.symm, hread.2.2.symm⟩

/-! ## Values -/

/-- The character that the text of a value starts with. -/
def lead : Json → Char
  | null => 'n'
  | bool value => if value then 't' else 'f'
  | string _ => '"'
  | array _ => '['
  | object _ => '\x7b'

theorem head?_pretty_append (level : Nat) (j : Json) (r : Text) :
    (pretty level j ++ r).head? = some j.lead := by
  cases j with
  | null => simp [pretty, lead]
  | bool value => cases value <;> simp [pretty, lead]
  | string value => simp [pretty, encodeString, lead]
  | array items => cases items <;> simp [pretty, lead]
  | object members => cases members <;> simp [pretty, lead]

/-- Values of one form; words have no parts in which they could differ. -/
inductive SameForm : Json → Json → Prop
  | null : SameForm null null
  | bool (value : Bool) : SameForm (bool value) (bool value)
  | string (t u : Text) : SameForm (string t) (string u)
  | array (items items' : List Json) : SameForm (array items) (array items')
  | object (members members' : List (Text × Json)) : SameForm (object members) (object members')

theorem sameForm_of_append (h : pretty level j ++ r = pretty level k ++ s) : SameForm j k := by
  have hlead : j.lead = k.lead := by
    have hhead := congrArg List.head? h
    rwa [head?_pretty_append, head?_pretty_append, Option.some.injEq] at hhead
  rcases j with _ | (_ | _) | _ | _ | _ <;> rcases k with _ | (_ | _) | _ | _ | _ <;>
    simp [lead] at hlead <;> constructor

theorem pretty_array_append (level : Nat) (item : Json) (items : List Json) (r : Text) :
    pretty level (.array (item :: items)) ++ r =
      '[' :: (newLine (level + 1) ++ (pretty (level + 1) item ++
        (prettyItems (level + 1) items ++ (newLine level ++ ']' :: r)))) := by
  simp [pretty]

theorem pretty_object_append (level : Nat) (key : Text) (value : Json)
    (members : List (Text × Json)) (r : Text) :
    pretty level (.object ((key, value) :: members)) ++ r =
      '\x7b' :: (newLine (level + 1) ++ (encodeString key ++ (": ".toList ++
        (pretty (level + 1) value ++
          (prettyMembers (level + 1) members ++ (newLine level ++ '\x7d' :: r)))))) := by
  simp [pretty]

mutual

/-- The text of a value, in front of any rest, determines the value. -/
theorem pretty_append_inj {level : Nat} {r s : Text} : ∀ {j k : Json},
    pretty level j ++ r = pretty level k ++ s → j = k ∧ r = s
  | .null, k, h => by
      cases sameForm_of_append h with
      | null => exact ⟨rfl, List.append_cancel_left h⟩
  | .bool value, k, h => by
      cases sameForm_of_append h with
      | bool => exact ⟨rfl, List.append_cancel_left h⟩
  | .string t, k, h => by
      cases sameForm_of_append h with
      | string _ u =>
          rw [pretty, pretty] at h
          obtain ⟨rfl, hrest⟩ := encodeString_append_inj h
          exact ⟨rfl, hrest⟩
  | .array [], k, h => by
      cases sameForm_of_append h with
      | array _ items' =>
          cases items' with
          | nil => exact ⟨rfl, List.append_cancel_left h⟩
          | cons item' items' => simp [pretty, newLine] at h
  | .array (item :: items), k, h => by
      cases sameForm_of_append h with
      | array _ items' =>
          cases items' with
          | nil => simp [pretty, newLine] at h
          | cons item' items' =>
              rw [pretty_array_append, pretty_array_append] at h
              obtain ⟨rfl, hitems⟩ :=
                pretty_append_inj (List.append_cancel_left (List.cons.inj h).2)
              obtain ⟨rfl, hrest⟩ := prettyItems_append_inj hitems
              exact ⟨rfl, hrest⟩
  | .object [], k, h => by
      cases sameForm_of_append h with
      | object _ members' =>
          cases members' with
          | nil => exact ⟨rfl, List.append_cancel_left h⟩
          | cons member' members' => simp [pretty, newLine] at h
  | .object ((key, value) :: members), k, h => by
      cases sameForm_of_append h with
      | object _ members' =>
          cases members' with
          | nil => simp [pretty, newLine] at h
          | cons member' members' =>
              obtain ⟨key', value'⟩ := member'
              rw [pretty_object_append, pretty_object_append] at h
              obtain ⟨rfl, hvalue⟩ :=
                encodeString_append_inj (List.append_cancel_left (List.cons.inj h).2)
              obtain ⟨rfl, hmembers⟩ := pretty_append_inj (List.append_cancel_left hvalue)
              obtain ⟨rfl, hrest⟩ := prettyMembers_append_inj hmembers
              exact ⟨rfl, hrest⟩

/-- A comma goes on and a line end closes, so that it is seen where the items end. -/
theorem prettyItems_append_inj {level outer : Nat} {c : Char} {r s : Text} :
    ∀ {items items' : List Json},
      prettyItems level items ++ (newLine outer ++ c :: r) =
          prettyItems level items' ++ (newLine outer ++ c :: s) →
        items = items' ∧ r = s
  | [], [], h => ⟨rfl, by simpa [prettyItems] using h⟩
  | [], _ :: _, h => by simp [prettyItems, newLine] at h
  | _ :: _, [], h => by simp [prettyItems, newLine] at h
  | item :: items, item' :: items', h => by
      simp only [prettyItems, List.append_assoc] at h
      obtain ⟨rfl, hitems⟩ :=
        pretty_append_inj (List.append_cancel_left (List.append_cancel_left h))
      obtain ⟨rfl, hrest⟩ := prettyItems_append_inj hitems
      exact ⟨rfl, hrest⟩

theorem prettyMembers_append_inj {level outer : Nat} {c : Char} {r s : Text} :
    ∀ {members members' : List (Text × Json)},
      prettyMembers level members ++ (newLine outer ++ c :: r) =
          prettyMembers level members' ++ (newLine outer ++ c :: s) →
        members = members' ∧ r = s
  | [], [], h => ⟨rfl, by simpa [prettyMembers] using h⟩
  | [], _ :: _, h => by simp [prettyMembers, newLine] at h
  | _ :: _, [], h => by simp [prettyMembers, newLine] at h
  | (key, value) :: members, (key', value') :: members', h => by
      simp only [prettyMembers, List.append_assoc] at h
      obtain ⟨rfl, hvalue⟩ :=
        encodeString_append_inj (List.append_cancel_left (List.append_cancel_left h))
      obtain ⟨rfl, hmembers⟩ := pretty_append_inj (List.append_cancel_left hvalue)
      obtain ⟨rfl, hrest⟩ := prettyMembers_append_inj hmembers
      exact ⟨rfl, hrest⟩

end

/-- No two values have the same text. -/
theorem render_injective : Function.Injective render := by
  intro j k h
  have happend : pretty 0 j ++ [] = pretty 0 k ++ [] := congrArg (· ++ []) h
  exact (pretty_append_inj happend).1

end ResourceBundles.Json
