import ResourceBundles.Text.Units

/-!
# Decoding UTF-16 units

The units of a text decode to the text.  No unit of a character can be taken for
the first half of a pair by mistake, so characters are decoded one by one.
-/

namespace ResourceBundles.Utf16

theorem isHigh_iff {u : UInt16} : isHigh u = true ↔ 0xD800 ≤ u.toNat ∧ u.toNat < 0xDC00 := by
  simp [isHigh, UInt16.le_iff_toNat_le, UInt16.lt_iff_toNat_lt]

theorem isLow_iff {u : UInt16} : isLow u = true ↔ 0xDC00 ≤ u.toNat ∧ u.toNat < 0xE000 := by
  simp [isLow, UInt16.le_iff_toNat_le, UInt16.lt_iff_toNat_lt]

theorem toNat_ofNat {n : Nat} (h : n < 0x10000) : (UInt16.ofNat n).toNat = n := by
  rw [UInt16.toNat_ofNat']
  exact Nat.mod_eq_of_lt h

theorem toNat_charOfNat {n : Nat} (h : n.isValidChar) : (Char.ofNat n).toNat = n := by
  rw [Char.ofNat, dif_pos h]
  rfl

theorem char_range (c : Char) : c.toNat < 0xD800 ∨ 0xE000 ≤ c.toNat ∧ c.toNat < 0x110000 := by
  have h := c.valid
  rcases h with h | h
  · exact .inl h
  · exact .inr ⟨h.1, h.2⟩

/-- A unit that starts no pair is decoded alone. -/
theorem decode_cons_of_not_pair {u : UInt16} {us : List UInt16}
    (h : ∀ v ∈ us.head?, ¬(isHigh u = true ∧ isLow v = true)) :
    decode (u :: us) = ofUnit u :: decode us := by
  cases us with
  | nil => rfl
  | cons v us =>
      have hpair : ¬(isHigh u && isLow v) = true := by
        rw [Bool.and_eq_true]
        exact h v rfl
      rw [decode, if_neg hpair]

theorem decode_cons {u : UInt16} (h : isHigh u = false) (us : List UInt16) :
    decode (u :: us) = ofUnit u :: decode us := by
  refine decode_cons_of_not_pair fun v _ hpair => ?_
  rw [h] at hpair
  exact Bool.noConfusion hpair.1

theorem decode_pair {u v : UInt16} (hu : isHigh u = true) (hv : isLow v = true)
    (us : List UInt16) : decode (u :: v :: us) = ofPair u v :: decode us := by
  simp [decode, hu, hv]

/-- A character of one unit is no half of a pair. -/
theorem isHalf_ofNat {c : Char} (hc : c.toNat < 0x10000) :
    isHigh (UInt16.ofNat c.toNat) = false ∧ isLow (UInt16.ofNat c.toNat) = false := by
  have hrange := char_range c
  constructor
  · rw [← Bool.not_eq_true, isHigh_iff, toNat_ofNat hc]
    omega
  · rw [← Bool.not_eq_true, isLow_iff, toNat_ofNat hc]
    omega

/-- The units of a character decode to it, whatever follows. -/
theorem decode_units_append (c : Char) (us : List UInt16) :
    decode (units c ++ us) = c :: decode us := by
  have hrange := char_range c
  by_cases hc : c.toNat < 0x10000
  · have hu := toNat_ofNat hc
    obtain ⟨hhigh, hlow⟩ := isHalf_ofNat hc
    rw [units, if_pos hc, List.singleton_append, decode_cons hhigh, ofUnit, hhigh, hlow, hu]
    simp
  · have hu : (UInt16.ofNat (0xD800 + (c.toNat - 0x10000) / 0x400)).toNat =
        0xD800 + (c.toNat - 0x10000) / 0x400 := toNat_ofNat (by omega)
    have hv : (UInt16.ofNat (0xDC00 + (c.toNat - 0x10000) % 0x400)).toNat =
        0xDC00 + (c.toNat - 0x10000) % 0x400 := toNat_ofNat (by omega)
    have hpair : 0x10000 + (0xD800 + (c.toNat - 0x10000) / 0x400 - 0xD800) * 0x400 +
        (0xDC00 + (c.toNat - 0x10000) % 0x400 - 0xDC00) = c.toNat := by
      omega
    rw [units, if_neg hc, List.cons_append, List.singleton_append,
      decode_pair (isHigh_iff.mpr (by omega)) (isLow_iff.mpr (by omega)), ofPair, hu, hv, hpair]
    simp

theorem units_ne_nil (c : Char) : units c ≠ [] := by
  rw [units]
  split <;> simp

theorem isLow_head_units (c : Char) : ∀ u ∈ (units c).head?, isLow u = false := by
  have hrange := char_range c
  intro u hu
  by_cases hc : c.toNat < 0x10000
  · obtain rfl : UInt16.ofNat c.toNat = u := by simpa [units, hc] using hu
    exact (isHalf_ofNat hc).2
  · obtain rfl : UInt16.ofNat (0xD800 + (c.toNat - 0x10000) / 0x400) = u := by
      simpa [units, hc] using hu
    rw [← Bool.not_eq_true, isLow_iff, toNat_ofNat (by omega)]
    omega

/-- Units are decoded apart where the second part does not start with half a pair. -/
theorem decode_append {vs : List UInt16} (h : ∀ v ∈ vs.head?, isLow v = false)
    (us : List UInt16) : decode (us ++ vs) = decode us ++ decode vs := by
  fun_induction decode us with
  | case1 => rfl
  | case2 u =>
      cases vs with
      | nil => rfl
      | cons v vs => simp [decode, h v rfl]
  | case3 u v us hpair ih => simpa [decode, hpair] using ih
  | case4 u v us hpair ih => simpa [decode, hpair] using ih

theorem decode_append_units (us : List UInt16) (c : Char) (vs : List UInt16) :
    decode (us ++ (units c ++ vs)) = decode us ++ c :: decode vs := by
  have hhead : ∀ v ∈ (units c ++ vs).head?, isLow v = false := by
    intro v hv
    apply isLow_head_units c
    cases hunits : units c with
    | nil => exact absurd hunits (units_ne_nil c)
    | cons u us => simpa [hunits] using hv
  rw [decode_append hhead, decode_units_append]

theorem decode_encode (t : Text) : decode (encode t) = t := by
  induction t with
  | nil => rfl
  | cons c t ih =>
      have hcons : encode (c :: t) = units c ++ encode t := List.flatMap_cons
      rw [hcons, decode_units_append, ih]

theorem encode_concat (t : Text) (c : Char) : encode (t ++ [c]) = encode t ++ units c := by
  rw [encode, List.flatMap_append, List.flatMap_singleton, encode]

/-! ## Units that are no text -/

def isHalf (u : UInt16) : Bool := isHigh u || isLow u

/-- How characters are read from any units.  A high surrogate and the low one right behind it are
the units of one character, any other surrogate gives `U+FFFD`, and any other unit is the only
one of its character. -/
inductive Decodes : List UInt16 → Text → Prop
  | nil : Decodes [] []
  | pair {u v : UInt16} {c : Char} {us : List UInt16} {t : Text} (hu : isHigh u = true)
      (hv : isLow v = true) (hc : units c = [u, v]) (h : Decodes us t) :
      Decodes (u :: v :: us) (c :: t)
  | half {u : UInt16} {us : List UInt16} {t : Text} (hu : isHalf u = true)
      (hpair : ∀ v ∈ us.head?, ¬(isHigh u = true ∧ isLow v = true)) (h : Decodes us t) :
      Decodes (u :: us) ('\uFFFD' :: t)
  | plain {u : UInt16} {c : Char} {us : List UInt16} {t : Text} (hu : isHalf u = false)
      (hc : units c = [u]) (h : Decodes us t) : Decodes (u :: us) (c :: t)

theorem units_ofPair {u v : UInt16} (hu : isHigh u = true) (hv : isLow v = true) :
    units (ofPair u v) = [u, v] := by
  rw [isHigh_iff] at hu
  rw [isLow_iff] at hv
  have hn : (ofPair u v).toNat = 0x10000 + (u.toNat - 0xD800) * 0x400 + (v.toNat - 0xDC00) :=
    toNat_charOfNat (.inr (by omega))
  have hhigh : 0xD800 + ((ofPair u v).toNat - 0x10000) / 0x400 = u.toNat := by omega
  have hlow : 0xDC00 + ((ofPair u v).toNat - 0x10000) % 0x400 = v.toNat := by omega
  rw [units, if_neg (by omega), hhigh, hlow, UInt16.ofNat_toNat, UInt16.ofNat_toNat]

theorem ofUnit_of_isHalf {u : UInt16} (h : isHalf u = true) : ofUnit u = '\uFFFD' := if_pos h

theorem units_ofUnit {u : UInt16} (h : isHalf u = false) : units (ofUnit u) = [u] := by
  have hunit : ofUnit u = Char.ofNat u.toNat := if_neg (Bool.eq_false_iff.mp h)
  rw [isHalf, Bool.or_eq_false_iff, ← Bool.not_eq_true, ← Bool.not_eq_true, isHigh_iff,
    isLow_iff] at h
  have hlt := u.toNat_lt
  have hn : (Char.ofNat u.toNat).toNat = u.toNat := by
    apply toNat_charOfNat
    rw [Nat.isValidChar]
    omega
  rw [hunit, units, hn, if_pos hlt, UInt16.ofNat_toNat]

theorem decodes_cons {u : UInt16} {us : List UInt16} {t : Text}
    (hpair : ∀ v ∈ us.head?, ¬(isHigh u = true ∧ isLow v = true)) (h : Decodes us t) :
    Decodes (u :: us) (ofUnit u :: t) := by
  cases hu : isHalf u with
  | false => exact .plain hu (units_ofUnit hu) h
  | true =>
      rw [ofUnit_of_isHalf hu]
      exact .half hu hpair h

/-- Units are read as characters in one way only, by induction over both readings. -/
theorem decodes_iff {us : List UInt16} {t : Text} : Decodes us t ↔ t = decode us := by
  constructor
  · intro h
    induction h with
    | nil => rfl
    | @pair u v c us t _ _ hc _ ih =>
        have hunits := decode_units_append c us
        rw [hc] at hunits
        rw [ih, ← hunits]
        rfl
    | half hu hpair _ ih => rw [decode_cons_of_not_pair hpair, ofUnit_of_isHalf hu, ih]
    | @plain u c us t _ hc _ ih =>
        have hunits := decode_units_append c us
        rw [hc] at hunits
        rw [ih, ← hunits]
        rfl
  · rintro rfl
    fun_induction decode us with
    | case1 => exact .nil
    | case2 u => exact decodes_cons (by simp) .nil
    | case3 u v us hpair ih =>
        obtain ⟨hu, hv⟩ := Bool.and_eq_true_iff.mp hpair
        exact .pair hu hv (units_ofPair hu hv) ih
    | case4 u v us hpair ih =>
        refine decodes_cons ?_ ih
        rw [Bool.and_eq_true] at hpair
        simpa using hpair

end ResourceBundles.Utf16
