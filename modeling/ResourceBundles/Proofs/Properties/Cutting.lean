import ResourceBundles.Proofs.Properties.Splitting

/-!
# Escapes on both sides of a cut

Consecutive escapes of units are decoded together.  Everywhere else a text can be cut between its
escapes and resolved part by part, so that the halves of a pair join only if nothing stands
between them.
-/

namespace ResourceBundles.Properties

variable {us : List UInt16} {x y : UInt16} {t u v w high low r : Text}

/-- A cut of a text through no escape and between no two escapes of units. -/
structure CutsApart (t u : Text) : Prop where
  noEscape : CutsNoEscape t u
  noUnits : ¬(EndsWithUnit t ∧ BeginsWithUnit u)

theorem unescape_units (h : UnitEscapes us v) : unescape v = .ok (Utf16.decode us) := by
  have hunits := unescapeFrom_units h [] []
  rwa [List.append_nil, List.nil_append, unescapeFrom] at hunits

theorem unescape_half (h : UnitEscapes [x] v) (hx : Utf16.isHalf x = true) :
    unescape v = .ok ['\uFFFD'] := by
  rw [unescape_units h, Utf16.decode, Utf16.ofUnit_of_isHalf hx]

theorem CutsApart.unescape_append (h : CutsApart t u) (r : Text) :
    unescape (t ++ u) = .ok r ↔ ∃ a b, unescape t = .ok a ∧ unescape u = .ok b ∧ r = a ++ b := by
  refine unescapeFrom_append_of_apart [] h.noEscape (fun hu => ?_) r
  exact ⟨fun ht => h.noUnits ⟨ht, hu⟩, fun _ => rfl⟩

/-- The halves of a pair stay apart if something stands between them. -/
theorem unescape_halves (hx : Utf16.isHigh x = true) (hy : Utf16.isLow y = true)
    (hhigh : UnitEscapes [x] high) (hlow : UnitEscapes [y] low) (hfront : CutsApart high (w ++ low))
    (hback : CutsApart w low) (r : Text) :
    unescape (high ++ (w ++ low)) = .ok r ↔
      ∃ s, unescape w = .ok s ∧ r = '\uFFFD' :: (s ++ ['\uFFFD']) := by
  have hfirst := unescape_half hhigh (by rw [Utf16.isHalf, hx, Bool.true_or])
  have hlast := unescape_half hlow (by rw [Utf16.isHalf, hy, Bool.or_true])
  rw [hfront.unescape_append]
  simp only [hback.unescape_append, hfirst, hlast]
  constructor
  · rintro ⟨_, _, ha, ⟨s, _, hs, hb, rfl⟩, rfl⟩
    obtain rfl := Except.ok.inj ha
    obtain rfl := Except.ok.inj hb
    exact ⟨s, hs, rfl⟩
  · rintro ⟨s, hs, rfl⟩
    exact ⟨_, _, rfl, ⟨s, _, hs, rfl, rfl⟩, rfl⟩

/-- Consecutive escapes of units are resolved to the characters that the units stand for.  A text
that is cut elsewhere, and through no escape, can be resolved if and only if both parts can, and
then to the results of both; so the halves of a pair never join over anything between them. -/
theorem unescape_units_and_cuts :
    (∀ us v, UnitEscapes us v →
        ∃ r, unescape v = .ok r ∧ ∀ s, Utf16.Decodes us s ↔ s = r) ∧
      (∀ t u, CutsApart t u → ∀ r, unescape (t ++ u) = .ok r ↔
        ∃ a b, unescape t = .ok a ∧ unescape u = .ok b ∧ r = a ++ b) ∧
      ∀ x y high w low, Utf16.isHigh x = true → Utf16.isLow y = true →
        UnitEscapes [x] high → UnitEscapes [y] low →
        CutsApart high (w ++ low) → CutsApart w low → ∀ r,
          unescape (high ++ (w ++ low)) = .ok r ↔
            ∃ s, unescape w = .ok s ∧ r = '\uFFFD' :: (s ++ ['\uFFFD']) := by
  refine ⟨fun us v h => ?_, fun t u h => h.unescape_append, ?_⟩
  · exact ⟨Utf16.decode us, unescape_units h, fun s => Utf16.decodes_iff⟩
  · intro x y high w low hx hy hhigh hlow hfront hback
    exact unescape_halves hx hy hhigh hlow hfront hback

/-- A pair, the half of one and a letter, and a pair around a backslash that escapes the one in
front of a `u`. -/
theorem unescape_units_and_cuts_doubled :
    let us : List UInt16 := [0xD83D, 0xDE00, 0xDC00, 0x41]
    let v : Text := "\\uD83D\\uDe00\\udc00\\u0041"
    let high : Text := "\\uD83D"
    let w : Text := "\\\\u0041"
    let low : Text := "\\uDE00"
    (UnitEscapes us v ∧ unescape v = .ok ("😀\uFFFDA" : Text)) ∧
      (CutsApart w low ∧ unescape (w ++ low) = .ok ("\\u0041\uFFFD" : Text)) ∧
      CutsApart high (w ++ low) ∧
      unescape (high ++ (w ++ low)) = .ok ("\uFFFD\\u0041\uFFFD" : Text) := by
  intro us v high w low
  obtain ⟨hunits, hparts, hhalves⟩ := unescape_units_and_cuts
  have hv : UnitEscapes us v :=
    .cons (by decide) (by decide) <| .cons (by decide) (by decide) <|
      .cons (by decide) (by decide) <| .cons (by decide) (by decide) .nil
  have hdecodes : Utf16.Decodes us ("😀\uFFFDA" : Text) :=
    .pair (by decide) (by decide) (by decide) <|
      .half (by decide) (fun _ _ hpair => absurd hpair.1 (by decide)) <|
        .plain (by decide) (by decide) .nil
  have hhigh : UnitEscapes [0xD83D] high := .cons (by decide) (by decide) .nil
  have hlow : UnitEscapes [0xDE00] low := .cons (by decide) (by decide) .nil
  have hfront : CutsApart high (w ++ low) := by
    refine ⟨cutsNoEscape_backslash (by decide) _, ?_⟩
    rintro ⟨-, digits, hbegin, -⟩
    simp [w] at hbegin
  have hback : CutsApart w low := by
    refine ⟨cutsNoEscape_backslash (by decide) _, ?_⟩
    rintro ⟨⟨before, digits, hend, heven, hlength, -⟩, -⟩
    have hsplit : ['\\'] ++ ("\\u0041" : Text) = before ++ '\\' :: 'u' :: digits := hend
    obtain ⟨rfl, -⟩ := List.append_inj' hsplit (by simp [hlength])
    exact absurd heven (by decide)
  obtain ⟨r, hr, hreads⟩ := hunits us v hv
  have hw : unescape w = .ok ("\\u0041" : Text) := by decide
  refine ⟨⟨hv, hr.trans (congrArg _ ((hreads _).mp hdecodes).symm)⟩, ⟨hback, ?_⟩, hfront, ?_⟩
  · exact (hparts _ _ hback _).mpr ⟨_, ("\uFFFD" : Text), hw, by decide, rfl⟩
  · exact (hhalves _ _ _ _ _ (by decide) (by decide) hhigh hlow hfront hback _).mpr ⟨_, hw, rfl⟩

end ResourceBundles.Properties
