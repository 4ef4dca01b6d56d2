import ResourceBundles.Proofs.Properties.Layout

/-!
# Keys, separators and values

A line is its key, a separator and its value.  The key is as long as it can be without a sign
or a blank that no backslash escapes, and then the separator is as long as it can be.  No
escape reaches from the key into the value, so that both can be resolved apart.
-/

namespace ResourceBundles.Properties

variable {t u w p k esc before after : Text} {c : Char} {escaped : Bool}

/-! ## Keys -/

/-- Every sign and every blank of a text stands behind an odd number of backslashes. -/
def EndsEscaped (t : Text) : Prop :=
  ∀ before c after, t = before ++ c :: after → endsKey c = true →
    Odd (trailingBackslashes before)

/-- The same of a text whose first character a backslash in front of it may escape. -/
def EndsEscapedFrom (escaped : Bool) (t : Text) : Prop :=
  ∀ before c after, t = before ++ c :: after → endsKey c = true →
    before.foldl escapes escaped = true

theorem endsEscaped_iff : EndsEscaped t ↔ EndsEscapedFrom false t := by
  simp only [EndsEscaped, EndsEscapedFrom, ← isContinued_iff, isContinued_eq_foldl]

theorem endsEscapedFrom_nil : EndsEscapedFrom escaped [] := fun before c after h => by simp at h

theorem endsEscapedFrom_cons : EndsEscapedFrom escaped (c :: t) ↔
    (endsKey c = true → escaped = true) ∧ EndsEscapedFrom (escapes escaped c) t := by
  constructor
  · intro h
    refine ⟨h [] c t rfl, ?_⟩
    rintro before d after rfl hd
    exact h (c :: before) d after rfl hd
  · rintro ⟨hc, ht⟩ before d after hsplit hd
    cases before with
    | nil =>
        obtain ⟨rfl, -⟩ := List.cons.inj hsplit
        exact hc hd
    | cons e before =>
        obtain ⟨rfl, hrest⟩ := List.cons.inj hsplit
        exact ht before d after hrest hd

theorem cutKey_step (hc : endsKey c = true → escaped = true) (t : Text) :
    cutKey escaped (c :: t) =
      (c :: (cutKey (escapes escaped c) t).1, (cutKey (escapes escaped c) t).2) := by
  by_cases hb : c = '\\'
  · simp [cutKey, escapes, hb]
  · have hends : (!escaped && endsKey c) = false := by
      cases escaped <;> simp_all
    simp [cutKey, escapes_of_ne hb, hb, hends]

/-- The key of a line is its longest front whose signs and blanks are escaped, and an unescaped
sign or blank follows it if anything does. -/
theorem cutKey_spec (escaped : Bool) (t : Text) :
    EndsEscapedFrom escaped (cutKey escaped t).1 ∧
      (∀ p, p <+: t → EndsEscapedFrom escaped p → p <+: (cutKey escaped t).1) ∧
      ∀ c, (cutKey escaped t).2.head? = some c →
        endsKey c = true ∧ (cutKey escaped t).1.foldl escapes escaped = false := by
  induction t generalizing escaped with
  | nil => exact ⟨endsEscapedFrom_nil, fun p hp _ => hp, by simp [cutKey]⟩
  | cons c t ih =>
      by_cases hc : endsKey c = true → escaped = true
      · obtain ⟨hkey, hlongest, hrest⟩ := ih (escapes escaped c)
        rw [cutKey_step hc]
        refine ⟨endsEscapedFrom_cons.mpr ⟨hc, hkey⟩, fun p hp hends => ?_, hrest⟩
        cases p with
        | nil => exact List.nil_prefix
        | cons d p =>
            obtain ⟨rfl, hpt⟩ := List.cons_prefix_cons.mp hp
            have htail := (endsEscapedFrom_cons.mp hends).2
            exact List.cons_prefix_cons.mpr ⟨rfl, hlongest p hpt htail⟩
      · obtain ⟨hends, hescaped⟩ := Classical.not_imp.mp hc
        obtain rfl : escaped = false := Bool.eq_false_iff.mpr hescaped
        rw [cutKey_of_endsKey hends]
        refine ⟨endsEscapedFrom_nil, fun p hp hfrom => ?_, ?_⟩
        · cases p with
          | nil => exact List.nil_prefix
          | cons d p =>
              obtain ⟨rfl, -⟩ := List.cons_prefix_cons.mp hp
              exact absurd ((endsEscapedFrom_cons.mp hfrom).1 hends) (by decide)
        · intro d hd
          obtain rfl := Option.some.inj hd
          exact ⟨hends, rfl⟩

/-! ## Separators -/

/-- Blanks, at most one sign, and blanks behind it. -/
inductive Separator : Text → Prop
  | blanks {b : Text} (hb : AllBlank b) : Separator b
  | sign {b b' : Text} {sign : Char} (hb : AllBlank b) (hs : isSign sign = true)
      (hb' : AllBlank b') : Separator (b ++ sign :: b')

theorem not_isBlank_of_isSign (h : isSign c = true) : isBlank c = false := by
  simp only [isSign, Bool.or_eq_true, beq_iff_eq] at h
  rcases h with rfl | rfl <;> rfl

theorem Separator.endsKey (h : Separator w) (hc : c ∈ w) : endsKey c = true := by
  have hblank : ∀ {b}, AllBlank b → c ∈ b → Properties.endsKey c = true := by
    intro b hb hcb
    simp [Properties.endsKey, hb c hcb]
  cases h with
  | blanks hb => exact hblank hb hc
  | sign hb hs hb' =>
      rcases List.mem_append.mp hc with hc | hc
      · exact hblank hb hc
      · rcases List.mem_cons.mp hc with rfl | hc
        · simp [Properties.endsKey, hs]
        · exact hblank hb' hc

theorem allBlank_takeWhile (t : Text) : AllBlank (t.takeWhile isBlank) :=
  fun _ hc => List.all_eq_true.mp List.all_takeWhile _ hc

theorem takeWhile_append_dropBlanks (t : Text) : t.takeWhile isBlank ++ dropBlanks t = t :=
  List.takeWhile_append_dropWhile

theorem prefix_takeWhile_of_allBlank (hp : p <+: t) (hb : AllBlank p) :
    p <+: t.takeWhile isBlank := by
  obtain ⟨rest, rfl⟩ := hp
  rw [List.takeWhile_append_of_pos hb]
  exact List.prefix_append p _

theorem head?_dropBlanks (hc : (dropBlanks t).head? = some c) : isBlank c = false := by
  have hnot := List.head?_dropWhile_not isBlank t
  rw [dropBlanks] at hc
  simpa [hc] using hnot

/-- A front with a sign behind its blanks reaches to the sign behind all blanks of the text. -/
theorem of_sign_prefix {b b' : Text} {sign : Char} (hb : AllBlank b) (hs : isSign sign = true)
    (hp : b ++ sign :: b' <+: t) :
    b = t.takeWhile isBlank ∧ ∃ rest, dropBlanks t = sign :: rest ∧ b' <+: rest := by
  obtain ⟨rest, rfl⟩ := hp
  have hsign : ¬isBlank sign = true := by simp [not_isBlank_of_isSign hs]
  have htail : (b ++ sign :: b') ++ rest = b ++ (sign :: (b' ++ rest)) := by simp
  rw [htail, dropBlanks_append hb, List.takeWhile_append_of_pos hb,
    List.takeWhile_cons_of_neg hsign, List.append_nil, dropBlanks,
    List.dropWhile_cons_of_neg hsign]
  exact ⟨rfl, b' ++ rest, rfl, List.prefix_append b' rest⟩

/-- What is dropped in front of a value is the longest separator there. -/
theorem exists_separator (t : Text) :
    ∃ w, t = w ++ dropSeparator t ∧ Separator w ∧ ∀ p, p <+: t → Separator p → p <+: w := by
  have hsplit := takeWhile_append_dropBlanks t
  have hblanks := allBlank_takeWhile t
  by_cases hsign : ∃ c rest, dropBlanks t = c :: rest ∧ isSign c = true
  · obtain ⟨c, rest, hdrop, hc⟩ := hsign
    refine ⟨t.takeWhile isBlank ++ c :: rest.takeWhile isBlank, ?_,
      .sign hblanks hc (allBlank_takeWhile rest), fun p hp hsep => ?_⟩
    · rw [dropSeparator, hdrop]
      simp only [hc, if_true]
      rw [List.append_assoc, List.cons_append, takeWhile_append_dropBlanks, ← hdrop, hsplit]
    · cases hsep with
      | blanks hb =>
          exact (prefix_takeWhile_of_allBlank hp hb).trans (List.prefix_append _ _)
      | sign hb hs hb' =>
          obtain ⟨rfl, rest', hdrop', hp'⟩ := of_sign_prefix hb hs hp
          obtain ⟨rfl, rfl⟩ := List.cons.inj (hdrop.symm.trans hdrop')
          apply (List.prefix_append_right_inj _).mpr
          exact List.cons_prefix_cons.mpr ⟨rfl, prefix_takeWhile_of_allBlank hp' hb'⟩
  · refine ⟨t.takeWhile isBlank, ?_, .blanks hblanks, fun p hp hsep => ?_⟩
    · have hkeep : dropSeparator t = dropBlanks t := by
        rw [dropSeparator]
        cases hdrop : dropBlanks t with
        | nil => rfl
        | cons c rest => simpa using fun hc => absurd ⟨c, rest, hdrop, hc⟩ hsign
      rw [hkeep, hsplit]
    · cases hsep with
      | blanks hb => exact prefix_takeWhile_of_allBlank hp hb
      | sign hb hs hb' =>
          obtain ⟨-, rest, hdrop, -⟩ := of_sign_prefix hb hs hp
          exact absurd ⟨_, rest, hdrop, hs⟩ hsign

theorem head?_dropSeparator (hc : (dropSeparator t).head? = some c) : isBlank c = false := by
  rw [dropSeparator] at hc
  cases hdrop : dropBlanks t with
  | nil => simp [hdrop] at hc
  | cons d rest =>
      rw [hdrop] at hc
      by_cases hd : isSign d = true
      · exact head?_dropBlanks (by simpa [hd] using hc)
      · exact head?_dropBlanks (t := t) (by simpa [hdrop, hd] using hc)

/-! ## Escapes -/

/-- What a backslash begins: a pair with the next character, and a unit with four digits. -/
inductive Escape : Text → Prop
  | pair (c : Char) : Escape ['\\', c]
  | unit {digits : Text} (hlength : digits.length = 4)
      (hhex : ∀ c ∈ digits, Text.isHexDigit c = true) : Escape ('\\' :: 'u' :: digits)

/-- An escape in a text, between what stands in front of it and behind it. -/
structure EscapeBetween (t before esc after : Text) : Prop where
  split : t = before ++ (esc ++ after)
  escape : Escape esc
  even : Even (trailingBackslashes before)

/-- No escape of two texts together begins in the first one and ends in the second one. -/
def CutsNoEscape (t u : Text) : Prop :=
  ∀ before esc after, EscapeBetween (t ++ u) before esc after →
    before ++ esc <+: t ∨ t <+: before

theorem Escape.exists_cons (h : Escape esc) : ∃ rest, esc = '\\' :: rest := by
  cases h <;> exact ⟨_, rfl⟩

theorem Escape.isContinued (h : Escape esc) : isContinued esc = false := by
  have hwhole : Whole (fun _ => True) esc := by
    cases h with
    | pair c => exact .pair c .nil
    | unit _ hhex =>
        apply Whole.pair 'u'
        apply whole_of_plain
        exact fun c hc => ⟨isHexDigit_ne (hhex c hc) (by decide), trivial⟩
  rw [isContinued_eq_foldl, hwhole.foldl_escapes]

/-- Within an escape, only the character behind the backslash may be anything but a digit. -/
theorem Escape.eq_of_not_isHexDigit {front : Text} (h : Escape esc)
    (hesc : esc = front ++ c :: after) (hfront : front ≠ [])
    (hc : Text.isHexDigit c = false) : front = ['\\'] := by
  obtain ⟨rest, hrest⟩ := h.exists_cons
  match front with
  | [] => exact absurd rfl hfront
  | [d] =>
      obtain ⟨rfl, -⟩ := List.cons.inj (hrest.symm.trans hesc)
      rfl
  | d :: e :: front =>
      cases h with
      | pair d => simp at hesc
      | @unit digits hlength hhex =>
          obtain ⟨-, hdigits⟩ := List.cons.inj (List.cons.inj hesc).2
          have hmem : c ∈ digits := by simp [hdigits]
          rw [hhex c hmem] at hc
          exact Bool.noConfusion hc

/-- A cut in front of an unescaped character that is no digit goes through no escape. -/
theorem cutsNoEscape_of_not_isHexDigit
    (hu : ∀ c, u.head? = some c → Text.isHexDigit c = false ∧ isContinued t = false) :
    CutsNoEscape t u := by
  intro before esc after ⟨hsplit, hesc, heven⟩
  rcases List.append_eq_append_iff.mp hsplit with ⟨m, hm, -⟩ | ⟨m, hm, hrest⟩
  · exact .inr ⟨m, hm.symm⟩
  by_cases hne : m = []
  · exact .inr ⟨[], by rw [hm, hne, List.append_nil, List.append_nil]⟩
  rcases List.append_eq_append_iff.mp hrest with ⟨x, hx, -⟩ | ⟨x, hx, hu'⟩
  · exact .inl ⟨x, by rw [hm, hx, List.append_assoc]⟩
  cases x with
  | nil => exact .inl ⟨[], by rw [hm, hx, List.append_nil, List.append_nil]⟩
  | cons c x =>
      -- The text would end in the backslash of the escape.
      obtain ⟨hc, ht⟩ := hu c (by rw [hu']; rfl)
      rw [hm, hesc.eq_of_not_isHexDigit hx hne hc, isContinued_concat,
        isContinued_eq_false_iff.mpr heven] at ht
      exact Bool.noConfusion ht

theorem cutsNoEscape_backslash (h : isContinued t = false) (u : Text) :
    CutsNoEscape t ('\\' :: u) := by
  refine cutsNoEscape_of_not_isHexDigit fun c hc => ?_
  obtain rfl := Option.some.inj hc
  exact ⟨by decide, h⟩

theorem not_isHexDigit_of_endsKey (h : endsKey c = true) : Text.isHexDigit c = false := by
  rw [Bool.eq_false_iff]
  intro hc
  rw [endsKey_of_isHexDigit hc] at h
  exact Bool.noConfusion h

theorem cutsNoEscape_of_endsKey
    (hu : ∀ c, u.head? = some c → endsKey c = true ∧ isContinued t = false) :
    CutsNoEscape t u :=
  cutsNoEscape_of_not_isHexDigit fun c hc => ⟨not_isHexDigit_of_endsKey (hu c hc).1, (hu c hc).2⟩

theorem CutsNoEscape.of_append (h : CutsNoEscape (w ++ t) u) (hw : isContinued w = false) :
    CutsNoEscape t u := by
  intro before esc after ⟨hsplit, hesc, heven⟩
  have hfront : Even (trailingBackslashes (w ++ before)) := by
    rwa [← isContinued_eq_false_iff, isContinued_append_of_even hw, isContinued_eq_false_iff]
  have hwhole : w ++ t ++ u = w ++ before ++ (esc ++ after) := by
    rw [List.append_assoc, hsplit, List.append_assoc]
  have hside := h (w ++ before) esc after ⟨hwhole, hesc, hfront⟩
  rwa [List.append_assoc, List.prefix_append_right_inj, List.prefix_append_right_inj] at hside

theorem map_eq_ok_iff {ε α β : Type} {x : Except ε α} {f : α → β} {b : β} :
    x.map f = .ok b ↔ ∃ a, x = .ok a ∧ f a = b := by
  cases x <;> simp [Except.map]

/-- A text begins with the escape of a unit. -/
def BeginsWithUnit (t : Text) : Prop := ∃ digits, t = '\\' :: 'u' :: digits ∧ StartsWithUnit digits

/-- A text ends with the escape of a unit: a backslash that no other one escapes, a `u` and four
digits. -/
def EndsWithUnit (t : Text) : Prop :=
  ∃ before digits, t = before ++ '\\' :: 'u' :: digits ∧ Even (trailingBackslashes before) ∧
    digits.length = 4 ∧ StartsWithUnit digits

theorem EndsWithUnit.append (h : EndsWithUnit t) (hw : isContinued w = false) :
    EndsWithUnit (w ++ t) := by
  obtain ⟨before, digits, rfl, heven, hlength, hdigits⟩ := h
  refine ⟨w ++ before, digits, (List.append_assoc w before _).symm, ?_, hlength, hdigits⟩
  rwa [← isContinued_eq_false_iff, isContinued_append_of_even hw, isContinued_eq_false_iff]

theorem EndsWithUnit.of_unit {a b c d : Char} (h : [a, b, c, d].all Text.isHexDigit = true) :
    EndsWithUnit ['\\', 'u', a, b, c, d] :=
  ⟨[], [a, b, c, d], rfl, by decide, rfl, startsWithUnit_cons.mpr h⟩

/-- Units that are not decoded yet end in front of anything but the escape of a unit. -/
theorem unescapeFrom_pending {pending : List UInt16} (hu : BeginsWithUnit u → pending = []) :
    unescapeFrom pending u = (unescape u).map (Utf16.decode pending ++ ·) := by
  have hmap : ∀ (x : Except Text Text) (f : Text → Text),
      x.map (fun r => Utf16.decode pending ++ f r) =
        (x.map f).map (Utf16.decode pending ++ ·) := by
    intro x f
    cases x <;> rfl
  rw [unescape]
  induction u using escape_induction with
  | nil => simp [unescapeFrom, Except.map]
  | lone => simp [unescapeFrom_lone, Except.map]
  | unit a b c d t hhex _ =>
      obtain rfl : pending = [] := hu ⟨_, rfl, startsWithUnit_cons.mpr hhex⟩
      cases unescapeFrom [] ('\\' :: 'u' :: a :: b :: c :: d :: t) <;> rfl
  | malformed t hdigits =>
      rw [unescapeFrom_malformed hdigits, unescapeFrom_malformed hdigits]
      rfl
  | escape c t hc _ =>
      rw [unescapeFrom_escape hc, unescapeFrom_escape hc, hmap]
      rfl
  | raw c t hc _ =>
      rw [unescapeFrom_raw hc, unescapeFrom_raw hc, hmap]
      rfl

/-- What is put in front of a result stays in front of its first part. -/
theorem map_append_iff {x y z : Except Text Text} {f : Text → Text}
    (hf : ∀ a b, f (a ++ b) = f a ++ b)
    (h : ∀ r, x = .ok r ↔ ∃ a b, y = .ok a ∧ z = .ok b ∧ r = a ++ b) (r : Text) :
    x.map f = .ok r ↔ ∃ a b, y.map f = .ok a ∧ z = .ok b ∧ r = a ++ b := by
  simp only [map_eq_ok_iff, h]
  constructor
  · rintro ⟨_, ⟨a, b, ha, hb, rfl⟩, rfl⟩
    exact ⟨f a, b, ⟨a, ha, rfl⟩, hb, hf a b⟩
  · rintro ⟨_, b, ⟨a, ha, rfl⟩, hb, rfl⟩
    exact ⟨a ++ b, ⟨a, b, ha, hb, rfl⟩, hf a b⟩

/-- Escapes are resolved on both sides of a cut through none of them and between no two units, by
induction over those of the first text. -/
theorem unescapeFrom_append_of_apart (pending : List UInt16) (hcut : CutsNoEscape t u)
    (hunits : BeginsWithUnit u → ¬EndsWithUnit t ∧ (t = [] → pending = [])) (r : Text) :
    unescapeFrom pending (t ++ u) = .ok r ↔
      ∃ a b, unescapeFrom pending t = .ok a ∧ unescape u = .ok b ∧ r = a ++ b := by
  induction t using escape_induction generalizing pending r with
  | nil =>
      rw [List.nil_append, unescapeFrom_pending fun hu => (hunits hu).2 rfl, map_eq_ok_iff]
      simp [unescapeFrom, eq_comm]
  | lone =>
      cases u with
      | nil => simp [unescapeFrom_lone, unescape, unescapeFrom, eq_comm]
      | cons c u =>
          have hpair := hcut [] ['\\', c] u ⟨rfl, .pair c, by decide⟩
          simp [List.prefix_iff_eq_append] at hpair
  | unit a b c d t hhex ih =>
      have hesc : Escape ('\\' :: 'u' :: [a, b, c, d]) := .unit rfl (List.all_eq_true.mp hhex)
      simp only [List.cons_append, unescapeFrom_unit hhex]
      refine ih _ (hcut.of_append hesc.isContinued) (fun hu => ?_) r
      obtain ⟨hends, -⟩ := hunits hu
      refine ⟨fun ht => hends (ht.append hesc.isContinued), ?_⟩
      rintro rfl
      exact absurd (.of_unit hhex) hends
  | malformed t hdigits =>
      have hjoined : ¬StartsWithUnit (t ++ u) := by
        intro hunit
        obtain ⟨a, b, c, d, rest, hsplit, hhex⟩ := hunit.exists_eq
        have hesc : Escape ('\\' :: 'u' :: [a, b, c, d]) := .unit rfl (List.all_eq_true.mp hhex)
        have hbetween : EscapeBetween ('\\' :: 'u' :: t ++ u) [] _ rest :=
          ⟨by simp [hsplit], hesc, by decide⟩
        rcases hcut _ _ _ hbetween with ⟨front, hfront⟩ | hprefix
        · obtain rfl : a :: b :: c :: d :: front = t := by simpa using hfront
          exact hdigits (startsWithUnit_cons.mpr hhex)
        · simp at hprefix
      rw [List.cons_append, List.cons_append, unescapeFrom_malformed hdigits,
        unescapeFrom_malformed hjoined]
      simp
  | escape c t hc ih =>
      have hpair := (Escape.pair c).isContinued
      have htail := ih [] (hcut.of_append hpair) fun hu =>
        ⟨fun ht => (hunits hu).1 (ht.append hpair), fun _ => rfl⟩
      simp only [List.cons_append, unescapeFrom_escape hc]
      exact map_append_iff (by simp) htail r
  | raw c t hc ih =>
      have hplain : isContinued [c] = false := by
        rw [isContinued_eq_foldl]
        simp [escapes_of_ne hc]
      have htail := ih [] (hcut.of_append (w := [c]) hplain) fun hu =>
        ⟨fun ht => (hunits hu).1 (ht.append hplain), fun _ => rfl⟩
      simp only [List.cons_append, unescapeFrom_raw hc]
      exact map_append_iff (by simp) htail r

theorem unescapeFrom_append (hcut : CutsNoEscape t u) (hu : u.head? ≠ some '\\')
    (pending : List UInt16) (r : Text) :
    unescapeFrom pending (t ++ u) = .ok r ↔
      ∃ a b, unescapeFrom pending t = .ok a ∧ unescape u = .ok b ∧ r = a ++ b := by
  refine unescapeFrom_append_of_apart pending hcut ?_ r
  rintro ⟨digits, rfl, -⟩
  exact absurd rfl hu

/-! ## Keys and values -/

theorem Separator.ne_backslash (h : Separator w) (hc : c ∈ w) : c ≠ '\\' := by
  rintro rfl
  exact absurd (h.endsKey hc) (by decide)

theorem Separator.isContinued (h : Separator w) : isContinued w = false := by
  have hwhole : Whole (fun _ => True) w :=
    whole_of_plain fun c hc => ⟨h.ne_backslash hc, trivial⟩
  rw [isContinued_eq_foldl, hwhole.foldl_escapes]

theorem unescape_plain_append (hw : ∀ c ∈ w, c ≠ '\\') (t : Text) :
    unescape (w ++ t) = (unescape t).map (w ++ ·) := by
  induction w with
  | nil =>
      rw [List.nil_append]
      cases unescape t <;> rfl
  | cons c w ih =>
      have hrest := ih fun d hd => hw d (List.mem_cons_of_mem c hd)
      rw [unescape] at hrest
      rw [List.cons_append, unescape, unescapeFrom_raw (hw c List.mem_cons_self), hrest]
      cases unescape t <;> rfl

/-- The escapes of a line are those of its key and those of its value. -/
theorem EscapeBetween.side {v : Text} (h : EscapeBetween t before esc after)
    (ht : t = k ++ (w ++ v)) (hcut : CutsNoEscape k (w ++ v))
    (hk : w ++ v ≠ [] → isContinued k = false) (hw : Separator w) :
    (∃ rest, EscapeBetween k before esc rest ∧ after = rest ++ (w ++ v)) ∨
      ∃ front, before = k ++ (w ++ front) ∧ EscapeBetween v front esc after := by
  rcases hcut before esc after (ht ▸ h) with ⟨rest, hrest⟩ | ⟨m, hm⟩
  · left
    refine ⟨rest, ⟨by rw [← hrest, List.append_assoc], h.escape, h.even⟩, ?_⟩
    have hsplit := h.split
    rw [ht, ← hrest] at hsplit
    simpa using hsplit.symm
  · right
    have hsplit : w ++ v = m ++ (esc ++ after) := by
      have hsplit := h.split
      rw [ht, ← hm, List.append_assoc] at hsplit
      exact List.append_cancel_left hsplit
    obtain ⟨front, rfl, hv⟩ : ∃ front, m = w ++ front ∧ v = front ++ (esc ++ after) := by
      rcases List.append_eq_append_iff.mp hsplit with ⟨x, hm, hv⟩ | ⟨x, hw', hesc⟩
      · exact ⟨x, hm, hv⟩
      -- The escape would begin in the separator.
      cases x with
      | nil => exact ⟨[], by simpa using hw'.symm, by simpa using hesc.symm⟩
      | cons c x =>
          obtain ⟨rest, hrest⟩ := h.escape.exists_cons
          rw [hrest] at hesc
          obtain ⟨rfl, -⟩ := List.cons.inj hesc
          exact absurd rfl (hw.ne_backslash (by simp [hw']))
    have hne : w ++ v ≠ [] := by
      obtain ⟨rest, hrest⟩ := h.escape.exists_cons
      simp [hv, hrest]
    refine ⟨front, hm.symm, hv, h.escape, ?_⟩
    have heven := isContinued_eq_false_iff.mpr h.even
    rw [← hm, isContinued_append_of_even (hk hne), isContinued_append_of_even hw.isContinued]
      at heven
    exact isContinued_eq_false_iff.mp heven

/-- A line is its key, a separator and its value, each as long as it can be, and the escapes
of the line are resolved on both sides. -/
theorem splitEntry_longest (t : Text) :
    let k := (splitEntry t).1
    let v := (splitEntry t).2
    ∃ w, t = k ++ (w ++ v) ∧
      EndsEscaped k ∧ (∀ p, p <+: t → EndsEscaped p → p <+: k) ∧
      Separator w ∧ (∀ p, p <+: w ++ v → Separator p → p <+: w) ∧
      (∀ c, v.head? = some c → isBlank c = false) ∧
      (EndsEscaped t → k = t ∧ v = []) ∧
      (∀ before esc after, EscapeBetween t before esc after →
        (∃ rest, EscapeBetween k before esc rest ∧ after = rest ++ (w ++ v)) ∨
          ∃ front, before = k ++ (w ++ front) ∧ EscapeBetween v front esc after) ∧
      ∀ r, unescape t = .ok r ↔
        ∃ a b, unescape k = .ok a ∧ unescape v = .ok b ∧ r = a ++ (w ++ b) := by
  intro k v
  obtain ⟨hkey, hlongest, hhead⟩ := cutKey_spec false t
  obtain ⟨w, hsplit, hw, hwlongest⟩ := exists_separator (cutKey false t).2
  simp only [← endsEscaped_iff, ← isContinued_eq_foldl] at hkey hlongest hhead
  have ht : t = k ++ (w ++ v) :=
    (cutKey_append false t).symm.trans (congrArg (k ++ ·) hsplit)
  rw [hsplit] at hwlongest hhead
  have hk : w ++ v ≠ [] → isContinued k = false := by
    intro hne
    obtain ⟨c, rest, hrest⟩ := List.exists_cons_of_ne_nil hne
    exact (hhead c (List.head?_eq_some_iff.mpr ⟨rest, hrest⟩)).2
  have hcut : CutsNoEscape k (w ++ v) := cutsNoEscape_of_endsKey hhead
  have hslash : (w ++ v).head? ≠ some '\\' := fun hc => absurd (hhead _ hc).1 (by decide)
  refine ⟨w, ht, hkey, hlongest, hw, hwlongest, fun c hc => head?_dropSeparator hc, ?_,
    fun before esc after hesc => hesc.side ht hcut hk hw, fun r => ?_⟩
  · intro hends
    have hprefix : t <+: k := hlongest t List.prefix_rfl hends
    have hrest : w ++ v = [] := by
      have hlength := hprefix.length_le
      rw [ht, List.length_append] at hlength
      exact List.length_eq_zero_iff.mp (by omega)
    refine ⟨?_, (List.append_eq_nil_iff.mp hrest).2⟩
    rw [ht, hrest, List.append_nil]
  · have hwhole := unescapeFrom_append hcut hslash [] r
    rw [← ht, unescape_plain_append fun c hc => hw.ne_backslash hc] at hwhole
    simp only [map_eq_ok_iff] at hwhole
    rw [unescape, hwhole]
    constructor
    · rintro ⟨a, _, ha, ⟨b, hb, rfl⟩, rfl⟩
      exact ⟨a, b, ha, hb, rfl⟩
    · rintro ⟨a, b, ha, hb, rfl⟩
      exact ⟨a, w ++ b, ha, ⟨b, hb, rfl⟩, rfl⟩

example : splitEntry "a\\\\\\=b\\\\ \t= : c" = (("a\\\\\\=b\\\\" : Text), (": c" : Text)) := by decide

end ResourceBundles.Properties
