import ResourceBundles.Proofs.Format.Faults

/-!
# Where placeholders end

A placeholder ends at the first closing brace that stands outside quotes while no other
brace is open.  In front of that brace the scan counts exactly the open braces, and the
quotes tell whether it is in a quotation.  The first two commas outside quotes divide what
the placeholder takes into its parts, from which nothing is lost but these commas and the
spaces behind the first one.
-/

namespace ResourceBundles

namespace Placeholder

variable {p : Part} {depth d : Nat} {quoted q : Bool} {s : Segments} {t u rest : Text} {c : Char}

/-- A closing brace behind the text stands outside quotes and closes no brace of the text. -/
structure EndsBehind (t : Text) : Prop where
  quotes_even : t.count '\'' % 2 = 0
  close_eq : (unquotedText false t).count '}' = (unquotedText false t).count '{'

theorem Balanced.endsBehind (h : Balanced 0 false t) : EndsBehind t :=
  ⟨by simpa using h.quotes_even, by simpa using h.close_eq⟩

/-! ## Along a text -/

theorem Moves.unique {d' : Nat} {q' : Bool} (h : Moves depth quoted c d q)
    (h' : Moves depth quoted c d' q') : d = d' ∧ q = q' := by
  cases h with
  | quote =>
      cases h' with
      | quote => exact ⟨rfl, rfl⟩
      | quoted hc => exact absurd rfl hc
      | char hc _ => exact absurd rfl hc
  | quoted hc =>
      cases h' with
      | quote => exact absurd rfl hc
      | quoted _ => exact ⟨rfl, rfl⟩
  | char hc hd =>
      cases h' with
      | quote => exact absurd rfl hc
      | char _ hd' => exact ⟨by omega, rfl⟩

theorem Moves.unquoted (h : Moves depth quoted c d q) (t : Text) :
    ∃ v, unquotedText quoted (c :: t) = v ++ unquotedText q t ∧
      d + v.count '}' = depth + v.count '{' := by
  cases h with
  | quote => exact ⟨[], by simp [unquotedText], rfl⟩
  | quoted hc => exact ⟨[], by simp [unquotedText, hc], rfl⟩
  | char hc hd => exact ⟨[c], by simp [unquotedText, hc], hd.symm⟩

namespace MovesAlong

theorem parity (h : MovesAlong depth quoted t d q) :
    q.toNat = (quoted.toNat + t.count '\'') % 2 := by
  induction h with
  | @nil _ quoted => cases quoted <;> rfl
  | @cons _ _ _ _ _ _ c t hc _ ih =>
      have hfirst := hc.parity
      rw [count_cons c]
      omega

theorem unquoted (h : MovesAlong depth false t d q) (ht : t.count '\'' % 2 = 0) : q = false := by
  have hparity := h.parity
  cases q with
  | false => rfl
  | true => simp [ht] at hparity

theorem depth_add (h : MovesAlong depth quoted t d q) :
    d + (unquotedText quoted t).count '}' = depth + (unquotedText quoted t).count '{' := by
  induction h with
  | nil => rfl
  | @cons _ _ _ _ _ _ c t hc _ ih =>
      obtain ⟨v, htext, hv⟩ := hc.unquoted t
      rw [htext, List.count_append, List.count_append]
      omega

theorem balanced_iff (h : MovesAlong depth quoted t d q) :
    Balanced depth quoted (t ++ u) ↔ Balanced d q u := by
  induction h with
  | nil => rfl
  | cons hc _ ih => exact hc.balanced_iff.trans ih

end MovesAlong

/-! ## The first end -/

theorem exists_balanced_of_cut {k : Cut} (h : cut p depth quoted t = some k) :
    ∃ body, t = body ++ '}' :: k.rest ∧ Balanced depth quoted body := by
  induction t generalizing p depth quoted k with
  | nil => simp [cut] at h
  | cons c t ih =>
      rcases cut_step p depth quoted c with
        ⟨rfl, rfl, rfl, hstop⟩ | ⟨p', d, q, f, hmove, hf, hstep⟩
      · rw [hstop] at h
        obtain rfl := Option.some.inj h
        exact ⟨[], rfl, by simp [unquotedText], by simp [unquotedText], rfl⟩
      · rw [hstep] at h
        obtain ⟨k', hk', rfl⟩ := Option.map_eq_some_iff.mp h
        obtain ⟨body, rfl, hbody⟩ := ih hk'
        refine ⟨c :: body, ?_, hmove.balanced_iff.mpr hbody⟩
        rcases hf with rfl | rfl <;> rfl

/-- No closing brace inside a balanced text ends the placeholder. -/
theorem Balanced.not_endsBehind {inner : Text} (h : Balanced 0 false t)
    (ht : inner ++ ['}'] <+: t) : ¬EndsBehind inner := by
  intro hinner
  obtain ⟨more, rfl⟩ := ht
  rw [List.append_assoc, List.singleton_append] at h
  obtain ⟨d, q, hmoves, hclose⟩ := h.movesAlong
  obtain rfl := hmoves.unquoted hinner.quotes_even
  have hdepth := hmoves.depth_add
  have heq := hinner.close_eq
  have hpos := hclose.depth_pos
  omega

theorem unclosed_iff :
    Unclosed 0 false t ↔ ∀ inner, inner ++ ['}'] <+: t → ¬EndsBehind inner := by
  constructor
  · rintro h inner ⟨more, rfl⟩ hinner
    have hlt := h inner more (List.append_assoc ..) (by simpa using hinner.quotes_even)
    have heq := hinner.close_eq
    omega
  · intro h
    rw [← cut_eq_none_iff (p := .index), Option.eq_none_iff_forall_ne_some]
    intro k hk
    obtain ⟨body, rfl, hbody⟩ := exists_balanced_of_cut hk
    exact h body ⟨k.rest, List.append_assoc ..⟩ hbody.endsBehind

theorem Unclosed.movesAlong (h : Unclosed depth quoted t) :
    ∃ d q, MovesAlong depth quoted t d q := by
  induction t generalizing depth quoted with
  | nil => exact ⟨depth, quoted, .nil⟩
  | cons c t ih =>
      obtain ⟨d, q, hmove⟩ := exists_moves (Unclosed.cons_iff.mp h).1
      obtain ⟨d', q', hmoves⟩ := ih (hmove.unclosed_iff.mp h)
      exact ⟨d', q', .cons hmove hmoves⟩

/-! ## The scan in front of the end -/

/-- The same placeholder with a text in front, whose characters are in the given parts. -/
def Cut.behind (k : Cut) (before : Segments) (t : Text) : Cut where
  segments := ⟨before.index ++ k.segments.index, before.formatType ++ k.segments.formatType,
    before.style ++ k.segments.style⟩
  length := Text.utf8Length t + k.length
  rest := k.rest

theorem Cut.behind_nil (k : Cut) : k.behind ⟨[], [], []⟩ [] = k := by
  simp [Cut.behind]

theorem Cut.push_behind (k : Cut) (before : Segments) (t : Text) (p : Part) (c : Char) :
    (k.behind before t).push p c = k.behind (before.push p c) (c :: t) := by
  cases p <;> simp [Cut.behind, Cut.push, Segments.push, Text.utf8Length_cons, Nat.add_assoc]

theorem Cut.skip_behind (k : Cut) (before : Segments) (t : Text) (c : Char) :
    (k.behind before t).skip c = k.behind before (c :: t) := by
  simp [Cut.behind, Cut.skip, Text.utf8Length_cons, Nat.add_assoc]

/-- Behind a text the scan goes on with the open braces and the quotation that the text
leaves, in some part, and with what the text has put into each part. -/
theorem MovesAlong.cut_append (h : MovesAlong depth quoted t d q) (p : Part) :
    ∃ p' before, ∀ u, cut p depth quoted (t ++ u) = (cut p' d q u).map (·.behind before t) := by
  induction h generalizing p with
  | nil => exact ⟨p, ⟨[], [], []⟩, fun u => by simp [Cut.behind_nil]⟩
  | @cons depth _ _ quoted _ _ c t hc _ ih =>
      rcases cut_step p depth quoted c with
        ⟨rfl, rfl, rfl, -⟩ | ⟨p', d, q, f, hmove, hf, hstep⟩
      · cases hc with
        | char _ hd => simp at hd
      obtain ⟨rfl, rfl⟩ := hc.unique hmove
      obtain ⟨p'', before, hrest⟩ := ih p'
      rcases hf with rfl | rfl
      · refine ⟨p'', before.push p c, fun u => ?_⟩
        simp [hstep, hrest, Function.comp_def, Cut.push_behind]
      · refine ⟨p'', before, fun u => ?_⟩
        simp [hstep, hrest, Function.comp_def, Cut.skip_behind]

/-! ## The parts -/

/-- The first two commas outside quotes divide a text into parts.  Spaces behind the first
comma belong to no part. -/
inductive Divides : Text → Segments → Prop
  | one {a : Text} (ha : CommasQuoted false a) : Divides a ⟨a, [], []⟩
  | two {a b : Text} (spaces : Nat) (ha : CommasQuoted false a) (hquotes : a.count '\'' % 2 = 0)
      (hspace : b.head? ≠ some ' ') (hb : CommasQuoted false b) :
      Divides (a ++ ',' :: (List.replicate spaces ' ' ++ b)) ⟨a, b, []⟩
  | three {a b c : Text} (spaces : Nat) (ha : CommasQuoted false a)
      (hquotes : a.count '\'' % 2 = 0) (hspace : b.head? ≠ some ' ') (hb : CommasQuoted false b)
      (hquotes' : b.count '\'' % 2 = 0) :
      Divides (a ++ ',' :: (List.replicate spaces ' ' ++ (b ++ ',' :: c))) ⟨a, b, c⟩

/-- All commas of a text are quoted, or there is a first one that is not. -/
theorem commasQuoted_or (quoted : Bool) (t : Text) :
    CommasQuoted quoted t ∨
      ∃ front back, t = front ++ ',' :: back ∧ CommasQuoted quoted front ∧
        (quoted.toNat + front.count '\'') % 2 = 0 := by
  induction t generalizing quoted with
  | nil => exact .inl fun front back h => by simp at h
  | cons c t ih =>
      by_cases hcomma : c = ',' ∧ quoted = false
      · obtain ⟨rfl, rfl⟩ := hcomma
        exact .inr ⟨[], t, rfl, fun front back h => by simp at h, rfl⟩
      have hquoted : c = ',' → quoted = true := by simpa using hcomma
      -- Commas do not depend on braces, one of which may be open here.
      have hopen : c = '}' → quoted = false → 0 < 1 := fun _ _ => Nat.one_pos
      obtain ⟨d, q, hmove⟩ := exists_moves hopen
      rcases ih q with ht | ⟨front, back, rfl, hfront, heven⟩
      · exact .inl ((CommasQuoted.cons_iff hmove).mpr ⟨hquoted, ht⟩)
      · refine .inr ⟨c :: front, back, rfl, (CommasQuoted.cons_iff hmove).mpr ⟨hquoted, hfront⟩, ?_⟩
        have hparity := (MovesAlong.cons hmove .nil).parity
        rw [count_cons c]
        omega

theorem exists_divides (t : Text) : ∃ s, Divides t s := by
  rcases commasQuoted_or false t with ht | ⟨a, t, rfl, ha, hquotes⟩
  · exact ⟨_, .one ht⟩
  have hquotes : a.count '\'' % 2 = 0 := by simpa using hquotes
  have hspaces : t.takeWhile (· = ' ') = List.replicate (t.takeWhile (· = ' ')).length ' ' := by
    rw [List.eq_replicate_iff]
    exact ⟨rfl, fun c hc => by simpa using List.mem_takeWhile_imp hc⟩
  have hsplit := List.takeWhile_append_dropWhile (p := (· = ' ')) (l := t)
  rw [hspaces] at hsplit
  have hhead : (t.dropWhile (· = ' ')).head? ≠ some ' ' := by
    intro h
    simpa [h] using List.head?_dropWhile_not (· = ' ') t
  rw [← hsplit]
  rcases commasQuoted_or false (t.dropWhile (· = ' ')) with hb | ⟨b, c, hbc, hb, hquotes'⟩
  · exact ⟨_, .two _ ha hquotes hhead hb⟩
  · rw [hbc] at hhead ⊢
    refine ⟨_, .three _ ha hquotes ?_ hb (by simpa using hquotes')⟩
    cases b with
    | nil => simp
    | cons e b => exact hhead

theorem CutsTo.spaces (n : Nat) (h : CutsTo .beforeType depth false t s rest) :
    CutsTo .beforeType depth false (List.replicate n ' ' ++ t) s rest := by
  induction n with
  | zero => exact h
  | succ n ih => exact ih.skip (by simp [cut])

theorem CutsTo.beforeType (ht : t.head? ≠ some ' ') (h : CutsTo .formatType depth false t s rest) :
    CutsTo .beforeType depth false t s rest := by
  obtain ⟨n, hn⟩ := h
  refine ⟨n, ?_⟩
  rw [← hn]
  cases t with
  | nil => rfl
  | cons c t =>
      have hspace : c ≠ ' ' := by simpa using ht
      simp [cut, hspace, Part.afterChar, Part.afterComma, Cut.push, Segments.push]

theorem CutsTo.spacesType {b : Text} (n : Nat) (hb : b.head? ≠ some ' ') (hc : c ≠ ' ')
    (h : CutsTo .formatType depth false (b ++ c :: t) s rest) :
    CutsTo .beforeType depth false (List.replicate n ' ' ++ (b ++ c :: t)) s rest := by
  apply CutsTo.spaces
  apply CutsTo.beforeType _ h
  cases b with
  | nil => simpa using hc
  | cons e b => exact hb

theorem CutsTo.part (hp : p ≠ .beforeType) (hstyle : p ≠ .style)
    (ht : CommasQuoted false t) (hquotes : t.count '\'' % 2 = 0)
    (hbalanced : Balanced depth false (t ++ ',' :: u))
    (h : ∀ d, Balanced d false u → CutsTo p.afterComma d false (u ++ '}' :: rest) s rest) :
    CutsTo p depth false (t ++ ',' :: (u ++ '}' :: rest)) (s.prepend p t) rest := by
  obtain ⟨d, q, hmoves, hcomma⟩ := hbalanced.movesAlong
  obtain rfl := hmoves.unquoted hquotes
  have hmove : Moves d false ',' d false := .char (by decide) rfl
  exact (CutsTo.comma hstyle (h d (hmove.balanced_iff.mp hcomma))).run hmoves hp (.inr ht)

theorem Divides.cutsTo (h : Divides t s) (hbalanced : Balanced 0 false t) (rest : Text) :
    CutsTo .index 0 false (t ++ '}' :: rest) s rest := by
  have hspaces : ∀ {d n} {u : Text}, Balanced d false (List.replicate n ' ' ++ u) →
      Balanced d false u := by
    intro d n u hu
    have hplain : ∀ c ∈ List.replicate n ' ', Plain c := by
      intro c hc
      rw [(List.mem_replicate.mp hc).2]
      decide
    exact (MovesAlong.plain hplain).balanced_iff.mp hu
  cases h with
  | one ha =>
      simpa [Segments.prepend] using CutsTo.last (by decide) (.inr ha) hbalanced rest
  | @two a b n ha hquotes hspace hb =>
      rw [List.append_assoc, List.cons_append]
      have htype : ∀ d, Balanced d false (List.replicate n ' ' ++ b) →
          CutsTo .beforeType d false (List.replicate n ' ' ++ b ++ '}' :: rest) ⟨[], b, []⟩ rest := by
        intro d hd
        have hlast := CutsTo.last (p := .formatType) (by decide) (.inr hb) (hspaces hd) rest
        rw [List.append_assoc]
        exact .spacesType n hspace (by decide) (by simpa [Segments.prepend] using hlast)
      simpa [Segments.prepend] using
        CutsTo.part (p := .index) (by decide) (by decide) ha hquotes hbalanced htype
  | @three a b c n ha hquotes hspace hb hquotes' =>
      rw [List.append_assoc, List.cons_append]
      have htype : ∀ d, Balanced d false (List.replicate n ' ' ++ (b ++ ',' :: c)) →
          CutsTo .beforeType d false (List.replicate n ' ' ++ (b ++ ',' :: c) ++ '}' :: rest)
            ⟨[], b, c⟩ rest := by
        intro d hd
        have hstyle := CutsTo.part (p := .formatType) (by decide) (by decide) hb hquotes'
          (hspaces hd) fun d' hc => CutsTo.style hc rest
        rw [List.append_assoc, List.append_assoc, List.cons_append]
        exact .spacesType n hspace (by decide) (by simpa [Segments.prepend] using hstyle)
      simpa [Segments.prepend] using
        CutsTo.part (p := .index) (by decide) (by decide) ha hquotes hbalanced htype

/-! ## What a placeholder takes -/

/-- A brace is found unclosed where it stands exactly if nothing behind it ends its placeholder. -/
theorem placeholdersFrom_unclosed_iff {offset : Nat} :
    Pattern.placeholdersFrom offset false ('{' :: t) = .error (.unmatchedBraces offset) ↔
      cut .index 0 false t = none := by
  constructor
  · intro h
    obtain ⟨before, after, ht, hoffset, -, -, hcut⟩ :=
      Pattern.placeholdersFrom_unmatched_iff.mp h
    cases before with
    | nil =>
        obtain ⟨-, rfl⟩ := List.cons.inj ht
        exact hcut
    | cons c before =>
        have hsize := c.utf8Size_pos
        rw [Text.utf8Length_cons] at hoffset
        omega
  · intro h
    rw [Pattern.placeholdersFrom_open, h]

/-- A placeholder takes what stands in front of its first end, and the end itself.  Up to
the first end the scan knows how many braces are open, and a placeholder that has none is at
fault where it is opened. -/
theorem cut_at_first_end (t : Text) :
    ((cut .index 0 false t).isSome ↔ ∃ inner, inner ++ ['}'] <+: t ∧ EndsBehind inner) ∧
    (∀ k, cut .index 0 false t = some k → ∃ body, t = body ++ '}' :: k.rest ∧ EndsBehind body ∧
      (∀ inner, inner ++ ['}'] <+: body → ¬EndsBehind inner) ∧
      k.length = Text.utf8Length (body ++ ['}']) ∧ ∀ s, Divides body s ↔ k.segments = s) ∧
    (∀ front back, t = front ++ back → (∀ inner, inner ++ ['}'] <+: front → ¬EndsBehind inner) →
      ∃ p d q before, cut .index 0 false t = (cut p d q back).map (·.behind before front) ∧
        d + (unquotedText false front).count '}' = (unquotedText false front).count '{' ∧
        q.toNat = front.count '\'' % 2) ∧
    ∀ offset,
      Pattern.placeholdersFrom offset false ('{' :: t) = .error (.unmatchedBraces offset) ↔
        ∀ inner, inner ++ ['}'] <+: t → ¬EndsBehind inner := by
  have hnone : cut .index 0 false t = none ↔
      ∀ inner, inner ++ ['}'] <+: t → ¬EndsBehind inner := cut_eq_none_iff.trans unclosed_iff
  refine ⟨?_, fun k hk => ?_, ?_, fun offset => placeholdersFrom_unclosed_iff.trans hnone⟩
  · rw [← not_iff_not, Bool.not_eq_true, Option.isSome_eq_false_iff, Option.isNone_iff_eq_none,
      hnone]
    simp
  · obtain ⟨body, rfl, hbody⟩ := exists_balanced_of_cut hk
    have hdivides : ∀ s, Divides body s → k.segments = s := by
      intro s hs
      obtain ⟨n, hcut⟩ := hs.cutsTo hbody k.rest
      exact congrArg Cut.segments (Option.some.inj (hk.symm.trans hcut))
    obtain ⟨s, hs⟩ := exists_divides body
    have hlength := length_add_rest_of_cut hk
    refine ⟨body, rfl, hbody.endsBehind, fun _ => hbody.not_endsBehind, ?_, fun s' => ?_⟩
    · rw [← List.singleton_append, ← List.append_assoc, Text.utf8Length_append] at hlength
      exact Nat.add_right_cancel hlength
    · refine ⟨hdivides s', ?_⟩
      rintro rfl
      rwa [hdivides s hs]
  · rintro front back rfl hfront
    obtain ⟨d, q, hmoves⟩ := (unclosed_iff.mpr hfront).movesAlong
    obtain ⟨p, before, hcut⟩ := hmoves.cut_append .index
    refine ⟨p, d, q, before, hcut back, ?_, ?_⟩
    · simpa using hmoves.depth_add
    · simpa using hmoves.parity

example : cut .index 0 false "0,  a', ',b,\x7b'\x7d'\x7d\x7d\x7d" =
    some ⟨⟨"0", "a', '", "b,\x7b'\x7d'\x7d"⟩, 18, "\x7d"⟩ := by
  decide +kernel

end Placeholder
end ResourceBundles
