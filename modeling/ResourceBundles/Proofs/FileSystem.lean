import ResourceBundles.FileSystem
import ResourceBundles.Proofs.Path

/-!
# Following paths

A path is followed piece by piece, and so a path with one more name leads from where the
path itself leads to what stands there under that name.  A directory that its absolute path
leads to lies in directories of which the same is true.
-/

namespace ResourceBundles.FileSystem

variable {fs : FileSystem} {l m : Location} {n : Text} {p : Path} {c : Content}
  {ps qs : List Text}

/-- A name that a path may end in, whatever its other pieces are. -/
structure IsEntryName (n : Text) : Prop extends Path.IsName n where
  short : Text.utf8Length n ≤ 255
  nul_not_mem : '\x00' ∉ n

/-- What stands at a location under a given name, if the location is a directory. -/
def below? (fs : FileSystem) (l : Location) (n : Text) : Option Content :=
  if fs.content? l = some .directory then fs.content? (l ++ [n]) else none

/-! ## Pieces -/

theorem follow_append :
    fs.follow l (ps ++ qs) = (fs.follow l ps).bind fun k => fs.follow k qs := by
  induction ps generalizing l with
  | nil => rfl
  | cons p ps ih =>
      rw [List.cons_append, follow, follow]
      cases fs.step l p with
      | error e => rfl
      | ok k => exact ih

/-- A dot in front of a name leads nowhere, and it fails where the name would fail. -/
theorem follow_current (l : Location) (n : Text) : fs.follow l [['.'], n] = fs.follow l [n] := by
  have hdot : fs.step l ['.'] = .ok l ∨ ∃ e, ∀ n, fs.step l n = .error e := by
    simp only [step]
    cases fs.content? l with
    | none => exact .inr ⟨_, fun n => rfl⟩
    | some c =>
        cases c with
        | file bytes => exact .inr ⟨_, fun n => rfl⟩
        | directory => exact .inl rfl
  rcases hdot with hdot | ⟨e, he⟩
  · rw [follow, hdot]
  · rw [follow, follow, he, he]

theorem follow_singleton : fs.follow l [n] = .ok m ↔ fs.step l n = .ok m := by
  rw [follow]
  cases fs.step l n <;> simp [follow]

theorem eq_of_step (hn : Path.IsName n) (h : fs.step l n = .ok m) :
    m = l ++ [n] ∧ fs.content? l = some .directory := by
  rw [step] at h
  cases hl : fs.content? l with
  | none => simp [hl] at h
  | some c =>
      cases c with
      | file bytes => simp [hl] at h
      | directory =>
          simp only [hl, hn.ofPiece?] at h
          split_ifs at h
          exact ⟨(Except.ok.inj h).symm, rfl⟩

theorem step_eq_ok_iff (hn : IsEntryName n) :
    fs.step l n = .ok m ↔ m = l ++ [n] ∧ (fs.below? l n).isSome := by
  rw [step, below?]
  cases hl : fs.content? l with
  | none => simp
  | some c =>
      cases c with
      | file bytes => simp
      | directory =>
          have hshort : ¬255 < Text.utf8Length n := Nat.not_lt.mpr hn.short
          simp only [hn.toIsName.ofPiece?, if_neg hshort, if_true]
          split_ifs with hentry
          · simp [hentry, eq_comm]
          · simp [hentry]

/-! ## Paths -/

theorem locate_eq_ok_iff :
    fs.locate p = .ok l ↔ ('\x00' ∉ p.text ∧ p.text ≠ [] ∧ Text.utf8Length p.text < 4096) ∧
      fs.follow (if p.isAbsolute then [] else fs.current) p.pieces = .ok l := by
  rw [locate]
  by_cases hnul : '\x00' ∈ p.text
  · simp [hnul]
  by_cases hnil : p.text = []
  · simp [hnil]
  by_cases hlong : 4096 ≤ Text.utf8Length p.text
  · simp [hnul, hnil, hlong, Nat.not_lt.mpr hlong]
  · simp [hnul, hnil, hlong, Nat.lt_of_not_le hlong]

theorem find_eq_ok_iff : fs.find p = .ok c ↔ ∃ l, fs.locate p = .ok l ∧ fs.content? l = some c := by
  rw [find]
  cases fs.locate p with
  | error e => simp
  | ok l =>
      simp only [Except.ok.injEq, exists_eq_left']
      cases fs.content? l <;> simp

theorem isFile_iff : fs.isFile p = true ↔ ∃ bytes, fs.find p = .ok (.file bytes) := by
  rw [isFile]
  cases hp : fs.find p with
  | error e => simp
  | ok c => cases c <;> simp

theorem hasEntry_iff : fs.hasEntry p = true ↔ ∃ c, fs.find p = .ok c := by
  rw [hasEntry]
  cases fs.find p <;> simp [Except.isOk, Except.toBool]

/-! ## Names below a path -/

/-- A name joined to the path leads to what stands under the name at the location. -/
def LeadsBelow (fs : FileSystem) (p : Path) (l : Location) (n : Text) : Prop :=
  ∀ m, fs.locate (p.join ⟨n⟩) = .ok m ↔ m = l ++ [n] ∧ (fs.below? l n).isSome

theorem leadsBelow_of_follow (hn : IsEntryName n) (hnul : '\x00' ∉ (p.join ⟨n⟩).text)
    (hne : (p.join ⟨n⟩).text ≠ []) (hlong : Text.utf8Length (p.join ⟨n⟩).text < 4096)
    (hfollow : fs.follow (if (p.join ⟨n⟩).isAbsolute then [] else fs.current) (p.join ⟨n⟩).pieces =
      fs.follow l [n]) : fs.LeadsBelow p l n := by
  intro m
  rw [locate_eq_ok_iff, and_iff_right ⟨hnul, hne, hlong⟩, hfollow, follow_singleton,
    step_eq_ok_iff hn]

namespace LeadsBelow

theorem find_eq_ok_iff (h : fs.LeadsBelow p l n) :
    fs.find (p.join ⟨n⟩) = .ok c ↔ fs.below? l n = some c := by
  simp only [FileSystem.find_eq_ok_iff, h _]
  rw [below?]
  split_ifs with hl
  · constructor
    · rintro ⟨_, ⟨rfl, -⟩, hc⟩
      exact hc
    · exact fun hc => ⟨_, ⟨rfl, hc ▸ rfl⟩, hc⟩
  · simp

theorem isFile_iff (h : fs.LeadsBelow p l n) :
    fs.isFile (p.join ⟨n⟩) = true ↔ ∃ bytes, fs.below? l n = some (.file bytes) := by
  simp only [FileSystem.isFile_iff, h.find_eq_ok_iff]

theorem hasEntry_iff (h : fs.LeadsBelow p l n) :
    fs.hasEntry (p.join ⟨n⟩) = true ↔ (fs.below? l n).isSome := by
  simp only [FileSystem.hasEntry_iff, h.find_eq_ok_iff, Option.isSome_iff_exists]

end LeadsBelow

/-! ## Absolute paths -/

theorem follow_pieces_of_names (h : ∀ n ∈ l, Path.IsName n) :
    fs.follow [] (Path.ofPieces true l).pieces = fs.follow [] l := by
  by_cases hl : l = []
  · subst hl
    rfl
  · rw [Path.pieces_of_names h hl]

/-- A directory that its absolute path leads to. -/
structure IsReachable (fs : FileSystem) (l : Location) : Prop where
  names : ∀ n ∈ l, Path.IsName n
  located : fs.locate (Path.ofPieces true l) = .ok l
  directory : fs.content? l = some .directory

namespace IsReachable

theorem follow_eq (h : fs.IsReachable l) : fs.follow [] l = .ok l := by
  rw [← follow_pieces_of_names h.names]
  exact (locate_eq_ok_iff.mp h.located).2

theorem of_concat (h : fs.IsReachable (l ++ [n])) : fs.IsReachable l := by
  have hnames : ∀ m ∈ l, Path.IsName m := fun m hm => h.names m (List.mem_append_left _ hm)
  have hn : Path.IsName n := h.names n (by simp)
  have htext : (Path.ofPieces true l).text <+: (Path.ofPieces true (l ++ [n])).text := by
    rw [← Path.join_of_names hnames hn.slash_not_mem, Path.join_eq hn.slash_not_mem]
    exact List.prefix_append _ _
  obtain ⟨⟨hnul, -, hlong⟩, -⟩ := locate_eq_ok_iff.mp h.located
  obtain ⟨rest, hrest⟩ := htext
  rw [← hrest, Text.utf8Length_append] at hlong
  -- The last step adds the last name, so the pieces in front of it lead to the rest.
  have hfollow := h.follow_eq
  rw [follow_append] at hfollow
  cases hl : fs.follow [] l with
  | error e =>
      rw [hl] at hfollow
      exact absurd hfollow (by simp [Except.bind])
  | ok k =>
      rw [hl] at hfollow
      obtain ⟨hk, hdirectory⟩ := eq_of_step hn (follow_singleton.mp hfollow)
      obtain rfl : l = k := List.append_inj_left' hk rfl
      refine ⟨hnames, locate_eq_ok_iff.mpr ⟨⟨?_, ?_, ?_⟩, ?_⟩, hdirectory⟩
      · exact fun hmem => hnul (hrest ▸ List.mem_append_left _ hmem)
      · exact List.cons_ne_nil _ _
      · exact Nat.lt_of_le_of_lt (Nat.le_add_right _ _) hlong
      · exact (follow_pieces_of_names hnames).trans hl

theorem leadsBelow (h : fs.IsReachable l) (hn : IsEntryName n)
    (hlong : Text.utf8Length ((Path.ofPieces true l).join ⟨n⟩).text < 4096) :
    fs.LeadsBelow (Path.ofPieces true l) l n := by
  have hslash := hn.slash_not_mem
  obtain ⟨⟨hnul, hne, -⟩, -⟩ := locate_eq_ok_iff.mp h.located
  have hnames : ∀ m ∈ l ++ [n], Path.IsName m := by
    intro m hm
    rcases List.mem_append.mp hm with hm | hm
    · exact h.names m hm
    · exact List.mem_singleton.mp hm ▸ hn.toIsName
  refine leadsBelow_of_follow hn ?_ ?_ hlong ?_
  · rw [Path.join_eq hslash]
    intro hmem
    rcases List.mem_append.mp hmem with hmem | hmem
    · exact hnul hmem
    · split_ifs at hmem
      · exact hn.nul_not_mem hmem
      · exact hn.nul_not_mem (by simpa using hmem)
  · rw [Path.join_eq hslash]
    exact fun hnil => hne (List.append_eq_nil_iff.mp hnil).1
  · rw [Path.join_of_names h.names hslash]
    exact (follow_pieces_of_names hnames).trans (by rw [follow_append, h.follow_eq]; rfl)

end IsReachable

end ResourceBundles.FileSystem
