import ResourceBundles.Config.Basic
import ResourceBundles.Proofs.Glob
import ResourceBundles.Proofs.Scan.Selection

/-!
# Ignored files

Every entry of a valid ignore list is a glob pattern, but one with neither a star nor a
question mark is read as a path below the source root.  The two readings agree on the files
that the pattern matches unless the entry has a class of characters: as a path it then leads
to none of them.
-/

namespace ResourceBundles

variable {root : Path} {names : List Text} {entry : Text} {tokens : List Glob.Token}
  {ignores : List Text} {walk : List WalkEntry}

namespace FileSystem

theorem isAbsolute_pathBelow_nil (h : ∀ n ∈ names, Path.IsName n) :
    (pathBelow ⟨[]⟩ names).isAbsolute = false :=
  isAbsolute_pathBelow fun n hn => (h n hn).slash_not_mem

/-- The path of some names can be joined as a whole. -/
theorem components_join_pathBelow (root : Path) (h : ∀ n ∈ names, Path.IsName n) :
    (root.join (pathBelow ⟨[]⟩ names)).components = root.components ++ names.map .name := by
  induction names using List.reverseRecOn with
  | nil =>
      exact Path.components_join List.not_mem_nil (List.cons_ne_nil '.' []).symm
  | append_singleton ns n ih =>
      have hns : ∀ m ∈ ns, Path.IsName m := fun m hm => h m (List.mem_append_left _ hm)
      have hn := h n (by simp)
      rw [pathBelow_concat, Path.join_join (isAbsolute_pathBelow_nil hns) hn.slash_not_mem,
        Path.components_join hn.slash_not_mem hn.ne_current, ih hns, hn.ofPiece?]
      simp

theorem countP_pathBelow {P : Char → Bool} (hslash : P '/' = false) (hdot : P '.' = false)
    (root : Path) (h : ∀ n ∈ names, Path.IsName n) :
    (pathBelow root names).text.countP P =
      root.text.countP P + (pathBelow ⟨[]⟩ names).text.countP P := by
  have hempty : (Path.mk []).components = [] := by decide
  rw [Path.countP_text hslash hdot (pathBelow root names),
    Path.countP_text hslash hdot (pathBelow ⟨[]⟩ names), Path.countP_text hslash hdot root,
    components_pathBelow_names root h, components_pathBelow_names _ h, hempty,
    List.nil_append, List.flatMap_append, List.countP_append]

end FileSystem

namespace Scan

open FileSystem (pathBelow)

theorem exists_parse_of_badIgnore? (h : Config.badIgnore? ignores = none)
    (hentry : entry ∈ ignores) : ∃ tokens, Glob.parse entry = .ok tokens := by
  have hnone := List.findSome?_eq_none_iff.mp h entry hentry
  cases hparse : Glob.parse entry with
  | ok tokens => exact ⟨tokens, rfl⟩
  | error e => simp [hparse] at hnone

theorem spells_of_not_isGlob (hglob : ¬isGlob entry = true)
    (hparse : Glob.parse entry = .ok tokens) : Glob.Spells entry tokens := by
  rw [isGlob_iff, not_or] at hglob
  exact Glob.spells_of_tokensFrom hglob.1 hglob.2 hparse

theorem isAbsolute_of_matches (hspells : Glob.Spells entry tokens)
    (hnames : ∀ n ∈ names, Path.IsName n)
    (hmatch : Glob.Token.matchAll tokens (pathBelow ⟨[]⟩ names).text = true) :
    (Path.mk entry).isAbsolute = false := by
  rw [Path.isAbsolute, beq_eq_false_iff_ne]
  intro hslash
  have hhead := hspells.head?_eq (by simp [hslash]) hmatch
  have habsolute := FileSystem.isAbsolute_pathBelow_nil hnames
  simp [Path.isAbsolute, hhead, hslash] at habsolute

/-- As a path, a pattern without wildcards leads to the files that it matches only if it has
no class of characters. -/
theorem startsWith_join_iff (root : Path) (hspells : Glob.Spells entry tokens)
    (hnames : ∀ n ∈ names, Path.IsName n)
    (hmatch : Glob.Token.matchAll tokens (pathBelow ⟨[]⟩ names).text = true) :
    (pathBelow root names).startsWith (root.join ⟨entry⟩) = true ↔ '[' ∉ entry := by
  constructor
  · intro hstarts hopen
    -- The path of the entry has more brackets below the root than the path of the file.
    have hlt := (hspells.countP_isBracket hmatch).2 hopen
    have hle := Path.countP_le_of_startsWith (P := Glob.isBracket) rfl rfl hstarts
    rw [Path.countP_join rfl (isAbsolute_of_matches hspells hnames hmatch),
      FileSystem.countP_pathBelow rfl rfl root hnames] at hle
    exact absurd (Nat.le_of_add_le_add_left hle) (Nat.not_le_of_lt hlt)
  · intro hopen
    have htext : (pathBelow ⟨[]⟩ names).text = entry := (hspells.matchAll_iff hopen).mp hmatch
    rw [← htext, Path.startsWith, FileSystem.components_join_pathBelow root hnames,
      FileSystem.components_pathBelow_names root hnames]
    exact List.isPrefixOf_iff_prefix.mpr List.prefix_rfl

/-- An entry that matches a file as a pattern ignores it unless it opens a class of
characters without having a wildcard. -/
theorem ignoredBy_iff_of_matches (root : Path) (hnames : ∀ n ∈ names, Path.IsName n)
    (hparse : Glob.parse entry = .ok tokens)
    (hmatch : Glob.Token.matchAll tokens (pathBelow ⟨[]⟩ names).text = true) :
    ignoredBy root (pathBelow root names) entry = true ↔
      isGlob entry = true ∨ '[' ∉ entry := by
  by_cases hglob : isGlob entry = true
  · have hrelative := FileSystem.relativeTo?_pathBelow root hnames
    have hignored : ignoredBy root (pathBelow root names) entry = true :=
      (ignoredBy_of_isGlob hglob).mpr ⟨tokens, hparse, .inr ⟨_, hrelative, hmatch⟩⟩
    exact iff_of_true hignored (.inl hglob)
  · rw [ignoredBy, if_neg hglob, or_iff_right hglob]
    exact startsWith_join_iff root (spells_of_not_isGlob hglob hparse) hnames hmatch

/-- A scan leaves out every file that an entry of a valid ignore list matches as a pattern,
unless the entry opens a class of characters without having a wildcard.  Such an entry
ignores none of the files that it matches. -/
theorem ignores_honoured (hvalid : Config.badIgnore? ignores = none)
    (hwalk : FileSystem.IsWalk root walk) :
    ∀ entry ∈ ignores, ∃ tokens, Glob.parse entry = .ok tokens ∧
      ∀ path relative, .file path ∈ walk → path.relativeTo? root = some relative →
        Glob.Token.matchAll tokens relative.text = true →
          (ignoredBy root path entry = true ↔ isGlob entry = true ∨ '[' ∉ entry) ∧
            (isGlob entry = true ∨ '[' ∉ entry →
              ∀ s ∈ (ofWalk root ignores walk).sources, s.path ≠ path) := by
  intro entry hentry
  obtain ⟨tokens, hparse⟩ := exists_parse_of_badIgnore? hvalid hentry
  refine ⟨tokens, hparse, ?_⟩
  intro path relative hfile hrelative hmatch
  obtain ⟨names, hnames, rfl⟩ := hwalk path hfile
  rw [FileSystem.relativeTo?_pathBelow root hnames] at hrelative
  obtain rfl := Option.some.inj hrelative
  have hiff := ignoredBy_iff_of_matches root hnames hparse hmatch
  refine ⟨hiff, ?_⟩
  intro hhonoured s hs hpath
  obtain ⟨-, hkept, -⟩ := mem_sources_ofWalk.mp hs
  have hignored : isIgnored root ignores s.path = true :=
    List.any_eq_true.mpr ⟨entry, hentry, hpath ▸ hiff.mpr hhonoured⟩
  exact Bool.false_ne_true (hkept.symm.trans hignored)

/-- Two bundle files next to each other. -/
def twoFiles : FileSystem where
  current := []
  entries := [(["res"], .directory), (["res", "a.properties"], .file []),
    (["res", "b.properties"], .file [])]

theorem isWalk_twoFiles : FileSystem.IsWalk ⟨"res"⟩ (twoFiles.walk ⟨"res"⟩) := by
  apply FileSystem.isWalk_walk
  decide +kernel

theorem ignores_honoured_twoFiles :
    Config.badIgnore? ["[a]*", "b.properties"] = none ∧
      Path.mk "res/a.properties" ∉
        (ofWalk ⟨"res"⟩ ["[a]*", "b.properties"] (twoFiles.walk ⟨"res"⟩)).sources.map
          Source.path := by
  have hvalid : Config.badIgnore? ["[a]*", "b.properties"] = none := by decide +kernel
  have htokens : Glob.parse "[a]*" = .ok [.within [⟨'a', 'a'⟩], .anySequence] := by
    decide +kernel
  obtain ⟨tokens, hparse, h⟩ := ignores_honoured hvalid isWalk_twoFiles "[a]*" (by decide)
  obtain rfl := Except.ok.inj (hparse.symm.trans htokens)
  have hkept := (h ⟨"res/a.properties"⟩ ⟨"a.properties"⟩ (by decide +kernel)
    (by decide +kernel) (by decide +kernel)).2 (by decide +kernel)
  refine ⟨hvalid, fun hmem => ?_⟩
  obtain ⟨s, hs, hpath⟩ := List.mem_map.mp hmem
  exact hkept s hs hpath

/-- A valid entry matches a file as a pattern, and the file is not left out. -/
theorem class_not_ignored :
    Config.badIgnore? ["[a].properties"] = none ∧
      (Glob.parse "[a].properties").map (Glob.Token.matchAll · "a.properties") = .ok true ∧
      (Path.mk "res/a.properties").relativeTo? ⟨"res"⟩ = some ⟨"a.properties"⟩ ∧
      ⟨"a", ⟨"res/a.properties"⟩⟩ ∈
        (ofWalk ⟨"res"⟩ ["[a].properties"] (twoFiles.walk ⟨"res"⟩)).sources := by
  refine ⟨?_, ?_, ?_, mem_sources_ofWalk.mpr ?_⟩ <;> decide +kernel

end Scan
end ResourceBundles
