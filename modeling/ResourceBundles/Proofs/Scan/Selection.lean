import ResourceBundles.Settings
import ResourceBundles.Proofs.Scan.Naming
import Mathlib.Data.List.Perm.Basic

/-!
# The selection of a scan

A scan selects the bundle files below its root that no entry of the ignore list excludes.  What
it selects is a property of every path alone, so that the order of a walk shows at most in the
order of what is found.  Sorting takes that away if the walk comes across every file once.
-/

namespace ResourceBundles

variable {root path : Path} {ignores : List Text} {entry : Text} {e : WalkEntry}
  {walk walk' : List WalkEntry}

/-- The path of an entry that is a file. -/
def WalkEntry.file? : WalkEntry → Option Path
  | .file path => some path
  | .directory _ => none
  | .inaccessible _ _ => none

/-! ## Names of bundle files -/

namespace Source

theorem exists_components_of_extension? (h : path.extension? = some extension) :
    ∃ cs stem, stem ≠ [] ∧ '/' ∉ stem ∧
      path.components = cs ++ [.name (stem ++ '.' :: extension)] := by
  obtain ⟨file, hfile, hextension⟩ := Option.bind_eq_some_iff.mp h
  obtain ⟨stem, hne, -, rfl⟩ := Path.eq_of_splitExtension hextension
  obtain ⟨cs, hcs⟩ := Path.fileName?_eq_some_iff.mp hfile
  have hslash := Path.slash_not_mem_of_components hcs
  exact ⟨cs, stem, hne, fun hmem => hslash (List.mem_append_left _ hmem), hcs⟩

/-- A bundle file has a name exactly if it lies below the root. -/
theorem isSome_nameOf?_iff (h : path.extension? = some extension) :
    (nameOf? root path).isSome = true ↔ path.IsBelow root := by
  rw [Path.isBelow_iff]
  constructor
  · intro hsome
    obtain ⟨name, hname⟩ := Option.isSome_iff_exists.mp hsome
    obtain ⟨relative, hrelative, hname⟩ := Option.bind_eq_some_iff.mp hname
    obtain ⟨hstarts, -⟩ := Option.ite_none_right_eq_some.mp hrelative
    obtain ⟨rest, hrest⟩ := List.isPrefixOf_iff_prefix.mp hstarts
    refine ⟨rest, ?_, hrest.symm⟩
    rintro rfl
    -- The root itself has no component left from which a name could be made.
    have hempty : (Path.ofComponents []).withoutExtension.components = [] := by decide
    rw [Path.relativeTo?_of_append hrest.symm] at hrelative
    obtain rfl := Option.some.inj hrelative
    rw [hempty] at hname
    exact absurd hname (Option.some_ne_none name).symm
  · rintro ⟨rest, hne, hrest⟩
    obtain ⟨cs, stem, hstem, hslash, hcs⟩ := exists_components_of_extension? h
    obtain ⟨front, c, rfl⟩ := (List.eq_nil_or_concat' rest).resolve_left hne
    have hlast : c = .name (stem ++ '.' :: extension) := by
      rw [← List.append_assoc] at hrest
      exact List.singleton_inj.mp (List.append_inj_right' (hrest.symm.trans hcs) rfl)
    subst hlast
    have hfile := isName_file hslash
    obtain ⟨q, hq⟩ := Path.exists_join_eq_ofComponents front hfile.slash_not_mem
    have hrelative := Path.relativeTo?_of_append hrest
    rw [← hq] at hrelative
    obtain ⟨c, hc, -⟩ := Path.exists_ofPiece? false (Path.bare_ne_nil hstem)
      (Path.bare_ne_current stem)
    have hcomponents : (q.join ⟨stem ++ '.' :: extension⟩).withoutExtension.components =
        q.components ++ [c] := by
      rw [Path.withoutExtension_join hfile hstem dot_not_mem_extension,
        Path.components_join (Path.slash_not_mem_bare hslash) (Path.bare_ne_current stem), hc]
      rfl
    rw [nameOf?_eq hrelative hcomponents (by simp)]
    rfl

end Source

namespace Scan

/-! ## Excluded paths -/

/-- A path that an ignore list excludes: it lies at or below a path of the list, or it matches
one of the patterns of the list, as a whole or without the root.  A malformed pattern excludes
nothing. -/
inductive Excluded (root : Path) (ignores : List Text) (path : Path) : Prop where
  | under {entry : Text} (hentry : entry ∈ ignores) (hstar : '*' ∉ entry) (hmark : '?' ∉ entry)
      (hstarts : path.startsWith (root.join ⟨entry⟩) = true)
  | matched {entry : Text} {tokens : List Glob.Token} (hentry : entry ∈ ignores)
      (hglob : '*' ∈ entry ∨ '?' ∈ entry) (hparse : Glob.parse entry = .ok tokens)
      (hmatch : Glob.Token.matchAll tokens path.text = true ∨
        ∃ relative, path.relativeTo? root = some relative ∧
          Glob.Token.matchAll tokens relative.text = true)

theorem isGlob_iff : isGlob entry = true ↔ '*' ∈ entry ∨ '?' ∈ entry := by
  simp [isGlob]

theorem ignoredBy_of_isGlob (hglob : isGlob entry = true) :
    ignoredBy root path entry = true ↔ ∃ tokens, Glob.parse entry = .ok tokens ∧
      (Glob.Token.matchAll tokens path.text = true ∨
        ∃ relative, path.relativeTo? root = some relative ∧
          Glob.Token.matchAll tokens relative.text = true) := by
  rw [ignoredBy, if_pos hglob]
  cases Glob.parse entry with
  | error error => simp
  | ok tokens => cases path.relativeTo? root <;> simp [or_comm]

theorem isIgnored_iff : isIgnored root ignores path = true ↔ Excluded root ignores path := by
  rw [isIgnored, List.any_eq_true]
  constructor
  · rintro ⟨entry, hentry, hignored⟩
    by_cases hglob : isGlob entry = true
    · obtain ⟨tokens, hparse, hmatch⟩ := (ignoredBy_of_isGlob hglob).mp hignored
      exact .matched hentry (isGlob_iff.mp hglob) hparse hmatch
    · rw [ignoredBy, if_neg hglob] at hignored
      rw [isGlob_iff, not_or] at hglob
      exact .under hentry hglob.1 hglob.2 hignored
  · intro h
    cases h with
    | @under entry hentry hstar hmark hstarts =>
        have hglob : ¬isGlob entry = true := by simp [isGlob_iff, hstar, hmark]
        exact ⟨entry, hentry, by rwa [ignoredBy, if_neg hglob]⟩
    | @matched entry tokens hentry hglob hparse hmatch =>
        exact ⟨entry, hentry, (ignoredBy_of_isGlob (isGlob_iff.mpr hglob)).mpr
          ⟨tokens, hparse, hmatch⟩⟩

/-! ## Selected files -/

/-- A bundle file below the root that is not excluded. -/
structure Selected (root : Path) (ignores : List Text) (path : Path) : Prop where
  extension?_eq : path.extension? = some Source.extension
  isBelow : path.IsBelow root
  not_excluded : ¬Excluded root ignores path

theorem selected_iff :
    Selected root ignores path ↔ isIgnored root ignores path = false ∧
      Source.isBundleFile path = true ∧ (Source.nameOf? root path).isSome = true := by
  rw [← Bool.not_eq_true, isIgnored_iff, Source.isBundleFile, beq_iff_eq]
  constructor
  · rintro ⟨hextension, hbelow, hexcluded⟩
    exact ⟨hexcluded, hextension, (Source.isSome_nameOf?_iff hextension).mpr hbelow⟩
  · rintro ⟨hexcluded, hextension, hname⟩
    exact ⟨hextension, (Source.isSome_nameOf?_iff hextension).mp hname, hexcluded⟩

theorem mem_paths_ofWalk :
    path ∈ (ofWalk root ignores walk).sources.map Source.path ↔
      .file path ∈ walk ∧ Selected root ignores path := by
  rw [List.mem_map, selected_iff]
  constructor
  · rintro ⟨s, hs, rfl⟩
    obtain ⟨hfile, hignored, hbundle, hname⟩ := mem_sources_ofWalk.mp hs
    exact ⟨hfile, hignored, hbundle, hname ▸ rfl⟩
  · rintro ⟨hfile, hignored, hbundle, hsome⟩
    obtain ⟨name, hname⟩ := Option.isSome_iff_exists.mp hsome
    exact ⟨⟨name, path⟩, mem_sources_ofWalk.mpr ⟨hfile, hignored, hbundle, hname⟩, rfl⟩

/-! ## The order of a walk -/

/-- What a scan finds, in the order of the walk. -/
def found (root : Path) (ignores : List Text) (walk : List WalkEntry) : List Source :=
  walk.flatMap fun e => (ofEntry root ignores e).sources

theorem sources_ofWalk :
    (ofWalk root ignores walk).sources = (found root ignores walk).mergeSort fun s s' =>
      (compareOn (fun s : Source => s.path.components) s s').isLE := by
  rw [ofWalk, List.flatMap_map]
  rfl

theorem paths_ofEntry_sublist :
    ((ofEntry root ignores e).sources.map Source.path).Sublist e.file?.toList := by
  cases e with
  | inaccessible path error => exact List.Sublist.refl []
  | directory path => exact List.Sublist.refl []
  | file path =>
      rw [ofEntry]
      split_ifs
      · exact List.nil_sublist _
      · cases Source.nameOf? root path with
        | none => exact List.nil_sublist _
        | some name => exact List.Sublist.refl [path]

theorem paths_found_sublist :
    ((found root ignores walk).map Source.path).Sublist (walk.filterMap WalkEntry.file?) := by
  induction walk with
  | nil => exact List.Sublist.refl []
  | cons e walk ih =>
      have hcons : (e :: walk).filterMap WalkEntry.file? =
          e.file?.toList ++ walk.filterMap WalkEntry.file? := by
        cases hfile : e.file? <;> simp [hfile]
      rw [found, List.flatMap_cons, List.map_append, hcons]
      exact paths_ofEntry_sublist.append ih

/-- Whether a walk comes across every file once. -/
def MeetsOnce (walk : List WalkEntry) : Prop :=
  ((walk.filterMap WalkEntry.file?).map Path.components).Nodup

theorem nodup_components_found (h : MeetsOnce walk) :
    ((found root ignores walk).map fun s => s.path.components).Nodup := by
  have hmap : (found root ignores walk).map (fun s => s.path.components) =
      ((found root ignores walk).map Source.path).map Path.components := by
    rw [List.map_map]
    rfl
  rw [hmap]
  exact (paths_found_sublist.map Path.components).nodup h

theorem pairwise_lt_sources (h : MeetsOnce walk) :
    (ofWalk root ignores walk).sources.Pairwise fun s s' =>
      compare s.path.components s'.path.components = .lt := by
  have hperm : ((ofWalk root ignores walk).sources.map fun s => s.path.components).Perm
      ((found root ignores walk).map fun s => s.path.components) := by
    rw [sources_ofWalk]
    exact (List.mergeSort_perm _ _).map _
  have hne : (ofWalk root ignores walk).sources.Pairwise fun s s' =>
      s.path.components ≠ s'.path.components :=
    List.pairwise_map.mp (hperm.nodup_iff.mpr (nodup_components_found h))
  have hle := Lists.pairwise_mergeSort_cmp (compareOn fun s : Source => s.path.components)
    (found root ignores walk)
  rw [← sources_ofWalk] at hle
  refine (hle.and hne).imp ?_
  rintro s s' ⟨hle, hne⟩
  rcases Ordering.isLE_iff_eq_lt_or_eq_eq.mp hle with hlt | heq
  · exact hlt
  · exact absurd (Std.compare_eq_iff_eq.mp heq) hne

theorem sources_eq_of_perm (h : MeetsOnce walk) (hperm : walk.Perm walk') :
    (ofWalk root ignores walk').sources = (ofWalk root ignores walk).sources := by
  rw [sources_ofWalk, sources_ofWalk]
  refine (Lists.mergeSort_eq_of_perm _ ?_ (hperm.flatMap_right _)).symm
  intro s hs s' hs' heq
  exact List.inj_on_of_nodup_map (nodup_components_found h) hs hs' (Std.compare_eq_iff_eq.mp heq)

theorem skipped_eq_of_perm (hperm : walk.Perm walk') :
    (ofWalk root ignores walk').skipped = (ofWalk root ignores walk).skipped :=
  ((hperm.symm.map _).map _).foldr_eq 0

/-- A scan finds exactly the bundle files below its root that are not excluded, each once and
in the order of their paths.  Neither what it finds nor how much it skips depends on the order
of the walk or on whether the run is verbose. -/
theorem ofWalk_exact (root : Path) (ignores : List Text) (h : MeetsOnce walk) :
    (∀ path, path ∈ (ofWalk root ignores walk).sources.map Source.path ↔
        .file path ∈ walk ∧ Selected root ignores path) ∧
      (∀ s ∈ (ofWalk root ignores walk).sources, Source.nameOf? root s.path = some s.name) ∧
      ((ofWalk root ignores walk).sources.Pairwise fun s s' =>
        compare s.path.components s'.path.components = .lt) ∧
      (∀ walk', walk.Perm walk' →
        (ofWalk root ignores walk').sources = (ofWalk root ignores walk).sources ∧
          (ofWalk root ignores walk').skipped = (ofWalk root ignores walk).skipped) ∧
      ∀ (settings : Settings) (fs : FileSystem), settings.sourceRoot = root →
        settings.config.ignores = ignores → fs.isDirectory root = true → fs.walk root = walk →
          ∀ verbose, { settings with verbose := verbose }.sources fs [] =
            .ok ((ofWalk root ignores walk).sources,
              { settings with verbose := verbose }.scanLog (ofWalk root ignores walk)) := by
  refine ⟨fun path => mem_paths_ofWalk, ?_, pairwise_lt_sources h, ?_, ?_⟩
  · exact fun s hs => (mem_sources_ofWalk.mp hs).2.2.2
  · exact fun walk' hperm => ⟨sources_eq_of_perm h hperm, skipped_eq_of_perm hperm⟩
  · rintro settings fs rfl rfl hdirectory rfl verbose
    rw [Settings.sources, if_neg (by simp), if_pos hdirectory]

/-- A walk that comes across files of every kind. -/
def mixedWalk : List WalkEntry :=
  [.directory ⟨"res"⟩, .file ⟨"res/b.properties"⟩, .inaccessible ⟨"res/d"⟩ .notFound,
    .file ⟨"res/x/c.properties"⟩, .file ⟨"res/a.txt"⟩, .file ⟨"res/a.properties"⟩,
    .file ⟨"res/m_fr.properties"⟩]

theorem ofWalk_exact_mixedWalk :
    let scan := ofWalk ⟨"res"⟩ ["x", "m_*", "a*]["] mixedWalk
    MeetsOnce mixedWalk ∧ Path.mk "res/a.properties" ∈ scan.sources.map Source.path ∧
      Path.mk "res/x/c.properties" ∉ scan.sources.map Source.path ∧
      (ofWalk ⟨"res"⟩ ["x", "m_*", "a*]["] mixedWalk.reverse).sources = scan.sources := by
  intro scan
  have hmeets : MeetsOnce mixedWalk := by
    rw [MeetsOnce]
    decide +kernel
  obtain ⟨hmem, -, -, hperm, -⟩ := ofWalk_exact ⟨"res"⟩ ["x", "m_*", "a*]["] hmeets
  refine ⟨hmeets, (hmem _).mpr ⟨by decide, selected_iff.mpr ?_⟩, fun h => ?_, ?_⟩
  · decide +kernel
  · exact absurd (selected_iff.mp ((hmem _).mp h).2) (by decide +kernel)
  · exact (hperm _ (List.reverse_perm _).symm).1

end Scan
end ResourceBundles
