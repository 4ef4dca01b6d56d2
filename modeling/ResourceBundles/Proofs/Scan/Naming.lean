import ResourceBundles.Scan
import ResourceBundles.Proofs.Path

/-!
# Names of scanned bundles

A scan names a bundle after the pieces of its path below the source root, and the path of
a name has one piece for every segment.  The two agree where neither a directory nor the
file, apart from its extension, has a dot in its name.  Any other bundle is given a name
that leads to another path, which may be the path of another bundle.
-/

namespace ResourceBundles

variable {root path path' : Path} {names dirs ns segments : List Text} {n stem name : Text}

namespace FileSystem

/-! ## Paths below a root -/

theorem pathBelow_concat (root : Path) (ns : List Text) (n : Text) :
    pathBelow root (ns ++ [n]) = (pathBelow root ns).join ⟨n⟩ := by
  rw [pathBelow, List.foldl_append]
  rfl

theorem isAbsolute_pathBelow (h : ∀ n ∈ ns, '/' ∉ n) :
    (pathBelow root ns).isAbsolute = root.isAbsolute := by
  induction ns generalizing root with
  | nil => rfl
  | cons n ns ih =>
      obtain ⟨hn, hns⟩ := List.forall_mem_cons.mp h
      exact (ih hns).trans (Path.isAbsolute_join hn)

theorem isAbsolute_pathBelow_of_absolute (h : root.isAbsolute = true) (ns : List Text) :
    (pathBelow root ns).isAbsolute = true := by
  induction ns generalizing root with
  | nil => exact h
  | cons n ns ih => exact ih (Path.isAbsolute_join_of_absolute h)

/-- What stands in front of an absolute path counts no more. -/
theorem pathBelow_append_absolute (h : (Path.mk n).isAbsolute = true) (dirs ns : List Text) :
    pathBelow root (dirs ++ n :: ns) = pathBelow ⟨n⟩ ns := by
  rw [pathBelow, List.foldl_append, List.foldl_cons, Path.join, if_pos h]
  rfl

theorem frontPieces_pathBelow (h : ∀ n ∈ ns, '/' ∉ n ∧ n ≠ []) :
    (pathBelow root ns).frontPieces = root.frontPieces ++ ns := by
  induction ns generalizing root with
  | nil => exact (List.append_nil _).symm
  | cons n ns ih =>
      obtain ⟨hn, hns⟩ := List.forall_mem_cons.mp h
      change (pathBelow (root.join ⟨n⟩) ns).frontPieces = _
      rw [ih hns, Path.frontPieces_join hn.1 hn.2, List.append_assoc, List.singleton_append]

/-- Relative paths joined to a root add their components, if none starts with a dot. -/
theorem components_pathBelow_of_relative
    (h : ∀ n ∈ ns, (Path.mk n).isAbsolute = false ∧ (Path.mk n).pieces.head? ≠ some ['.']) :
    (pathBelow root ns).components =
      root.components ++ ns.flatMap fun n => (Path.mk n).components := by
  induction ns generalizing root with
  | nil => exact (List.append_nil _).symm
  | cons n ns ih =>
      obtain ⟨hn, hns⟩ := List.forall_mem_cons.mp h
      change (pathBelow (root.join ⟨n⟩) ns).components = _
      rw [ih hns, Path.components_join_of_relative hn.1 hn.2, List.append_assoc]
      rfl

theorem components_pathBelow (h : ∀ n ∈ ns, '/' ∉ n ∧ n ≠ ['.']) :
    (pathBelow root ns).components =
      root.components ++ ns.filterMap (Path.Component.ofPiece? false) := by
  have hpiece := fun n hn => Path.components_of_piece (h n hn).1 (h n hn).2
  rw [components_pathBelow_of_relative, List.filterMap_eq_flatMap_toList]
  · exact congrArg (root.components ++ ·) (List.flatMap_congr fun n hn => (hpiece n hn).2)
  · exact fun n hn => ⟨Path.isAbsolute_eq_false (h n hn).1, (hpiece n hn).1⟩

theorem components_pathBelow_names (root : Path) (h : ∀ n ∈ names, Path.IsName n) :
    (pathBelow root names).components = root.components ++ names.map .name := by
  rw [components_pathBelow fun n hn => ⟨(h n hn).slash_not_mem, (h n hn).ne_current⟩,
    List.filterMap_congr fun n hn => (h n hn).ofPiece?, List.filterMap_eq_map']

/-- The path of some names alone has them as its pieces. -/
theorem pathBelow_nil (h : ∀ n ∈ names, Path.IsName n) :
    pathBelow ⟨[]⟩ names = Path.ofPieces false names := by
  rcases List.eq_nil_or_concat' names with rfl | ⟨ns, n, rfl⟩
  · rfl
  · have hns : ∀ m ∈ ns, Path.IsName m := fun m hm => h m (List.mem_append_left _ hm)
    have hn := h n (by simp)
    rw [pathBelow_concat, Path.join_eq_ofPieces hn.slash_not_mem,
      isAbsolute_pathBelow fun m hm => (hns m hm).slash_not_mem,
      frontPieces_pathBelow fun m hm => ⟨(hns m hm).slash_not_mem, (hns m hm).ne_nil⟩]
    rfl

theorem relativeTo?_pathBelow (root : Path) (h : ∀ n ∈ names, Path.IsName n) :
    (pathBelow root names).relativeTo? root = some (pathBelow ⟨[]⟩ names) := by
  rw [Path.relativeTo?_of_append (components_pathBelow_names root h), pathBelow_nil h]
  cases names with
  | nil => rfl
  | cons n names => simp [Path.ofComponents, Path.Component.text, Function.comp_def]

end FileSystem

namespace Source

open FileSystem (pathBelow)

/-! ## Names -/

theorem dot_not_mem_extension : '.' ∉ extension := by decide

theorem isName_file (h : '/' ∉ stem) : Path.IsName (stem ++ '.' :: extension) := by
  apply Path.isName_of_length
  · rw [List.length_append, List.length_cons, show extension.length = 10 from rfl]
    omega
  · have hextension : '/' ∉ extension := by decide
    simp [h, hextension]

theorem nameOf?_eq {relative : Path} {cs : List Path.Component}
    (h : path.relativeTo? root = some relative) (hcs : relative.withoutExtension.components = cs)
    (hne : cs ≠ []) : nameOf? root path = some (['.'].intercalate (cs.map Path.Component.text)) := by
  rw [nameOf?, h, Option.bind_some, hcs]
  cases cs with
  | nil => exact absurd rfl hne
  | cons c cs => rfl

/-- The name of a file is made of the names of its directories and of its own without its
extension. -/
theorem nameOf?_pathBelow (root : Path) (hdirs : ∀ n ∈ dirs, Path.IsName n)
    (hslash : '/' ∉ stem) (hne : stem ≠ []) :
    nameOf? root (pathBelow root (dirs ++ [stem ++ '.' :: extension])) =
      some (['.'].intercalate (dirs ++ [Path.bare stem])) := by
  have hfile := isName_file hslash
  have hnames : ∀ n ∈ dirs ++ [stem ++ '.' :: extension], Path.IsName n := by
    simpa [or_imp, forall_and, hfile] using hdirs
  obtain ⟨c, hc, htext⟩ := Path.exists_ofPiece? false (Path.bare_ne_nil hne)
    (Path.bare_ne_current stem)
  have hrelative := FileSystem.relativeTo?_pathBelow root hnames
  have hcomponents :
      (pathBelow ⟨[]⟩ (dirs ++ [stem ++ '.' :: extension])).withoutExtension.components =
        dirs.map .name ++ [c] := by
    rw [FileSystem.pathBelow_concat, Path.withoutExtension_join hfile hne dot_not_mem_extension,
      Path.components_join (Path.slash_not_mem_bare hslash) (Path.bare_ne_current stem),
      FileSystem.components_pathBelow_names _ hdirs, hc]
    rfl
  have htexts : (dirs.map Path.Component.name ++ [c]).map Path.Component.text =
      dirs ++ [Path.bare stem] := by
    rw [List.map_append, List.map_map, List.map_singleton, htext]
    exact congrArg (· ++ [Path.bare stem]) (List.map_id dirs)
  rw [nameOf?_eq hrelative hcomponents (by simp), htexts]

example : nameOf? ⟨"r"⟩ ⟨"r/a/..properties"⟩ = some "a..." := by decide +kernel

theorem ne_nil_of_nameOf? (h : nameOf? root (pathBelow root names) = some name) : names ≠ [] := by
  rintro rfl
  have hrelative := FileSystem.relativeTo?_pathBelow root (List.forall_mem_nil Path.IsName)
  have hcomponents : (pathBelow ⟨[]⟩ []).withoutExtension.components = [] := by decide
  rw [nameOf?, hrelative, Option.bind_some, hcomponents] at h
  exact Option.some_ne_none name h.symm

theorem slash_not_mem_of_nameOf? (hnames : ∀ n ∈ names, Path.IsName n)
    (hbundle : isBundleFile (pathBelow root names) = true)
    (h : nameOf? root (pathBelow root names) = some name) : '/' ∉ name := by
  obtain ⟨dirs, file, rfl⟩ := (List.eq_nil_or_concat' names).resolve_left (ne_nil_of_nameOf? h)
  have hdirs : ∀ n ∈ dirs, Path.IsName n := fun n hn => hnames n (List.mem_append_left _ hn)
  have hfile := hnames file (by simp)
  rw [isBundleFile, FileSystem.pathBelow_concat, Path.extension?_join hfile, beq_iff_eq] at hbundle
  obtain ⟨stem, hne, -, rfl⟩ := Path.eq_of_splitExtension hbundle
  have hstem : '/' ∉ stem := fun hs => hfile.slash_not_mem (List.mem_append_left _ hs)
  rw [nameOf?_pathBelow root hdirs hstem hne] at h
  obtain rfl := Option.some.inj h
  apply Lists.not_mem_intercalate (by decide)
  intro part hpart
  rcases List.mem_append.mp hpart with hpart | hpart
  · exact (hdirs part hpart).slash_not_mem
  · exact List.mem_singleton.mp hpart ▸ Path.slash_not_mem_bare hstem

/-- A text that can be a segment of a name and a part of a path. -/
structure IsSegment (n : Text) : Prop where
  ne_nil : n ≠ []
  dot_not_mem : '.' ∉ n
  slash_not_mem : '/' ∉ n

instance : Decidable (IsSegment n) :=
  decidable_of_iff (n ≠ [] ∧ '.' ∉ n ∧ '/' ∉ n)
    ⟨fun ⟨h, hdot, hslash⟩ => ⟨h, hdot, hslash⟩,
      fun h => ⟨h.ne_nil, h.dot_not_mem, h.slash_not_mem⟩⟩

theorem IsSegment.isName (h : IsSegment n) : Path.IsName n where
  ne_nil := h.ne_nil
  ne_current := by
    rintro rfl
    exact h.dot_not_mem List.mem_cons_self
  ne_parent := by
    rintro rfl
    exact h.dot_not_mem List.mem_cons_self
  slash_not_mem := h.slash_not_mem

/-- A path below a root in which only the extension of the file has a dot in front. -/
def Addressable (root path : Path) : Prop :=
  ∃ dirs stem, (∀ n ∈ dirs, IsSegment n) ∧ IsSegment stem ∧
    path = pathBelow root (dirs ++ [stem ++ '.' :: extension])

theorem pathOf_eq (root : Path) (name : Text) :
    pathOf root name = (pathBelow root (Dotted.segments name)).setExtension extension := rfl

theorem rename_of_not_mem (h : '.' ∉ stem) :
    Path.rename stem extension = stem ++ '.' :: extension := by
  rw [Path.rename, Path.splitExtension_of_not_mem h]
  rfl

/-- The name of segments leads to the file of those names. -/
theorem pathOf_intercalate (hdirs : ∀ n ∈ dirs, IsSegment n) (hstem : IsSegment stem) :
    pathOf root (['.'].intercalate (dirs ++ [stem])) =
      pathBelow root (dirs ++ [stem ++ '.' :: extension]) := by
  have hdots : ∀ n ∈ dirs ++ [stem], '.' ∉ n := by
    simpa [or_imp, forall_and, hstem.dot_not_mem] using fun n hn => (hdirs n hn).dot_not_mem
  have hrename := rename_of_not_mem hstem.dot_not_mem
  have hslash := (isName_file hstem.slash_not_mem).slash_not_mem
  rw [pathOf_eq, Dotted.segments, List.splitOn_intercalate '.' hdots (by simp),
    FileSystem.pathBelow_concat, Path.setExtension_join hstem.isName (hrename.symm ▸ hslash),
    hrename, FileSystem.pathBelow_concat]

theorem nameOf?_of_segments (root : Path) (hdirs : ∀ n ∈ dirs, IsSegment n)
    (hstem : IsSegment stem) :
    nameOf? root (pathBelow root (dirs ++ [stem ++ '.' :: extension])) =
      some (['.'].intercalate (dirs ++ [stem])) := by
  have hbare : Path.bare stem = stem := Path.bare_of_ne hstem.isName.ne_current
  have hname := nameOf?_pathBelow root (fun n hn => (hdirs n hn).isName)
    hstem.slash_not_mem hstem.ne_nil
  rwa [hbare] at hname

/-! ## Paths of names -/

theorem isSegment_of_mem (hname : '/' ∉ name) (hn : n ∈ Dotted.segments name) (hne : n ≠ []) :
    IsSegment n where
  ne_nil := hne
  dot_not_mem h := (Lists.of_mem_splitOn hn h).2 rfl
  slash_not_mem h := hname (Lists.of_mem_splitOn hn h).1

/-- Empty segments of a name leave no component in its path. -/
theorem components_pathBelow_segments (root : Path) (hname : '/' ∉ name) :
    (pathBelow root (Dotted.segments name)).components =
      root.components ++ ((Dotted.segments name).filter (· ≠ [])).map .name := by
  have hdot : ∀ n ∈ Dotted.segments name, '.' ∉ n :=
    fun n hn h => (Lists.of_mem_splitOn hn h).2 rfl
  rw [FileSystem.components_pathBelow, Path.filterMap_ofPiece? hdot]
  intro n hn
  refine ⟨fun h => hname (Lists.of_mem_splitOn hn h).1, ?_⟩
  rintro rfl
  exact hdot _ hn List.mem_cons_self

/-- Names without slashes lead to no other files below the root than the addressable ones. -/
theorem addressable_of_components_eq (hname : '/' ∉ name) (hnames : ∀ n ∈ names, Path.IsName n)
    (hne : names ≠ [])
    (h : (pathOf root name).components = (pathBelow root names).components) :
    Addressable root (pathBelow root names) := by
  have hbase := components_pathBelow_segments root hname
  rw [pathOf_eq, FileSystem.components_pathBelow_names root hnames] at h
  rcases List.eq_nil_or_concat' ((Dotted.segments name).filter (· ≠ [])) with hns | ⟨ns, n, hns⟩
  · -- Without a segment the name leads to the root, or to the root with another extension.
    have hlength := congrArg List.length h
    rw [Path.length_components_setExtension (by decide) (by decide), hbase, hns] at hlength
    simp [hne] at hlength
  · have hsegment : ∀ m ∈ ns ++ [n], IsSegment m := by
      intro m hm
      rw [← hns, List.mem_filter] at hm
      exact isSegment_of_mem hname hm.1 (by simpa using hm.2)
    have hn := hsegment n (by simp)
    have hrename := rename_of_not_mem hn.dot_not_mem
    rw [hns, List.map_append, List.map_singleton, ← List.append_assoc] at hbase
    rw [Path.components_setExtension hbase (hrename.symm ▸ isName_file hn.slash_not_mem), hrename,
      List.append_assoc, ← List.map_singleton, ← List.map_append] at h
    have heq := Path.eq_of_map_name (List.append_cancel_left h)
    exact ⟨ns, n, fun m hm => hsegment m (List.mem_append_left _ hm), hn, heq ▸ rfl⟩

end Source

/-! ## Walks -/

namespace FileSystem

/-- The files of a walk lie below its root, behind the names of their directories. -/
def IsWalk (root : Path) (walk : List WalkEntry) : Prop :=
  ∀ path, .file path ∈ walk → ∃ names, (∀ n ∈ names, Path.IsName n) ∧ path = pathBelow root names

theorem walkEntry_eq_file {c : Content} (h : walkEntry path c = .file path') : path = path' := by
  cases c with
  | file bytes => exact WalkEntry.file.inj h
  | directory => exact absurd h WalkEntry.noConfusion

theorem isWalk_walk (fs : FileSystem) (h : ∀ e ∈ fs.entries, ∀ n ∈ e.1, Path.IsName n)
    (root : Path) : IsWalk root (fs.walk root) := by
  intro path hpath
  rw [walk] at hpath
  cases hl : fs.locate root with
  | error e => simp [hl] at hpath
  | ok l =>
      rw [hl] at hpath
      rcases List.mem_append.mp hpath with hpath | hpath
      · obtain ⟨c, -, hc⟩ := List.mem_map.mp hpath
        exact ⟨[], by simp, (walkEntry_eq_file hc).symm⟩
      · obtain ⟨⟨l', c⟩, hentry, hc⟩ := List.mem_filterMap.mp hpath
        obtain ⟨-, hc⟩ := Option.ite_none_right_eq_some.mp hc
        refine ⟨l'.drop l.length, ?_, (walkEntry_eq_file (Option.some.inj hc)).symm⟩
        exact fun n hn => h _ hentry n (List.mem_of_mem_drop hn)

end FileSystem

namespace Scan

variable {ignores : List Text} {walk : List WalkEntry} {s : Source}

theorem mem_sources_ofEntry {entry : WalkEntry} :
    s ∈ (ofEntry root ignores entry).sources ↔
      entry = .file s.path ∧ isIgnored root ignores s.path = false ∧
        Source.isBundleFile s.path = true ∧ Source.nameOf? root s.path = some s.name := by
  cases entry with
  | inaccessible path error => simp [ofEntry, empty]
  | directory path => simp [ofEntry, empty]
  | file path =>
      rw [ofEntry, WalkEntry.file.injEq]
      by_cases hskip : (isIgnored root ignores path || !Source.isBundleFile path) = true
      · rw [if_pos hskip]
        constructor
        · exact fun h => absurd h List.not_mem_nil
        · rintro ⟨rfl, hignored, hbundle, -⟩
          simp [hignored, hbundle] at hskip
      · rw [if_neg hskip]
        have hkeep : isIgnored root ignores path = false ∧ Source.isBundleFile path = true := by
          simpa using hskip
        constructor
        · intro h
          cases hn : Source.nameOf? root path with
          | none => simp [hn, empty] at h
          | some n =>
              obtain rfl : s = ⟨n, path⟩ := by simpa [hn] using h
              exact ⟨rfl, hkeep.1, hkeep.2, hn⟩
        · rintro ⟨rfl, -, -, hn⟩
          simp [hn]

theorem mem_sources_ofWalk :
    s ∈ (ofWalk root ignores walk).sources ↔
      .file s.path ∈ walk ∧ isIgnored root ignores s.path = false ∧
        Source.isBundleFile s.path = true ∧ Source.nameOf? root s.path = some s.name := by
  rw [ofWalk, List.mem_mergeSort, List.mem_flatMap]
  constructor
  · rintro ⟨part, hpart, hs⟩
    obtain ⟨entry, hentry, rfl⟩ := List.mem_map.mp hpart
    obtain ⟨rfl, hrest⟩ := mem_sources_ofEntry.mp hs
    exact ⟨hentry, hrest⟩
  · rintro ⟨hentry, hrest⟩
    exact ⟨_, List.mem_map_of_mem hentry, mem_sources_ofEntry.mpr ⟨rfl, hrest⟩⟩

/-- A scanned bundle is addressed by its name exactly if only the extension of its path has
a dot in front, and among such bundles no name stands for two. -/
theorem addressed_by_name (hwalk : FileSystem.IsWalk root walk) :
    (∀ s ∈ (ofWalk root ignores walk).sources,
        (Source.ofName root s.name).path.components = s.path.components ↔
          Source.Addressable root s.path) ∧
      (∀ s ∈ (ofWalk root ignores walk).sources,
        Source.Addressable root s.path → Source.ofName root s.name = s) ∧
      ∀ s ∈ (ofWalk root ignores walk).sources, ∀ s' ∈ (ofWalk root ignores walk).sources,
        Source.Addressable root s.path → Source.Addressable root s'.path →
          s.name = s'.name → s = s' := by
  have hself : ∀ s ∈ (ofWalk root ignores walk).sources,
      Source.Addressable root s.path → Source.ofName root s.name = s := by
    intro s hs haddressable
    obtain ⟨-, -, -, hname⟩ := mem_sources_ofWalk.mp hs
    obtain ⟨dirs, stem, hdirs, hstem, hpath⟩ := haddressable
    rw [hpath, Source.nameOf?_of_segments root hdirs hstem] at hname
    obtain ⟨name, path⟩ := s
    obtain rfl := Option.some.inj hname
    exact congrArg (Source.mk _) ((Source.pathOf_intercalate hdirs hstem).trans hpath.symm)
  refine ⟨?_, hself, ?_⟩
  · intro s hs
    refine ⟨fun h => ?_, fun h => by rw [hself s hs h]⟩
    obtain ⟨hfile, -, hbundle, hname⟩ := mem_sources_ofWalk.mp hs
    obtain ⟨names, hnames, hpath⟩ := hwalk s.path hfile
    rw [hpath] at hbundle hname h ⊢
    have hslash := Source.slash_not_mem_of_nameOf? hnames hbundle hname
    exact Source.addressable_of_components_eq hslash hnames (Source.ne_nil_of_nameOf? hname) h
  · intro s hs s' hs' h h' hname
    rw [← hself s hs h, ← hself s' hs' h', hname]

/-- A bundle file in a directory, and one that is named like it but for a dot. -/
def dottedFiles : FileSystem where
  current := []
  entries := [(["res"], .directory), (["res", "a"], .directory),
    (["res", "a", "b.properties"], .file []), (["res", "a.b.properties"], .file [])]

theorem addressed_by_name_dottedFiles :
    Source.ofName ⟨"res"⟩ "a.b" = ⟨"a.b", ⟨"res/a/b.properties"⟩⟩ := by
  have hwalk : FileSystem.IsWalk ⟨"res"⟩ (dottedFiles.walk ⟨"res"⟩) := by
    apply FileSystem.isWalk_walk
    decide +kernel
  have hs : ⟨"a.b", ⟨"res/a/b.properties"⟩⟩ ∈
      (ofWalk ⟨"res"⟩ [] (dottedFiles.walk ⟨"res"⟩)).sources :=
    mem_sources_ofWalk.mpr (by decide +kernel)
  have haddressable : Source.Addressable ⟨"res"⟩ ⟨"res/a/b.properties"⟩ := by
    refine ⟨["a"], "b", ?_, ⟨by decide, by decide, by decide⟩, by decide +kernel⟩
    intro n hn
    obtain rfl := List.mem_singleton.mp hn
    exact ⟨by decide, by decide, by decide⟩
  exact (addressed_by_name hwalk).2.1 _ hs haddressable

/-- The other file has the same name, which does not lead to it. -/
theorem name_dottedFiles_ambiguous :
    ⟨"a.b", ⟨"res/a/b.properties"⟩⟩ ∈ (ofWalk ⟨"res"⟩ [] (dottedFiles.walk ⟨"res"⟩)).sources ∧
      ⟨"a.b", ⟨"res/a.b.properties"⟩⟩ ∈
        (ofWalk ⟨"res"⟩ [] (dottedFiles.walk ⟨"res"⟩)).sources ∧
      (Source.ofName ⟨"res"⟩ "a.b").path.components ≠
        (Path.mk "res/a.b.properties").components := by
  refine ⟨mem_sources_ofWalk.mpr ?_, mem_sources_ofWalk.mpr ?_, ?_⟩ <;> decide +kernel

end Scan
end ResourceBundles
