import ResourceBundles.Proofs.Scan.Naming

/-!
# Paths of named bundles

A name that a user gives is cut at its dots, and every segment is joined to the source root.
A segment may have slashes in it.  It leads on from the path so far unless it starts with a
slash: then it is a path of its own, and the source root counts no more.  Empty segments lead
nowhere, so that a name of dots alone gives the root itself another extension.  All other
names lead to a bundle file below the root, and names of plain segments are read back from it.
-/

namespace ResourceBundles.Source

open FileSystem (pathBelow)

variable {root : Path} {name n stem : Text} {ns dirs : List Text}

/-! ## Segments with slashes -/

/-- Whether a segment of a name leads on from the path in front of it. -/
def Continues (segment : Text) : Prop := (Path.mk segment).isAbsolute = false

instance (segment : Text) : Decidable (Continues segment) :=
  inferInstanceAs (Decidable (_ = _))

/-- The names of the directories and of the file that a bundle name leads through. -/
def stepsOf (name : Text) : List Text :=
  (Dotted.segments name).flatMap fun n => (n.splitOn '/').filter (· ≠ [])

theorem dot_not_mem_of_mem_segments (h : n ∈ Dotted.segments name) : '.' ∉ n :=
  fun hdot => (Lists.of_mem_splitOn h hdot).2 rfl

theorem isSegment_of_mem_stepsOf (h : n ∈ stepsOf name) : IsSegment n := by
  obtain ⟨segment, hsegment, hn⟩ := List.mem_flatMap.mp h
  obtain ⟨hpiece, hne⟩ := List.mem_filter.mp hn
  refine ⟨by simpa using hne, ?_, ?_⟩
  · intro hdot
    exact dot_not_mem_of_mem_segments hsegment (Lists.of_mem_splitOn hpiece hdot).1
  · exact fun hslash => (Lists.of_mem_splitOn hpiece hslash).2 rfl

theorem components_of_segment (hdot : '.' ∉ n) (hn : Continues n) :
    (Path.mk n).pieces.head? ≠ some ['.'] ∧
      (Path.mk n).components = ((n.splitOn '/').filter (· ≠ [])).map .name := by
  have hpieces := Path.pieces_of_relative hn
  have hdots : ∀ m ∈ n.splitOn '/', '.' ∉ m := fun m hm h => hdot (Lists.of_mem_splitOn hm h).1
  have hhead : (Path.mk n).pieces.head? ≠ some ['.'] := by
    rw [hpieces]
    exact fun h => hdots _ (List.mem_of_mem_head? h) List.mem_cons_self
  refine ⟨hhead, ?_⟩
  rw [Path.components_of_relative hn hhead, hpieces, Path.filterMap_ofPiece? hdots]

theorem components_pathBelow_stepsOf (root : Path) (h : ∀ n ∈ Dotted.segments name, Continues n) :
    (pathBelow root (Dotted.segments name)).components =
      root.components ++ (stepsOf name).map .name := by
  have hsegment := fun n (hn : n ∈ Dotted.segments name) =>
    components_of_segment (dot_not_mem_of_mem_segments hn) (h n hn)
  rw [FileSystem.components_pathBelow_of_relative, stepsOf, List.map_flatMap]
  · exact congrArg (root.components ++ ·) (List.flatMap_congr fun n hn => (hsegment n hn).2)
  · exact fun n hn => ⟨h n hn, (hsegment n hn).1⟩

/-- A segment that leads on from another path has a name in it unless it is empty. -/
theorem filter_splitOn_eq_nil_iff (hn : Continues n) :
    (n.splitOn '/').filter (· ≠ []) = [] ↔ n = [] := by
  constructor
  · intro h
    by_contra hne
    obtain ⟨c, t, rfl⟩ := List.exists_cons_of_ne_nil hne
    have hc : c ≠ '/' := by simpa [Continues, Path.isAbsolute] using hn
    have hempty : ∀ m ∈ (c :: t).splitOn '/', c ∉ m := by
      intro m hm
      have hm' : m = [] := by simpa using List.filter_eq_nil_iff.mp h m hm
      exact hm' ▸ List.not_mem_nil
    have hmem := Lists.not_mem_intercalate hc hempty
    rw [List.intercalate_splitOn] at hmem
    exact hmem List.mem_cons_self
  · rintro rfl
    decide

theorem stepsOf_eq_nil_iff (h : ∀ n ∈ Dotted.segments name, Continues n) :
    stepsOf name = [] ↔ ∀ n ∈ Dotted.segments name, n = [] := by
  rw [stepsOf, List.flatMap_eq_nil_iff]
  exact forall₂_congr fun n hn => filter_splitOn_eq_nil_iff (h n hn)

/-! ## Steps below the root -/

/-- The last step of a name becomes the file, and the steps before it its directories. -/
theorem pathOf_of_stepsOf (root : Path) (h : ∀ n ∈ Dotted.segments name, Continues n)
    (hsteps : stepsOf name = dirs ++ [stem]) :
    (pathOf root name).components =
        root.components ++ dirs.map .name ++ [.name (stem ++ '.' :: extension)] ∧
      (pathOf root name).extension? = some extension := by
  have hstem : IsSegment stem := by
    apply isSegment_of_mem_stepsOf
    rw [hsteps]
    exact List.mem_append_right dirs List.mem_cons_self
  have hrename := rename_of_not_mem hstem.dot_not_mem
  have hfile : Path.IsName (Path.rename stem extension) :=
    hrename.symm ▸ isName_file hstem.slash_not_mem
  have hbase : (pathBelow root (Dotted.segments name)).components =
      root.components ++ dirs.map .name ++ [.name stem] := by
    rw [components_pathBelow_stepsOf root h, hsteps, List.map_append, List.append_assoc]
    rfl
  rw [pathOf_eq, ← hrename]
  constructor
  · exact Path.components_setExtension hbase hfile
  · exact Path.extension?_setExtension hbase hstem.ne_nil hfile (by decide) dot_not_mem_extension

/-- A name of dots alone leads to no path below the root. -/
theorem not_isBelow_pathOf (h : ∀ n ∈ Dotted.segments name, Continues n)
    (hsteps : stepsOf name = []) : ¬(pathOf root name).IsBelow root := by
  intro hbelow
  have hlength := hbelow.length_lt
  rw [pathOf_eq, Path.length_components_setExtension (by decide) (by decide),
    components_pathBelow_stepsOf root h, hsteps, List.map_nil, List.append_nil] at hlength
  exact Nat.lt_irrefl _ hlength

/-! ## Names of any text -/

/-- A name leads to a bundle file below the source root exactly if one of its segments has a
text, as long as no segment starts with a slash.  If one does, the name leads to the same
place from every source root. -/
theorem ofName_isBelow (root : Path) (name : Text) :
    ((∀ n ∈ Dotted.segments name, Continues n) →
      ((ofName root name).path.IsBelow root ∧
          (ofName root name).path.extension? = some extension ↔
        ∃ n ∈ Dotted.segments name, n ≠ [])) ∧
      ((∃ n ∈ Dotted.segments name, ¬Continues n) →
        (ofName root name).path.isAbsolute = true ∧
          ∀ root', (ofName root' name).path = (ofName root name).path) := by
  constructor
  · intro h
    have hsome : (∃ n ∈ Dotted.segments name, n ≠ []) ↔ stepsOf name ≠ [] := by
      rw [Ne, stepsOf_eq_nil_iff h]
      push Not
      rfl
    rw [hsome]
    constructor
    · rintro ⟨hbelow, -⟩ hsteps
      exact not_isBelow_pathOf h hsteps hbelow
    · intro hne
      obtain ⟨dirs, stem, hsteps⟩ := (List.eq_nil_or_concat' _).resolve_left hne
      obtain ⟨hpath, hextension⟩ := pathOf_of_stepsOf root h hsteps
      rw [List.append_assoc] at hpath
      exact ⟨Path.isBelow_iff.mpr ⟨_, by simp, hpath⟩, hextension⟩
  · rintro ⟨n, hn, habsolute⟩
    obtain ⟨front, back, hsegments⟩ := List.append_of_mem hn
    have hn' : (Path.mk n).isAbsolute = true := by simpa [Continues] using habsolute
    have hpath : ∀ root', pathOf root' name = (pathBelow ⟨n⟩ back).setExtension extension := by
      intro root'
      rw [pathOf_eq, hsegments, FileSystem.pathBelow_append_absolute hn']
    refine ⟨?_, fun root' => (hpath root').trans (hpath root).symm⟩
    change (pathOf root name).isAbsolute = true
    rw [hpath root]
    apply Path.isAbsolute_setExtension_of_absolute
    exact FileSystem.isAbsolute_pathBelow_of_absolute hn' back

theorem ofName_isBelow_twoSegments :
    (∀ n ∈ Dotted.segments "a/b.c", Continues n) ∧
      (ofName ⟨"res"⟩ "a/b.c").path.IsBelow ⟨"res"⟩ := by
  have hcontinues : ∀ n ∈ Dotted.segments "a/b.c", Continues n := by decide +kernel
  refine ⟨hcontinues, (((ofName_isBelow ⟨"res"⟩ "a/b.c").1 hcontinues).mpr ?_).1⟩
  decide +kernel

/-- A name that starts with a slash leads out of the source root, and the empty name to a
file beside it. -/
theorem ofName_leaves_root :
    (ofName ⟨"res"⟩ "/x").path = ⟨"/x.properties"⟩ ∧
      ¬(ofName ⟨"res"⟩ "/x").path.IsBelow ⟨"res"⟩ ∧
      (ofName ⟨"res"⟩ []).path = ⟨"res.properties"⟩ ∧
      ¬(ofName ⟨"res"⟩ []).path.IsBelow ⟨"res"⟩ := by
  refine ⟨by decide +kernel, fun h => ?_, by decide +kernel, fun h => ?_⟩
  · exact absurd h.startsWith (by decide +kernel)
  · exact absurd h.startsWith (by decide +kernel)

/-! ## Names of plain segments -/

theorem components_pathOf_intercalate (root : Path) (hdirs : ∀ n ∈ dirs, IsSegment n)
    (hstem : IsSegment stem) :
    (pathOf root (['.'].intercalate (dirs ++ [stem]))).components =
      root.components ++ (dirs ++ [stem ++ '.' :: extension]).map .name := by
  rw [pathOf_intercalate hdirs hstem, FileSystem.components_pathBelow_names]
  intro n hn
  rcases List.mem_append.mp hn with hn | hn
  · exact (hdirs n hn).isName
  · exact List.mem_singleton.mp hn ▸ isName_file hstem.slash_not_mem

/-- The path of a name of plain segments is given that name, and no other such name leads to
the same path. -/
theorem nameOf?_pathOf (root : Path) (hne : ns ≠ []) (hns : ∀ n ∈ ns, IsSegment n) :
    nameOf? root (pathOf root (['.'].intercalate ns)) = some (['.'].intercalate ns) ∧
      ∀ ns', ns' ≠ [] → (∀ n ∈ ns', IsSegment n) →
        ['.'].intercalate ns ≠ ['.'].intercalate ns' →
          (pathOf root (['.'].intercalate ns)).components ≠
            (pathOf root (['.'].intercalate ns')).components := by
  obtain ⟨dirs, stem, rfl⟩ := (List.eq_nil_or_concat' ns).resolve_left hne
  obtain ⟨hdirs, hstem⟩ := List.forall_mem_append.mp hns
  have hstem := hstem stem List.mem_cons_self
  constructor
  · rw [pathOf_intercalate hdirs hstem]
    exact nameOf?_of_segments root hdirs hstem
  · intro ns' hne' hns' hname hcomponents
    obtain ⟨dirs', stem', rfl⟩ := (List.eq_nil_or_concat' ns').resolve_left hne'
    obtain ⟨hdirs', hstem'⟩ := List.forall_mem_append.mp hns'
    have hstem' := hstem' stem' List.mem_cons_self
    rw [components_pathOf_intercalate root hdirs hstem,
      components_pathOf_intercalate root hdirs' hstem'] at hcomponents
    have hfiles := Path.eq_of_map_name (List.append_cancel_left hcomponents)
    obtain ⟨hdirs, hfile⟩ := List.append_inj' hfiles rfl
    have hstems : stem = stem' := List.append_cancel_right (List.singleton_inj.mp hfile)
    exact hname (by rw [hdirs, hstems])

theorem nameOf?_pathOf_threeSegments :
    let root : Path := ⟨"./a.b//.."⟩
    nameOf? root (pathOf root "com.example.messages") = some "com.example.messages" ∧
      (pathOf root "com.example.messages").components ≠ (pathOf root "com.example").components := by
  intro root
  have hns : ∀ n ∈ (["com", "example", "messages"] : List Text), IsSegment n := by decide
  obtain ⟨hname, hdistinct⟩ := nameOf?_pathOf root (List.cons_ne_nil _ _) hns
  exact ⟨hname, hdistinct ["com", "example"] (by decide) (by decide) (by decide)⟩

end ResourceBundles.Source
