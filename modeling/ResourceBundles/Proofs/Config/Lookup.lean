import ResourceBundles.CommandLine.Run
import ResourceBundles.Config.Lookup
import ResourceBundles.Proofs.FileSystem

/-!
# The directories a configuration is looked up in

On the way from a directory up to the root the nearest configuration file governs, unless a
repository marker stands below it.  A search from the absolute path of a directory goes that
way; a search from the relative path of the working directory never leaves it.
-/

namespace ResourceBundles.Config

open FileSystem

variable {fs : FileSystem} {l d m : Location} {n : Text} {p : Path} {ps : List Path}
  {r : Option Path}

/-- A configuration file stands in the directory. -/
def HasConfig (fs : FileSystem) (d : Location) : Prop :=
  ∃ bytes, fs.below? d fileName = some (.file bytes)

def IsMarked (fs : FileSystem) (d : Location) : Prop :=
  (fs.below? d repositoryMarker).isSome

/-- On the way up from `l` there is a configuration file at `d` and no marker below it. -/
structure Reaches (fs : FileSystem) (l d : Location) : Prop where
  above : d <+: l
  hasConfig : HasConfig fs d
  unmarked : ∀ m, m <+: l → d <+: m → m ≠ d → ¬IsMarked fs m

/-- The configuration file at `d` is the nearest one on the way up from `l`. -/
structure Governs (fs : FileSystem) (l d : Location) : Prop extends Reaches fs l d where
  nearest : ∀ d', Reaches fs l d' → d' <+: d

/-- A search from `l` that ends with `r` ends with the file that governs `l`, or with none
where no file does. -/
def FindsNearest (fs : FileSystem) (l : Location) (r : Option Path) : Prop :=
  match r with
  | none => ∀ d, ¬Governs fs l d
  | some p => ∃ d, Governs fs l d ∧ fs.locate p = .ok (d ++ [fileName])

/-! ## The way up -/

theorem reaches_self (h : HasConfig fs l) : Reaches fs l l where
  above := List.prefix_rfl
  hasConfig := h
  unmarked := fun _ hm hl hne => absurd (hm.eq_of_length_le hl.length_le) hne

theorem reaches_concat :
    Reaches fs (l ++ [n]) d ↔
      (d = l ++ [n] ∧ HasConfig fs d) ∨ (¬IsMarked fs (l ++ [n]) ∧ Reaches fs l d) := by
  constructor
  · intro h
    rcases List.prefix_concat_iff.mp h.above with hd | hd
    · exact .inl ⟨hd, h.hasConfig⟩
    · have hne : l ++ [n] ≠ d := by
        rintro rfl
        exact absurd hd.length_le (by simp)
      refine .inr ⟨h.unmarked _ List.prefix_rfl h.above hne, hd, h.hasConfig, ?_⟩
      exact fun m hm => h.unmarked m (hm.trans (List.prefix_append l [n]))
  · rintro (⟨rfl, hconfig⟩ | ⟨hmarked, h⟩)
    · exact reaches_self hconfig
    · refine ⟨h.above.trans (List.prefix_append l [n]), h.hasConfig, ?_⟩
      intro m hm hd hne
      rcases List.prefix_concat_iff.mp hm with rfl | hm
      · exact hmarked
      · exact h.unmarked m hm hd hne

theorem governs_self (h : HasConfig fs l) : Governs fs l l :=
  ⟨reaches_self h, fun _ h' => h'.above⟩

theorem Governs.unique {d' : Location} (h : Governs fs l d) (h' : Governs fs l d') : d = d' :=
  (h'.nearest d h.toReaches).eq_of_length_le (h.nearest d' h'.toReaches).length_le

theorem Reaches.eq_of_marked (hmarked : IsMarked fs l) (h : Reaches fs l d) : d = l := by
  by_contra hne
  exact h.unmarked l List.prefix_rfl h.above (Ne.symm hne) hmarked

theorem governs_concat (hconfig : ¬HasConfig fs (l ++ [n])) (hmarked : ¬IsMarked fs (l ++ [n])) :
    Governs fs (l ++ [n]) d ↔ Governs fs l d := by
  have hreaches : ∀ d', Reaches fs (l ++ [n]) d' ↔ Reaches fs l d' := by
    intro d'
    rw [reaches_concat, and_iff_right hmarked, or_iff_right]
    rintro ⟨rfl, h⟩
    exact hconfig h
  constructor
  · exact fun h => ⟨(hreaches d).mp h.toReaches, fun d' h' => h.nearest d' ((hreaches d').mpr h')⟩
  · exact fun h => ⟨(hreaches d).mpr h.toReaches, fun d' h' => h.nearest d' ((hreaches d').mp h')⟩

theorem findsNearest_congr {l' : Location} (h : ∀ d, Governs fs l d ↔ Governs fs l' d) :
    FindsNearest fs l r ↔ FindsNearest fs l' r := by
  cases r <;> simp only [FindsNearest, h]

/-! ## The search -/

/-- The names a search looks for below `p` lead to what stands at `l`. -/
structure LooksAt (fs : FileSystem) (p : Path) (l : Location) : Prop where
  config : fs.LeadsBelow p l fileName
  marker : fs.LeadsBelow p l repositoryMarker

namespace LooksAt

theorem findIn_of_hasConfig (h : LooksAt fs p l) (hconfig : HasConfig fs l) :
    findIn fs (p :: ps) = some (p.join ⟨fileName⟩) := by
  rw [findIn, if_pos (h.config.isFile_iff.mpr hconfig)]

theorem findIn_of_isMarked (h : LooksAt fs p l) (hconfig : ¬HasConfig fs l)
    (hmarked : IsMarked fs l) : findIn fs (p :: ps) = none := by
  rw [findIn, if_neg (mt h.config.isFile_iff.mp hconfig),
    if_pos (h.marker.hasEntry_iff.mpr hmarked)]

theorem findIn_of_not_isMarked (h : LooksAt fs p l) (hconfig : ¬HasConfig fs l)
    (hmarked : ¬IsMarked fs l) : findIn fs (p :: ps) = findIn fs ps := by
  rw [findIn, if_neg (mt h.config.isFile_iff.mp hconfig),
    if_neg (mt h.marker.hasEntry_iff.mp hmarked)]

theorem locate_eq (h : LooksAt fs p l) (hconfig : HasConfig fs l) :
    fs.locate (p.join ⟨fileName⟩) = .ok (l ++ [fileName]) := by
  obtain ⟨bytes, hbytes⟩ := hconfig
  exact (h.config _).mpr ⟨rfl, by rw [hbytes]; rfl⟩

theorem findsNearest_of_hasConfig (h : LooksAt fs p l) (hconfig : HasConfig fs l) :
    FindsNearest fs l (findIn fs (p :: ps)) := by
  rw [h.findIn_of_hasConfig hconfig]
  exact ⟨l, governs_self hconfig, h.locate_eq hconfig⟩

/-- One directory of a search: what holds of the search from its parent holds from here. -/
theorem findsNearest_concat (h : LooksAt fs p (l ++ [n]))
    (hrest : FindsNearest fs l (findIn fs ps)) :
    FindsNearest fs (l ++ [n]) (findIn fs (p :: ps)) := by
  by_cases hconfig : HasConfig fs (l ++ [n])
  · exact h.findsNearest_of_hasConfig hconfig
  by_cases hmarked : IsMarked fs (l ++ [n])
  · rw [h.findIn_of_isMarked hconfig hmarked]
    exact fun d hd => hconfig (hd.eq_of_marked hmarked ▸ hd.hasConfig)
  · rw [h.findIn_of_not_isMarked hconfig hmarked]
    exact (findsNearest_congr fun d => governs_concat hconfig hmarked).mpr hrest

/-- The last directory of a search, the root. -/
theorem findsNearest_root (h : LooksAt fs p []) : FindsNearest fs [] (findIn fs [p]) := by
  by_cases hconfig : HasConfig fs []
  · exact h.findsNearest_of_hasConfig hconfig
  · have hnone : findIn fs [p] = none := by
      by_cases hmarked : IsMarked fs []
      · exact h.findIn_of_isMarked hconfig hmarked
      · exact h.findIn_of_not_isMarked hconfig hmarked
    rw [hnone]
    exact fun d hd => hconfig (List.prefix_nil.mp hd.above ▸ hd.hasConfig)

end LooksAt

/-! ## Absolute paths -/

theorem isEntryName_fileName : IsEntryName fileName :=
  ⟨by decide, by decide, by decide⟩

theorem isEntryName_repositoryMarker : IsEntryName repositoryMarker :=
  ⟨by decide, by decide, by decide⟩

theorem utf8Length_repositoryMarker_le :
    Text.utf8Length repositoryMarker ≤ Text.utf8Length fileName := by decide

/-- The path of a configuration file in the directory is short enough to be opened. -/
def IsInReach (l : Location) : Prop :=
  Text.utf8Length ((Path.ofPieces true l).join ⟨fileName⟩).text < 4096

theorem IsInReach.of_concat (hl : ∀ m ∈ l ++ [n], Path.IsName m) (h : IsInReach (l ++ [n])) :
    IsInReach l := by
  have hslash : '/' ∉ n := (hl n (by simp)).slash_not_mem
  apply Nat.lt_of_le_of_lt _ h
  rw [← Path.join_of_names (fun m hm => hl m (List.mem_append_left _ hm)) hslash,
    Path.join_eq (by decide), Path.join_eq (by decide),
    if_neg (Path.not_isOpen_join hslash (hl n (by simp)).ne_nil), Path.join_eq hslash]
  split_ifs <;> simp only [Text.utf8Length_append, Text.utf8Length_cons] <;> omega

theorem looksAt_ofPieces (hl : fs.IsReachable l) (hreach : IsInReach l) :
    LooksAt fs (Path.ofPieces true l) l := by
  refine ⟨hl.leadsBelow isEntryName_fileName hreach,
    hl.leadsBelow isEntryName_repositoryMarker (Nat.lt_of_le_of_lt ?_ hreach)⟩
  have hle := utf8Length_repositoryMarker_le
  rw [Path.join_eq (by decide), Path.join_eq (by decide)]
  split_ifs <;> simp only [Text.utf8Length_append, Text.utf8Length_cons] <;> omega

/-- A search from the absolute path of a directory ends with the file that governs it. -/
theorem findsNearest_ofPieces (hl : fs.IsReachable l) (hreach : IsInReach l) :
    FindsNearest fs l (find? fs (Path.ofPieces true l)) := by
  induction l using List.reverseRecOn with
  | nil =>
      have hroot : (Path.ofPieces true []).ancestors = [Path.ofPieces true []] := by
        decide +kernel
      rw [find?, hroot]
      exact (looksAt_ofPieces hl hreach).findsNearest_root
  | append_singleton l n ih =>
      rw [find?, Path.ancestors_concat hl.names]
      apply (looksAt_ofPieces hl hreach).findsNearest_concat
      exact ih hl.of_concat (hreach.of_concat hl.names)

/-! ## The working directory -/

theorem ancestors_workingDirectory : Command.workingDirectory.ancestors = [⟨"."⟩, ⟨[]⟩] := by
  decide +kernel

theorem looksAt_current : LooksAt fs ⟨"."⟩ fs.current := by
  constructor
  · exact leadsBelow_of_follow isEntryName_fileName (by decide) (by decide) (by decide)
      (follow_current fs.current fileName)
  · exact leadsBelow_of_follow isEntryName_repositoryMarker (by decide) (by decide) (by decide)
      (follow_current fs.current repositoryMarker)

theorem looksAt_nil : LooksAt fs ⟨[]⟩ fs.current := by
  constructor
  · exact leadsBelow_of_follow isEntryName_fileName (by decide) (by decide) (by decide) rfl
  · exact leadsBelow_of_follow isEntryName_repositoryMarker (by decide) (by decide) (by decide) rfl

theorem find?_workingDirectory_of_hasConfig (h : HasConfig fs fs.current) :
    find? fs Command.workingDirectory = some (Path.join ⟨"."⟩ ⟨fileName⟩) := by
  rw [find?, ancestors_workingDirectory, looksAt_current.findIn_of_hasConfig h]

theorem find?_workingDirectory_of_not_hasConfig (h : ¬HasConfig fs fs.current) :
    find? fs Command.workingDirectory = none := by
  rw [find?, ancestors_workingDirectory]
  by_cases hmarked : IsMarked fs fs.current
  · rw [looksAt_current.findIn_of_isMarked h hmarked]
  · rw [looksAt_current.findIn_of_not_isMarked h hmarked,
      looksAt_nil.findIn_of_not_isMarked h hmarked, findIn]

/-- A search from the working directory ends with the file in the directory itself or with
none, so it ends with the file that governs the directory just if that is in no directory
above.  A search from the absolute path of the working directory always does. -/
theorem find?_workingDirectory (fs : FileSystem) :
    (∀ p, find? fs Command.workingDirectory = some p ↔
      p = Path.join ⟨"."⟩ ⟨fileName⟩ ∧ HasConfig fs fs.current) ∧
    (FindsNearest fs fs.current (find? fs Command.workingDirectory) ↔
      ∀ d, Governs fs fs.current d → d = fs.current) ∧
    (fs.IsReachable fs.current → IsInReach fs.current →
      FindsNearest fs fs.current (find? fs (Path.ofPieces true fs.current))) := by
  refine ⟨?_, ?_, findsNearest_ofPieces⟩
  · intro p
    by_cases hconfig : HasConfig fs fs.current
    · simp [find?_workingDirectory_of_hasConfig hconfig, hconfig, eq_comm]
    · simp [find?_workingDirectory_of_not_hasConfig hconfig, hconfig]
  · by_cases hconfig : HasConfig fs fs.current
    · have hfinds : FindsNearest fs fs.current (find? fs Command.workingDirectory) := by
        rw [find?_workingDirectory_of_hasConfig hconfig]
        exact ⟨_, governs_self hconfig, looksAt_current.locate_eq hconfig⟩
      exact iff_of_true hfinds fun d hd => hd.unique (governs_self hconfig)
    · rw [find?_workingDirectory_of_not_hasConfig hconfig]
      constructor
      · exact fun hnone d hd => absurd hd (hnone d)
      · exact fun hself d hd => hconfig (hself d hd ▸ hd.hasConfig)

/-- A working directory whose parent has an empty configuration. -/
def configuredAbove : FileSystem where
  current := ["tmp", "work"]
  entries := [(["tmp"], .directory), (["tmp", fileName], .file "\x7b\x7d".toUTF8.toList),
    (["tmp", "work"], .directory)]

theorem governs_configuredAbove : Governs configuredAbove configuredAbove.current ["tmp"] := by
  have hentry : configuredAbove.below? configuredAbove.current fileName = none := by
    decide +kernel
  have hconfig : ¬HasConfig configuredAbove configuredAbove.current := by
    rintro ⟨bytes, hbytes⟩
    exact absurd (hentry.symm.trans hbytes) (by simp)
  have hmarked : ¬IsMarked configuredAbove configuredAbove.current := by
    rw [IsMarked]
    decide +kernel
  apply (governs_concat (l := ["tmp"]) (n := "work") hconfig hmarked).mpr
  exact governs_self ⟨_, rfl⟩

theorem isReachable_configuredAbove :
    configuredAbove.IsReachable configuredAbove.current := by
  constructor <;> decide +kernel

/-- The file above the working directory is found from the absolute path. -/
theorem configuredAbove_found :
    FindsNearest configuredAbove configuredAbove.current
      (find? configuredAbove (Path.ofPieces true configuredAbove.current)) := by
  apply (find?_workingDirectory configuredAbove).2.2
  · exact isReachable_configuredAbove
  · rw [IsInReach]
    decide +kernel

/-- A file above the working directory governs it and is not found. -/
theorem configuredAbove_missed :
    Governs configuredAbove configuredAbove.current ["tmp"] ∧
      find? configuredAbove Command.workingDirectory = none ∧
      ¬∀ fs : FileSystem, FindsNearest fs fs.current (find? fs Command.workingDirectory) := by
  have hnone : find? configuredAbove Command.workingDirectory = none := by decide +kernel
  refine ⟨governs_configuredAbove, hnone, fun h => ?_⟩
  have hfinds := h configuredAbove
  rw [hnone] at hfinds
  exact hfinds ["tmp"] governs_configuredAbove

end ResourceBundles.Config
