import ResourceBundles.CommandLine.Run
import ResourceBundles.Proofs.Analysis.Exactness

/-!
# Verdicts

The exit status of a check and the counts behind it, told from the files alone: a
source counts once if its file holds no bundle, and otherwise once for every key
whose last value is no format.
-/

namespace ResourceBundles

/-- The definitions in the file of a source, if it can be read, decoded and parsed. -/
def Source.definitions? (read : FileReader) (encoding : Encoding) (source : Source) :
    Option (List Entry) := do
  let bytes ← (read source.path).toOption
  let text ← (encoding.decode bytes).toOption
  (Properties.readEntries (Properties.logicalLines text)).toOption

/-- The key is not empty and its last value is no format of the style. -/
def Style.Rejects (style : Style) (es : List Entry) (key : Text) : Prop :=
  key ≠ [] ∧ ∃ e ∈ Entry.last? es key, (style.resolve e.value).isOk = false

instance (style : Style) (es : List Entry) (key : Text) : Decidable (style.Rejects es key) :=
  inferInstanceAs (Decidable (_ ∧ _))

def Style.rejectedKeys (style : Style) (es : List Entry) : List Text :=
  (es.map Entry.key).dedup.filter fun key => style.Rejects es key

variable {read : FileReader} {style : Style} {encoding : Encoding} {source : Source}
  {sources : List Source} {es : List Entry} {key : Text}

/-! ## Errors of one bundle -/

theorem Style.mem_rejectedKeys : key ∈ style.rejectedKeys es ↔ style.Rejects es key := by
  rw [rejectedKeys, List.mem_filter, List.mem_dedup, decide_eq_true_iff, and_iff_right_iff_imp]
  rintro ⟨-, e, he, -⟩
  exact List.mem_map.mpr ⟨e, Entry.mem_of_last? he⟩

theorem Style.not_rejects_conversion : ¬conversion.Rejects es key := by
  rintro ⟨-, e, -, hresolve⟩
  cases hresolve

/-- The rejected keys are those of the entries that are rejected. -/
theorem Style.rejectedKeys_perm (style : Style) (es : List Entry) :
    (style.rejectedKeys es).Perm
      (((Bundle.ofEntries es).entries.filter fun e =>
        e.key ≠ [] ∧ (style.resolve e.value).isOk = false).map Entry.key) := by
  have hnodup := (Bundle.coherent_ofEntries es).keys_nodup
  refine (List.perm_ext_iff_of_nodup ((List.nodup_dedup _).filter _)
    (hnodup.sublist (List.filter_sublist.map Entry.key))).mpr fun key => ?_
  refine mem_rejectedKeys.trans ?_
  rw [List.mem_map]
  simp only [List.mem_filter, Bundle.mem_entries_ofEntries, decide_eq_true_eq]
  constructor
  · rintro ⟨hne, e, he, hresolve⟩
    obtain ⟨-, rfl⟩ := Entry.mem_of_last? he
    exact ⟨e, ⟨he, hne, hresolve⟩, rfl⟩
  · rintro ⟨e, ⟨he, hne, hresolve⟩, rfl⟩
    exact ⟨hne, e, he, hresolve⟩

namespace Issue

variable {xs ys : List Issue} {severity : Severity}

theorem count_perm (h : xs.Perm ys) : count severity xs = count severity ys :=
  (h.filter _).length_eq

theorem count_append : count severity (xs ++ ys) = count severity xs + count severity ys := by
  rw [count, List.filter_append, List.length_append]
  rfl

theorem count_sort : count severity (sort xs) = count severity xs :=
  count_perm (List.mergeSort_perm xs le)

theorem count_le_length : count severity xs ≤ xs.length := List.length_filter_le ..

end Issue

theorem Entry.count_issues (file : Text) (style : Style) (e : Entry) :
    Issue.count .error (e.issues file style) =
      if e.key ≠ [] ∧ (style.resolve e.value).isOk = false then 1 else 0 := by
  by_cases hkey : e.key = []
  · simp [issues, hkey, Issue.count, Issue.severity]
  · rw [issues, if_neg hkey, Issue.count_append]
    have hsegment : Issue.count .error
        (if (Dotted.segments e.key).contains [] then [.emptySegment ⟨file, e.line⟩ e.key]
          else []) = 0 := by
      split <;> rfl
    rw [hsegment, Nat.zero_add]
    cases hresolve : style.resolve e.value <;> simp [hkey, Issue.count, Issue.severity, Except.isOk,
      Except.toBool]

theorem Entry.rule_ne_parseError {file : Text} {e : Entry} {i : Issue}
    (hi : i ∈ e.issues file style) : i.rule ≠ .parseError := by
  rw [issues] at hi
  split at hi
  · rw [List.mem_singleton.mp hi]
    exact Rule.noConfusion
  · rcases List.mem_append.mp hi with hi | hi <;> split at hi
    · rw [List.mem_singleton.mp hi]
      exact Rule.noConfusion
    · exact absurd hi List.not_mem_nil
    · exact absurd hi List.not_mem_nil
    · rw [List.mem_singleton.mp hi]
      exact Rule.noConfusion

namespace Analysis

/-- The errors of a bundle are its rejected keys. -/
theorem count_issues (source : Source) (style : Style) (es : List Entry) :
    Issue.count .error (ofBundle source style (Bundle.ofEntries es)).issues =
      (style.rejectedKeys es).length := by
  have hsum : ∀ entries : List Entry,
      Issue.count .error (entries.flatMap (Entry.issues source.path.text style)) =
        (entries.filter fun e => e.key ≠ [] ∧ (style.resolve e.value).isOk = false).length := by
    intro entries
    induction entries with
    | nil => rfl
    | cons e entries ih =>
        rw [List.flatMap_cons, Issue.count_append, ih, Entry.count_issues, List.filter_cons]
        by_cases he : e.key ≠ [] ∧ (style.resolve e.value).isOk = false
        · simp [he, Nat.add_comm]
        · simp [he]
  have hperm := issues_perm (Bundle.coherent_ofEntries es) source style
  rw [Issue.count_perm hperm, hsum, (style.rejectedKeys_perm es).length_eq, List.length_map]

theorem rule_ne_parseError {i : Issue}
    (hi : i ∈ (ofBundle source style (Bundle.ofEntries es)).issues) : i.rule ≠ .parseError := by
  have hperm := issues_perm (Bundle.coherent_ofEntries es) source style
  obtain ⟨e, -, he⟩ := List.mem_flatMap.mp (hperm.mem_iff.mp hi)
  exact Entry.rule_ne_parseError he

/-! ## Batches -/

theorem ofSource_toOption :
    (ofSource read style encoding source).toOption =
      (source.definitions? read encoding).map fun es =>
        ofBundle source style (Bundle.ofEntries es) := by
  rw [ofSource, Properties.parseFile, Source.definitions?]
  cases read source.path with
  | error e => rfl
  | ok bytes =>
    cases hdecode : encoding.decode bytes with
    | error e => simp [hdecode, Except.toOption, Except.map]
    | ok text =>
      cases hread : Properties.readEntries (Properties.logicalLines text) <;>
        simp [hdecode, hread, Properties.parse, Except.toOption, Except.map]

end Analysis

namespace Batch

theorem analyses_foldl_add (b : Batch) (results : List (Except BundleError Analysis)) :
    (results.foldl add b).analyses = b.analyses ++ results.filterMap Except.toOption := by
  induction results generalizing b with
  | nil => exact (List.append_nil _).symm
  | cons r results ih =>
      rw [List.foldl_cons, ih]
      cases r with
      | error e => rw [add, List.filterMap_cons_none rfl]
      | ok a => simp [add, Except.toOption]

def failure? : Except BundleError Analysis → Option BundleError
  | .ok _ => none
  | .error e => some e

theorem failures_foldl_add (b : Batch) (results : List (Except BundleError Analysis)) :
    (results.foldl add b).failures = b.failures ++ results.filterMap failure? := by
  induction results generalizing b with
  | nil => exact (List.append_nil _).symm
  | cons r results ih =>
      rw [List.foldl_cons, ih]
      cases r with
      | error e => simp [add, failure?]
      | ok a => rw [add, List.filterMap_cons_none rfl]

theorem analyses_ofSources :
    (ofSources read style encoding sources).analyses =
      sources.filterMap fun source => (source.definitions? read encoding).map fun es =>
        Analysis.ofBundle source style (Bundle.ofEntries es) := by
  rw [ofSources, analyses_foldl_add, List.filterMap_map, empty, List.nil_append]
  exact List.filterMap_congr fun source _ => Analysis.ofSource_toOption

theorem failures_ofSources :
    (ofSources read style encoding sources).failures =
      sources.filterMap fun source => failure? (Analysis.ofSource read style encoding source) := by
  rw [ofSources, failures_foldl_add, List.filterMap_map, empty, List.nil_append]
  rfl

theorem length_failures_ofSources :
    (ofSources read style encoding sources).failures.length =
      (sources.filter fun source => (source.definitions? read encoding).isNone).length := by
  rw [failures_ofSources, List.length_filterMap_eq_countP, List.countP_eq_length_filter]
  congr 2
  funext source
  have hread : (source.definitions? read encoding).isNone =
      (Analysis.ofSource read style encoding source).toOption.isNone := by
    rw [Analysis.ofSource_toOption, Option.isNone_map]
  rw [hread]
  cases Analysis.ofSource read style encoding source <;> rfl

theorem length_analyses_add_length_failures :
    (ofSources read style encoding sources).analyses.length +
      (ofSources read style encoding sources).failures.length = sources.length := by
  have hanalyses : (ofSources read style encoding sources).analyses.length =
      (sources.filter fun source => (source.definitions? read encoding).isSome).length := by
    rw [analyses_ofSources, List.length_filterMap_eq_countP, List.countP_eq_length_filter]
    congr 2
    funext source
    exact Option.isSome_map
  have hsplit := List.length_eq_length_filter_add (l := sources)
    fun source => (source.definitions? read encoding).isSome
  simp only [Option.not_isSome] at hsplit
  rw [hanalyses, length_failures_ofSources, hsplit]

theorem count_failures (b : Batch) :
    Issue.count .error (b.failures.map failureIssue) = b.failures.length := by
  rw [Issue.count, List.filter_map, List.length_map, List.length_filter_eq_length_iff.mpr]
  intro e _
  rfl

theorem count_issues_ofSources :
    Issue.count .error (ofSources read style encoding sources).issues =
      (sources.filter fun source => (source.definitions? read encoding).isNone).length +
        (sources.map fun source =>
          (style.rejectedKeys ((source.definitions? read encoding).getD [])).length).sum := by
  rw [issues, Issue.count_append, count_failures, length_failures_ofSources, analyses_ofSources,
    Nat.add_comm]
  congr 1
  induction sources with
  | nil => rfl
  | cons source sources ih =>
      rw [List.map_cons, List.sum_cons, ← ih]
      cases hdefs : source.definitions? read encoding with
      | none =>
          rw [List.filterMap_cons_none (by rw [hdefs, Option.map_none])]
          exact (Nat.zero_add _).symm
      | some es =>
          rw [List.filterMap_cons_some (by rw [hdefs, Option.map_some]), List.flatMap_cons,
            Issue.count_append, Analysis.count_issues, Option.getD_some]

theorem parseErrors_ofSources :
    ((ofSources read style encoding sources).issues.filter fun i => i.rule = .parseError) =
      (ofSources read style encoding sources).failures.map failureIssue := by
  have hanalyses : ((ofSources read style encoding sources).analyses.flatMap Analysis.issues).filter
      (fun i => i.rule = .parseError) = [] := by
    rw [List.filter_eq_nil_iff, analyses_ofSources]
    intro i hi
    obtain ⟨a, ha, hia⟩ := List.mem_flatMap.mp hi
    obtain ⟨source, -, hsource⟩ := List.mem_filterMap.mp ha
    obtain ⟨es, -, rfl⟩ := Option.map_eq_some_iff.mp hsource
    simpa using Analysis.rule_ne_parseError hia
  rw [issues, List.filter_append, hanalyses, List.nil_append, List.filter_eq_self]
  intro i hi
  obtain ⟨e, -, rfl⟩ := List.mem_map.mp hi
  rfl

end Batch

/-! ## Findings and runs -/

namespace Findings

theorem status_eq_failure_iff (f : Findings) : f.status = .failure ↔ 0 < f.errorCount := by
  rw [status]
  split <;> simp [*]

theorem status_eq_success_iff (f : Findings) : f.status = .success ↔ f.errorCount = 0 := by
  rw [status]
  split
  · simp [Nat.ne_of_gt ‹_›]
  · simp [Nat.eq_zero_of_not_pos ‹_›]

theorem errorCount_ofSources :
    (ofBatch (Batch.ofSources read style encoding sources)).errorCount =
      (sources.filter fun source => (source.definitions? read encoding).isNone).length +
        (sources.map fun source =>
          (style.rejectedKeys ((source.definitions? read encoding).getD [])).length).sum :=
  Issue.count_sort.trans Batch.count_issues_ofSources

theorem parseErrorCount_ofSources :
    (ofBatch (Batch.ofSources read style encoding sources)).parseErrorCount =
      (Batch.ofSources read style encoding sources).failures.length := by
  have hperm := (List.mergeSort_perm (Batch.ofSources read style encoding sources).issues
    Issue.le).filter fun i => i.rule = .parseError
  rw [ofBatch, ofIssues, Issue.sort, hperm.length_eq, Batch.parseErrors_ofSources, List.length_map]

/-- There is an error if and only if a file holds no bundle or a key is rejected. -/
theorem errorCount_ofSources_pos :
    0 < (ofBatch (Batch.ofSources read style encoding sources)).errorCount ↔
      (∃ source ∈ sources, source.definitions? read encoding = none) ∨
        ∃ source ∈ sources, ∃ es, source.definitions? read encoding = some es ∧
          ∃ key, style.Rejects es key := by
  rw [errorCount_ofSources, Nat.add_pos_iff_pos_or_pos]
  refine or_congr ?_ ?_
  · rw [List.length_pos_iff_exists_mem]
    simp
  · rw [List.sum_pos_iff_exists_pos_nat]
    constructor
    · rintro ⟨n, hn, hpos⟩
      obtain ⟨source, hsource, rfl⟩ := List.mem_map.mp hn
      obtain ⟨key, hkey⟩ := List.length_pos_iff_exists_mem.mp hpos
      have hrejects := Style.mem_rejectedKeys.mp hkey
      cases hdefs : source.definitions? read encoding with
      | none =>
          rw [hdefs] at hrejects
          obtain ⟨-, e, he, -⟩ := hrejects
          cases he
      | some es =>
          rw [hdefs] at hrejects
          exact ⟨source, hsource, es, hdefs, key, hrejects⟩
    · rintro ⟨source, hsource, es, hdefs, key, hrejects⟩
      refine ⟨_, List.mem_map_of_mem hsource, ?_⟩
      rw [hdefs]
      exact List.length_pos_of_mem (Style.mem_rejectedKeys.mpr hrejects)

theorem errorCount_add_warningCount (issues : List Issue) (bundles entries : Nat) :
    (ofIssues issues bundles entries).errorCount + (ofIssues issues bundles entries).warningCount =
      (ofIssues issues bundles entries).issues.length :=
  Nat.add_sub_cancel' Issue.count_le_length

end Findings

theorem Command.status_runCheck {fs : FileSystem} {bundles : List Text} {o : Overrides}
    {s : Settings} {log : Text} (hload : Settings.load fs workingDirectory o = .ok s)
    (hsources : s.sources fs bundles = .ok (sources, log)) :
    (runCheck fs bundles o).status =
      (Findings.ofBatch
        (Batch.ofSources fs.read s.config.style s.config.encoding sources)).status := by
  rw [runCheck, hload]
  simp only [hsources]

/-- The verdict on some sources, told from their files: the exit status, the number of
errors and the balance of the counts.  A check that comes as far as its sources ends
with this status. -/
theorem Findings.verdict (read : FileReader) (style : Style) (encoding : Encoding)
    (sources : List Source) :
    let f := ofBatch (Batch.ofSources read style encoding sources)
    let definitions? := fun source : Source => source.definitions? read encoding
    let faulty : Prop := (∃ source ∈ sources, definitions? source = none) ∨
      ∃ source ∈ sources, ∃ es, definitions? source = some es ∧ ∃ key, style.Rejects es key
    (f.status = .failure ↔ faulty) ∧ (f.status = .success ↔ ¬faulty) ∧
      (style = .conversion →
        (f.status = .failure ↔ ∃ source ∈ sources, definitions? source = none)) ∧
      f.errorCount = (sources.filter fun source => (definitions? source).isNone).length +
        (sources.map fun source =>
          (style.rejectedKeys ((definitions? source).getD [])).length).sum ∧
      f.errorCount + f.warningCount = f.issues.length ∧
      f.bundlesChecked + f.parseErrorCount = sources.length ∧
      ∀ fs bundles o s log, Settings.load fs Command.workingDirectory o = .ok s →
        s.sources fs bundles = .ok (sources, log) → fs.read = read →
        s.config.style = style → s.config.encoding = encoding →
        (Command.runCheck fs bundles o).status = f.status := by
  intro f definitions? faulty
  have hfaulty : 0 < f.errorCount ↔ faulty := errorCount_ofSources_pos
  have hfailure : f.status = .failure ↔ faulty := f.status_eq_failure_iff.trans hfaulty
  refine ⟨hfailure, ?_, ?_, errorCount_ofSources, errorCount_add_warningCount .., ?_, ?_⟩
  · rw [f.status_eq_success_iff, ← hfaulty, Nat.pos_iff_ne_zero, not_not]
  · rintro rfl
    rw [hfailure, or_iff_left_iff_imp]
    rintro ⟨source, -, es, -, key, hrejects⟩
    exact absurd hrejects Style.not_rejects_conversion
  · rw [parseErrorCount_ofSources]
    exact Batch.length_analyses_add_length_failures
  · rintro fs bundles o s log hload hsources rfl rfl rfl
    exact Command.status_runCheck hload hsources

/-- A working directory with one bundle, whose only value opens a placeholder. -/
def unclosedBundle : FileSystem where
  current := ["w"]
  entries := [(["w"], .directory), (["w", "m.properties"], .file [97, 61, 123, 48])]

def patternsHere : Overrides := ⟨some ".", some .pattern, some .latin1, false⟩

theorem Findings.verdict_unclosedBundle :
    (Command.runCheck unclosedBundle ["m"] patternsHere).status = .failure := by
  have hfind : Config.find? unclosedBundle Command.workingDirectory = none := by decide +kernel
  have hload : Settings.load unclosedBundle Command.workingDirectory patternsHere =
      .ok ⟨patternsHere.apply .standard, ⟨"."⟩, false, false⟩ := by
    rw [Settings.load, Config.load, hfind]
    rfl
  have hdefs : (Source.ofName ⟨"."⟩ "m").definitions? unclosedBundle.read .latin1 =
      some [⟨"a", "\x7b0", 1⟩] := by decide +kernel
  have hrejects : Style.pattern.Rejects [⟨"a", "\x7b0", 1⟩] "a" :=
    ⟨by decide, _, rfl, by decide +kernel⟩
  obtain ⟨hfailure, -, -, -, -, -, hrun⟩ :=
    verdict unclosedBundle.read .pattern .latin1 [Source.ofName ⟨"."⟩ "m"]
  rw [hrun unclosedBundle ["m"] patternsHere _ _ hload rfl rfl rfl rfl, hfailure]
  exact .inr ⟨_, List.mem_singleton_self _, _, hdefs, "a", hrejects⟩

end ResourceBundles
