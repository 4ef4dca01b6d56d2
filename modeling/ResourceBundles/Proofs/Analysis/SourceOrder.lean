import ResourceBundles.Proofs.Analysis.Verdict
import ResourceBundles.Proofs.Issue

/-!
# The order of the sources

The findings about some sources do not depend on the order in which the sources are
given.  The issues of a file are those of its entries, which have distinct keys.  So two
issues that tie in the order of issues come from one entry of one file and are the same
issue, however often its source is given.
-/

namespace ResourceBundles

variable {read : FileReader} {style : Style} {encoding : Encoding} {source : Source}
  {sources sources' : List Source} {i j : Issue}

namespace Entry

variable {e e' : Entry} {file : Text}

theorem mem_issues :
    i ∈ e.issues file style ↔
      (e.key = [] ∧ i = .emptyKey ⟨file, e.line⟩ e.value) ∨
      (e.key ≠ [] ∧ i = .emptySegment ⟨file, e.line⟩ e.key ∧ [] ∈ Dotted.segments e.key) ∨
      (e.key ≠ [] ∧ ∃ error, i = .patternSyntax ⟨file, e.line⟩ e.key e.value error ∧
        style.resolve e.value = .error error) := by
  by_cases hkey : e.key = []
  · simp [issues, hkey]
  · cases hresolve : style.resolve e.value <;>
      by_cases hsegment : [] ∈ Dotted.segments e.key <;>
      simp [issues, hkey, hresolve, hsegment]

theorem file_of_mem_issues (hi : i ∈ e.issues file style) : i.file = file := by
  rcases mem_issues.mp hi with ⟨-, rfl⟩ | ⟨-, rfl, -⟩ | ⟨-, error, rfl, -⟩ <;> rfl

/-- The issues of an entry break different rules. -/
theorem eq_of_rule_eq (hi : i ∈ e.issues file style) (hj : j ∈ e.issues file style)
    (hrule : i.rule = j.rule) : i = j := by
  rcases mem_issues.mp hi with ⟨-, rfl⟩ | ⟨-, rfl, -⟩ | ⟨-, error, rfl, herror⟩ <;>
  rcases mem_issues.mp hj with ⟨-, rfl⟩ | ⟨-, rfl, -⟩ | ⟨-, error', rfl, herror'⟩ <;>
  try exact absurd hrule Rule.noConfusion
  · rfl
  · rfl
  · rw [Except.error.inj (herror.symm.trans herror')]

/-- The rule and the headline of an issue tell the key that it is about. -/
theorem key_eq_of_mem_issues (hi : i ∈ e.issues file style) (hj : j ∈ e'.issues file style)
    (hrule : i.rule = j.rule) (hmessage : i.message = j.message) : e.key = e'.key := by
  rcases mem_issues.mp hi with ⟨hkey, rfl⟩ | ⟨-, rfl, -⟩ | ⟨-, error, rfl, -⟩ <;>
  rcases mem_issues.mp hj with ⟨hkey', rfl⟩ | ⟨-, rfl, -⟩ | ⟨-, error', rfl, -⟩ <;>
  try exact absurd hrule Rule.noConfusion
  · exact hkey.trans hkey'.symm
  · exact hmessage
  · exact hmessage

end Entry

namespace Batch

/-! ## Batches of rearranged sources -/

theorem analyses_perm (h : sources.Perm sources') :
    (ofSources read style encoding sources).analyses.Perm
      (ofSources read style encoding sources').analyses := by
  rw [analyses_ofSources, analyses_ofSources]
  exact h.filterMap _

theorem issues_perm (h : sources.Perm sources') :
    (ofSources read style encoding sources).issues.Perm
      (ofSources read style encoding sources').issues := by
  rw [issues, issues, failures_ofSources, failures_ofSources]
  exact ((analyses_perm h).flatMap_right _).append ((h.filterMap _).map _)

theorem entryCount_perm (h : sources.Perm sources') :
    (ofSources read style encoding sources).entryCount =
      (ofSources read style encoding sources').entryCount := by
  rw [entryCount, entryCount]
  exact ((analyses_perm h).map _).foldr_eq 0

/-! ## Issues that tie -/

/-- An issue is about an entry of a file, or about a file that holds no bundle. -/
theorem mem_issues_ofSources (hi : i ∈ (ofSources read style encoding sources).issues) :
    (∃ (source : Source) (es : List Entry), source.definitions? read encoding = some es ∧
        ∃ e ∈ (Bundle.ofEntries es).entries, i ∈ e.issues source.path.text style) ∨
      ∃ file error, i = .parseError file error := by
  rw [issues, analyses_ofSources] at hi
  rcases List.mem_append.mp hi with hi | hi
  · obtain ⟨a, ha, hia⟩ := List.mem_flatMap.mp hi
    obtain ⟨source, -, hsource⟩ := List.mem_filterMap.mp ha
    obtain ⟨es, hes, rfl⟩ := Option.map_eq_some_iff.mp hsource
    have hperm := Analysis.issues_perm (Bundle.coherent_ofEntries es) source style
    exact .inl ⟨source, es, hes, List.mem_flatMap.mp (hperm.mem_iff.mp hia)⟩
  · obtain ⟨e, -, rfl⟩ := List.mem_map.mp hi
    exact .inr ⟨_, _, rfl⟩

theorem eq_of_ties (hi : i ∈ (ofSources read style encoding sources).issues)
    (hj : j ∈ (ofSources read style encoding sources).issues) (h : i.Ties j) : i = j := by
  rcases mem_issues_ofSources hi with ⟨s, es, hes, e, he, hie⟩ | ⟨file, error, rfl⟩ <;>
  rcases mem_issues_ofSources hj with ⟨s', es', hes', e', he', hje⟩ | ⟨file', error', rfl⟩
  · have hpath : s.path = s'.path := by
      have hfile := (Entry.file_of_mem_issues hie).symm.trans
        (h.file_eq.trans (Entry.file_of_mem_issues hje))
      exact congrArg Path.mk hfile
    have hdefinitions : es = es' := by
      simp only [Source.definitions?, hpath] at hes hes'
      exact Option.some.inj (hes.symm.trans hes')
    subst hdefinitions
    rw [hpath] at hie
    have hkey := Entry.key_eq_of_mem_issues hie hje h.rule_eq h.message_eq
    have hentry : e = e' := (Bundle.coherent_ofEntries es).eq_of_key_eq he' he hkey
    subst hentry
    exact Entry.eq_of_rule_eq hie hje h.rule_eq
  · exact absurd h.rule_eq (Entry.rule_ne_parseError hie)
  · exact absurd h.rule_eq.symm (Entry.rule_ne_parseError hje)
  · have hfile : file = file' := h.file_eq
    have herror : error = error' := h.message_eq
    rw [hfile, herror]

end Batch

/-- The findings about some sources are the same in whatever order the sources are given. -/
theorem Findings.ofBatch_perm (read : FileReader) (style : Style) (encoding : Encoding)
    (h : sources.Perm sources') :
    ofBatch (Batch.ofSources read style encoding sources) =
      ofBatch (Batch.ofSources read style encoding sources') := by
  have hsort : Issue.sort (Batch.ofSources read style encoding sources).issues =
      Issue.sort (Batch.ofSources read style encoding sources').issues := by
    apply Issue.sort_eq_of_perm (Batch.issues_perm h)
    exact fun i hi j hj => Batch.eq_of_ties hi hj
  rw [ofBatch, ofBatch, (Batch.analyses_perm h).length_eq, Batch.entryCount_perm h, ofIssues,
    ofIssues, hsort]

/-- A file with an empty key and a broken pattern, and no other file. -/
def brokenFile : FileReader := fun path =>
  if path = ⟨"a"⟩ then .ok [61, 49, 10, 98, 61, 123] else .error .notFound

theorem Findings.ofBatch_reverse_brokenFile :
    let sources : List Source := [⟨"x", ⟨"a"⟩⟩, ⟨"y", ⟨"b"⟩⟩, ⟨"z", ⟨"a"⟩⟩]
    sources.Perm sources.reverse ∧
      ofBatch (Batch.ofSources brokenFile .pattern .latin1 sources) =
        ofBatch (Batch.ofSources brokenFile .pattern .latin1 sources.reverse) := by
  intro sources
  have hperm : sources.Perm sources.reverse := (List.reverse_perm sources).symm
  exact ⟨hperm, ofBatch_perm brokenFile .pattern .latin1 hperm⟩

end ResourceBundles
