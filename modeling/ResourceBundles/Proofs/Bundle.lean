import ResourceBundles.Bundle
import ResourceBundles.Proofs.Lists
import Mathlib.Data.List.Induction

/-!
# Definitions and entries of a bundle

A bundle comes about by defining keys one after the other.  Its entries have
distinct keys, its positions find them, and the entry of a key is the last of the
definitions of that key.  The keys stand in the order in which they were first defined.
-/

namespace ResourceBundles

namespace Entry

/-- The definition of a key that counts among some definitions: the last one. -/
def last? (es : List Entry) (key : Text) : Option Entry :=
  (es.filter fun e => e.key = key).getLast?

theorem mem_of_last? {es : List Entry} {key : Text} {e : Entry} (h : last? es key = some e) :
    e ∈ es ∧ e.key = key := by
  obtain ⟨hmem, hkey⟩ := List.mem_filter.mp (List.mem_of_getLast? h)
  exact ⟨hmem, of_decide_eq_true hkey⟩

theorem last?_append (es fs : List Entry) (key : Text) :
    last? (es ++ fs) key = (last? fs key).or (last? es key) := by
  rw [last?, List.filter_append, List.getLast?_append, last?, last?]

end Entry

namespace Bundle

def keys (b : Bundle) : List Text := b.entries.map Entry.key

/-- Keys are distinct, and the positions number them in the order of the entries. -/
structure Coherent (b : Bundle) : Prop where
  positions_eq : b.positions = b.keys.zipIdx
  keys_nodup : b.keys.Nodup

variable {b : Bundle} {es : List Entry} {e old : Entry} {key : Text} {i : Nat}

theorem mem_keys : key ∈ b.keys ↔ ∃ e ∈ b.entries, e.key = key := List.mem_map

namespace Coherent

theorem empty : Bundle.empty.Coherent := ⟨rfl, List.nodup_nil⟩

theorem entries_nodup (h : b.Coherent) : b.entries.Nodup := List.Nodup.of_map _ h.keys_nodup

theorem position?_eq_some (h : b.Coherent) :
    b.position? key = some i ↔ ∃ e, b.entries[i]? = some e ∧ e.key = key := by
  rw [position?, h.positions_eq, Lists.lookup_zipIdx h.keys_nodup, keys, List.getElem?_map,
    Option.map_eq_some_iff]
  simp

theorem position?_eq_none (h : b.Coherent) : b.position? key = none ↔ key ∉ b.keys := by
  rw [Option.eq_none_iff_forall_ne_some, mem_keys]
  constructor
  · rintro hnone ⟨e, he, hkey⟩
    obtain ⟨i, hi⟩ := List.mem_iff_getElem?.mp he
    exact hnone i (h.position?_eq_some.mpr ⟨e, hi, hkey⟩)
  · intro hnot i hi
    obtain ⟨e, he, hkey⟩ := h.position?_eq_some.mp hi
    exact hnot ⟨e, List.mem_of_getElem? he, hkey⟩

theorem get?_eq_some (h : b.Coherent) : b.get? key = some e ↔ e ∈ b.entries ∧ e.key = key := by
  rw [get?, Option.bind_eq_some_iff]
  constructor
  · rintro ⟨i, hi, he⟩
    obtain ⟨old, hold, hkey⟩ := h.position?_eq_some.mp hi
    obtain rfl : old = e := Option.some.inj (hold.symm.trans he)
    exact ⟨List.mem_of_getElem? he, hkey⟩
  · rintro ⟨he, hkey⟩
    obtain ⟨i, hi⟩ := List.mem_iff_getElem?.mp he
    exact ⟨i, h.position?_eq_some.mpr ⟨e, hi, hkey⟩, hi⟩

theorem eq_of_key_eq (h : b.Coherent) (he : e ∈ b.entries) (hold : old ∈ b.entries)
    (hkey : old.key = e.key) : old = e :=
  List.inj_on_of_nodup_map h.keys_nodup hold he hkey

theorem get?_eq_last? (h : b.Coherent) (key : Text) : b.get? key = Entry.last? b.entries key := by
  refine Option.ext fun e => ?_
  rw [h.get?_eq_some]
  constructor
  · rintro ⟨he, rfl⟩
    have hmem : e ∈ b.entries.filter fun old => old.key = e.key :=
      List.mem_filter.mpr ⟨he, decide_eq_true rfl⟩
    cases hlast : Entry.last? b.entries e.key with
    | none => exact absurd (List.getLast?_eq_none_iff.mp hlast ▸ hmem) List.not_mem_nil
    | some old =>
        obtain ⟨hold, hkey⟩ := Entry.mem_of_last? hlast
        rw [h.eq_of_key_eq he hold hkey]
  · exact Entry.mem_of_last?

/-! ## One more definition -/

/-- A new definition of a key takes the place of the old one. -/
theorem entries_insert_of_mem (h : b.Coherent) (hkey : e.key ∈ b.keys) :
    (b.insert e).entries = b.entries.map fun old => if old.key = e.key then e else old := by
  obtain ⟨found, hfound, hfkey⟩ := mem_keys.mp hkey
  obtain ⟨i, hi⟩ := List.mem_iff_getElem?.mp hfound
  have hpos : b.position? e.key = some i := h.position?_eq_some.mpr ⟨found, hi, hfkey⟩
  have hmodify := Lists.map_modify h.entries_nodup hi id
    fun old => { old with value := e.value, line := e.line }
  rw [List.map_id] at hmodify
  simp only [insert, hpos, hmodify, id_eq, List.map_inj_left]
  intro old hold
  by_cases hkeys : old.key = e.key
  · obtain rfl := h.eq_of_key_eq hfound hold (hkeys.trans hfkey.symm)
    rw [if_pos rfl, if_pos hkeys, hkeys]
  · have hne : old ≠ found := fun he => hkeys (he ▸ hfkey)
    rw [if_neg hne, if_neg hkeys]

theorem positions_insert_of_mem (h : b.Coherent) (hkey : e.key ∈ b.keys) :
    (b.insert e).positions = b.positions := by
  cases hpos : b.position? e.key with
  | none => exact absurd hkey (h.position?_eq_none.mp hpos)
  | some i => simp only [Bundle.insert, hpos]

theorem insert_of_not_mem (h : b.Coherent) (hkey : e.key ∉ b.keys) :
    b.insert e = ⟨b.entries ++ [e], b.positions ++ [(e.key, b.entries.length)]⟩ := by
  rw [Bundle.insert, h.position?_eq_none.mpr hkey]

theorem keys_insert (h : b.Coherent) (e : Entry) :
    (b.insert e).keys = if e.key ∈ b.keys then b.keys else b.keys ++ [e.key] := by
  by_cases hkey : e.key ∈ b.keys
  · rw [if_pos hkey, keys, h.entries_insert_of_mem hkey, keys, List.map_map, List.map_inj_left]
    intro old _
    by_cases hkeys : old.key = e.key <;> simp [hkeys]
  · rw [if_neg hkey, h.insert_of_not_mem hkey, keys, keys, List.map_append, List.map_singleton]

theorem insert (h : b.Coherent) (e : Entry) : (b.insert e).Coherent := by
  by_cases hkey : e.key ∈ b.keys
  · have hkeys : (b.insert e).keys = b.keys := by rw [h.keys_insert, if_pos hkey]
    refine ⟨?_, hkeys.symm ▸ h.keys_nodup⟩
    rw [hkeys, h.positions_insert_of_mem hkey, h.positions_eq]
  · have hkeys : (b.insert e).keys = b.keys ++ [e.key] := by rw [h.keys_insert, if_neg hkey]
    have hlen : b.keys.length = b.entries.length := List.length_map ..
    refine ⟨?_, ?_⟩
    · rw [hkeys, h.insert_of_not_mem hkey, h.positions_eq, List.zipIdx_append]
      simp [hlen]
    · rw [hkeys, List.nodup_append]
      refine ⟨h.keys_nodup, List.nodup_singleton _, ?_⟩
      rintro a ha k hk rfl
      exact hkey (List.mem_singleton.mp hk ▸ ha)

theorem mem_insert (h : b.Coherent) :
    old ∈ (b.insert e).entries ↔ old = e ∨ old ∈ b.entries ∧ old.key ≠ e.key := by
  by_cases hkey : e.key ∈ b.keys
  · rw [h.entries_insert_of_mem hkey, List.mem_map]
    constructor
    · rintro ⟨found, hfound, rfl⟩
      by_cases hkeys : found.key = e.key
      · exact .inl (if_pos hkeys)
      · rw [if_neg hkeys]
        exact .inr ⟨hfound, hkeys⟩
    · rintro (rfl | ⟨hold, hkeys⟩)
      · obtain ⟨found, hfound, hfkey⟩ := mem_keys.mp hkey
        exact ⟨found, hfound, if_pos hfkey⟩
      · exact ⟨old, hold, if_neg hkeys⟩
  · rw [h.insert_of_not_mem hkey, List.mem_append, List.mem_singleton, or_comm]
    refine or_congr_right ⟨fun hold => ⟨hold, fun he => hkey ?_⟩, And.left⟩
    exact mem_keys.mpr ⟨old, hold, he⟩

end Coherent

/-! ## All definitions -/

theorem coherent_ofEntries (es : List Entry) : (ofEntries es).Coherent := by
  induction es using List.reverseRecOn with
  | nil => exact .empty
  | append_singleton es e ih =>
      rw [ofEntries_concat]
      exact ih.insert e

/-- The entries are the last definitions of their keys. -/
theorem mem_entries_ofEntries :
    old ∈ (ofEntries es).entries ↔ Entry.last? es old.key = some old := by
  induction es using List.reverseRecOn generalizing old with
  | nil => simp [empty, Entry.last?]
  | append_singleton es e ih =>
      rw [ofEntries_concat, (coherent_ofEntries es).mem_insert, ih]
      by_cases hkey : e.key = old.key
      · have hlast : Entry.last? (es ++ [e]) old.key = some e := by simp [Entry.last?, hkey]
        simp [hlast, hkey, eq_comm]
      · have hlast : Entry.last? (es ++ [e]) old.key = Entry.last? es old.key := by
          simp [Entry.last?, hkey]
        have hne : old ≠ e := fun he => hkey (he ▸ rfl)
        simp [hlast, Ne.symm hkey, hne]

/-- The keys stand in the order of their first definitions. -/
theorem keys_ofEntries (es : List Entry) :
    (ofEntries es).keys = (es.map Entry.key).eraseDups := by
  induction es using List.reverseRecOn with
  | nil => rfl
  | append_singleton es e ih =>
      rw [ofEntries_concat, (coherent_ofEntries es).keys_insert, ih, List.map_append,
        List.map_singleton, Lists.eraseDups_concat]
      simp [List.mem_eraseDups]

theorem entries_ofEntries (es : List Entry) :
    (ofEntries es).entries = (es.map Entry.key).eraseDups.filterMap (Entry.last? es) := by
  have hlast : ∀ e ∈ (ofEntries es).entries, Entry.last? es e.key = some e :=
    fun e he => mem_entries_ofEntries.mp he
  rw [← keys_ofEntries, keys, List.filterMap_map]
  exact (List.filterMap_some.symm.trans (List.filterMap_congr fun e he => (hlast e he).symm))

theorem get?_ofEntries (es : List Entry) (key : Text) :
    (ofEntries es).get? key = Entry.last? es key := by
  refine Option.ext fun e => ?_
  rw [(coherent_ofEntries es).get?_eq_some, mem_entries_ofEntries]
  constructor
  · rintro ⟨he, rfl⟩
    exact he
  · intro he
    obtain ⟨-, rfl⟩ := Entry.mem_of_last? he
    exact ⟨he, rfl⟩

theorem contains_ofEntries (es : List Entry) (key : Text) :
    (ofEntries es).contains key = true ↔ key ∈ es.map Entry.key := by
  have hkeys : key ∈ (ofEntries es).keys ↔ key ∈ es.map Entry.key := by
    rw [keys_ofEntries, List.mem_eraseDups]
  rw [← hkeys, ← not_iff_not, ← (coherent_ofEntries es).position?_eq_none, contains,
    Option.not_isSome_iff_eq_none]

/-- A bundle lists every defined key once, in the order of the first definitions, with its last
definition.  Positions and look-ups answer from this list, and one more definition tells the
value of the last one of its key. -/
theorem ofEntries_reference (es : List Entry) :
    let b := ofEntries es
    b.entries = (es.map Entry.key).eraseDups.filterMap (Entry.last? es) ∧
      b.entries.map Entry.key = (es.map Entry.key).eraseDups ∧
      b.positions = (es.map Entry.key).eraseDups.zipIdx ∧
      (∀ key i, b.position? key = some i ↔ ∃ e, b.entries[i]? = some e ∧ e.key = key) ∧
      (∀ key, b.get? key = Entry.last? es key) ∧
      (∀ key, b.contains key = true ↔ key ∈ es.map Entry.key) ∧
      ∀ e, b.define e = ((Entry.last? es e.key).map Entry.value, ofEntries (es ++ [e])) := by
  intro b
  have h : b.Coherent := coherent_ofEntries es
  have hkeys : b.keys = (es.map Entry.key).eraseDups := keys_ofEntries es
  refine ⟨entries_ofEntries es, hkeys, hkeys ▸ h.positions_eq, fun key i => h.position?_eq_some,
    get?_ofEntries es, contains_ofEntries es, fun e => ?_⟩
  rw [define, get?_ofEntries, ofEntries_concat]

/-! ## Definitions collapsed before -/

theorem last?_entries_ofEntries (es : List Entry) (key : Text) :
    Entry.last? (ofEntries es).entries key = Entry.last? es key := by
  rw [← (coherent_ofEntries es).get?_eq_last?, get?_ofEntries]

/-- A bundle is told from the order of the keys and the last definition of each. -/
theorem ofEntries_congr {fs : List Entry}
    (hkeys : (es.map Entry.key).eraseDups = (fs.map Entry.key).eraseDups)
    (hlast : ∀ key, Entry.last? es key = Entry.last? fs key) : ofEntries es = ofEntries fs := by
  have hpositions : (ofEntries es).positions = (ofEntries fs).positions := by
    rw [(coherent_ofEntries es).positions_eq, (coherent_ofEntries fs).positions_eq,
      keys_ofEntries, keys_ofEntries, hkeys]
  have hentries : (ofEntries es).entries = (ofEntries fs).entries := by
    rw [entries_ofEntries, entries_ofEntries, hkeys, funext hlast]
  exact congrArg₂ Bundle.mk hentries hpositions

/-- The entries of a bundle define as much as all definitions that it was made of. -/
theorem foldl_insert_entries (es fs : List Entry) :
    (ofEntries fs).entries.foldl insert (ofEntries es) = ofEntries (es ++ fs) := by
  have hkeys : (ofEntries fs).entries.map Entry.key = (fs.map Entry.key).eraseDups :=
    keys_ofEntries fs
  rw [← ofEntries_append]
  apply ofEntries_congr
  · rw [List.map_append, hkeys, Lists.eraseDups_append_eraseDups, List.map_append]
  · intro key
    rw [Entry.last?_append, last?_entries_ofEntries, Entry.last?_append]

end Bundle
end ResourceBundles
