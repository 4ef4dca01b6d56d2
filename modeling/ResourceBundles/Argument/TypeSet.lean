import ResourceBundles.Argument.Kind

/-!
# Type sets

The kinds that one argument position accepts.  A type set is never empty: where
nothing else is left, any value is accepted, and the set is `{universal}`.  The
kinds are listed in the order of `Kind.all`, so equal sets are equal lists.
-/

namespace ResourceBundles

structure TypeSet where
  kinds : List Kind
  ordered : kinds.Pairwise (·.rank < ·.rank)
  nonempty : kinds ≠ []
deriving DecidableEq

namespace TypeSet

def single (k : Kind) : TypeSet where
  kinds := [k]
  ordered := List.pairwise_singleton _ k
  nonempty := List.cons_ne_nil k []

def universal : TypeSet := single .universal

instance : Inhabited TypeSet := ⟨universal⟩

/-- The set of the given kinds; of no kinds at all it is `universal`. -/
def ofKinds (ks : List Kind) : TypeSet :=
  let chosen := Kind.all.filter fun k => k ∈ ks
  if h : chosen = [] then universal
  else { kinds := chosen, ordered := Kind.all_pairwise_rank.filter _, nonempty := h }

def contains (s : TypeSet) (k : Kind) : Bool := k ∈ s.kinds

def size (s : TypeSet) : Nat := s.kinds.length

theorem size_pos (s : TypeSet) : 0 < s.size := List.length_pos_iff.mpr s.nonempty

/-- Whether the set is exactly `{universal}`. -/
def isUniversal (s : TypeSet) : Bool := s.size == 1 && s.contains .universal

/-- The kinds in both sets, or `universal` if there is none. -/
def intersect (s t : TypeSet) : TypeSet := ofKinds (s.kinds.filter t.contains)

/-- The set cut down to the kinds that `t` has too; a set that loses every kind
accepts any value. -/
def retain (s t : TypeSet) : TypeSet :=
  let kept := s.kinds.filter t.contains
  if h : kept = [] then universal
  else { kinds := kept, ordered := s.ordered.filter _, nonempty := h }

/-- The only kind of the set, or `universal` where there are several. -/
def preferred (s : TypeSet) : Kind :=
  match s.kinds with
  | [k] => k
  | _ => .universal

/-- The labels of the kinds, with a bar between two of them. -/
def label (s : TypeSet) : Text := ['|'].intercalate (s.kinds.map Kind.label)

@[simp] theorem kinds_single (k : Kind) : (single k).kinds = [k] := rfl

@[simp] theorem kinds_universal : universal.kinds = [.universal] := rfl

@[simp] theorem contains_single (k l : Kind) : (single k).contains l = decide (l = k) := by
  simp [contains]

theorem isUniversal_iff {s : TypeSet} : s.isUniversal = true ↔ s = universal := by
  constructor
  · obtain ⟨ks, ho, hn⟩ := s
    intro h
    match ks, hn with
    | [k], _ => simpa [isUniversal, size, contains, universal, single, eq_comm] using h
    | _ :: _ :: _, _ => simp [isUniversal, size] at h
  · rintro rfl
    decide

end TypeSet
end ResourceBundles
