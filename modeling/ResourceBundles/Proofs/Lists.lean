import Mathlib.Data.List.Forall2
import Mathlib.Data.List.Induction
import Mathlib.Data.List.Nodup

/-!
# Places, separators and sorting in lists

Where the members of a list are distinct, a member and its place determine each
other: numbering, look-ups and changes in one place can be said of the members.
Where a list is cut at a separator, the separator stands in none of the parts.
Where members tie exactly if they have the same key, sorting puts the same keys in the
same places, however the list was arranged before.
-/

namespace ResourceBundles.Lists

variable {α β : Type} {xs : List α} {a : α} {i j : Nat}

theorem place_unique (h : xs.Nodup) (hi : xs[i]? = some a) (hj : xs[j]? = some a) : i = j := by
  obtain ⟨hil, rfl⟩ := List.getElem?_eq_some_iff.mp hi
  obtain ⟨hjl, hj⟩ := List.getElem?_eq_some_iff.mp hj
  exact (List.Nodup.getElem_inj_iff h).mp hj.symm

theorem lookup_zipIdx [BEq α] [LawfulBEq α] (h : xs.Nodup) {n : Nat} :
    (xs.zipIdx n).lookup a = some i ↔ n ≤ i ∧ xs[i - n]? = some a := by
  induction xs generalizing n with
  | nil => simp
  | cons x xs ih =>
      obtain ⟨hx, hxs⟩ := List.nodup_cons.mp h
      rw [List.zipIdx_cons, List.lookup_cons]
      by_cases ha : a = x
      · subst ha
        have hrest : ∀ k, xs[k]? ≠ some a := fun k hk => hx (List.mem_of_getElem? hk)
        cases hk : i - n with
        | zero =>
            simp only [beq_self_eq_true, Option.some.injEq, List.getElem?_cons_zero, and_true]
            omega
        | succ k =>
            simp only [beq_self_eq_true, Option.some.injEq, List.getElem?_cons_succ, hrest,
              and_false, iff_false]
            omega
      · have hb : (a == x) = false := by simpa using ha
        rw [hb]
        simp only [ih hxs]
        cases hk : i - n with
        | zero =>
            simp [Ne.symm ha]
            omega
        | succ k =>
            have hle : n + 1 ≤ i ↔ n ≤ i := by omega
            rw [show i - (n + 1) = k by omega, List.getElem?_cons_succ, hle]

theorem lt_foldl_max {ns : List Nat} {m : Nat} :
    i < ns.foldl max m ↔ i < m ∨ ∃ n ∈ ns, i < n := by
  induction ns generalizing m with
  | nil => simp
  | cons n ns ih =>
      have hmax : i < max m n ↔ i < m ∨ i < n := by omega
      rw [List.foldl_cons, ih, hmax, or_assoc]
      simp

theorem filterMap_getElem?_range (xs : List α) :
    (List.range xs.length).filterMap (fun i => xs[i]?) = xs := by
  induction xs with
  | nil => rfl
  | cons x xs ih =>
      rw [List.length_cons, List.range_succ_eq_map,
        List.filterMap_cons_some List.getElem?_cons_zero, List.filterMap_map]
      exact congrArg (x :: ·) ih

theorem map_modify [DecidableEq α] (h : xs.Nodup) (hi : xs[i]? = some a) (f : α → β)
    (g : β → β) :
    (xs.map f).modify i g = xs.map fun x => if x = a then g (f x) else f x := by
  refine List.ext_getElem? fun j => ?_
  rw [List.getElem?_modify, List.getElem?_map, List.getElem?_map]
  cases hj : xs[j]? with
  | none => simp
  | some x =>
      by_cases hij : i = j
      · subst hij
        obtain rfl : a = x := Option.some.inj (hi.symm.trans hj)
        simp
      · have hx : x ≠ a := by
          rintro rfl
          exact hij (place_unique h hi hj)
        simp [hij, hx]

theorem eraseDups_of_nodup [BEq α] [LawfulBEq α] (h : xs.Nodup) : xs.eraseDups = xs := by
  induction xs with
  | nil => rfl
  | cons x xs ih =>
      obtain ⟨hx, hxs⟩ := List.nodup_cons.mp h
      have hfilter : (xs.filter fun y => !y == x) = xs := by
        rw [List.filter_eq_self]
        intro y hy
        have hyx : y ≠ x := fun he => hx (he ▸ hy)
        simpa using hyx
      rw [List.eraseDups_cons, hfilter, ih hxs]

theorem eraseDups_concat [BEq α] [LawfulBEq α] (xs : List α) (a : α) :
    (xs ++ [a]).eraseDups = if a ∈ xs then xs.eraseDups else xs.eraseDups ++ [a] := by
  rw [List.eraseDups_append]
  by_cases ha : a ∈ xs
  · simp [List.removeAll, ha]
  · simp [List.removeAll, ha, eraseDups_of_nodup]

/-- The repetitions that count in a longer list are left if those of a part are erased first. -/
theorem eraseDups_append_eraseDups [BEq α] [LawfulBEq α] (xs ys : List α) :
    (xs ++ ys.eraseDups).eraseDups = (xs ++ ys).eraseDups := by
  induction ys using List.reverseRecOn with
  | nil => rfl
  | append_singleton ys a ih =>
      rw [eraseDups_concat, ← List.append_assoc, eraseDups_concat (xs ++ ys), ← ih]
      by_cases ha : a ∈ ys
      · simp [ha]
      · rw [if_neg ha, ← List.append_assoc, eraseDups_concat]
        simp [ha, List.mem_eraseDups]

theorem filter_filterMap_congr {γ : Type} {R : α → β → Prop} {ys : List β} {f : α → Option γ}
    {g : β → Option γ} {P : γ → Bool} (h : List.Forall₂ R xs ys)
    (hfg : ∀ a b, R a b → (f a).filter P = (g b).filter P) :
    (xs.filterMap f).filter P = (ys.filterMap g).filter P := by
  rw [List.filter_filterMap, List.filter_filterMap]
  induction h with
  | nil => rfl
  | cons hr _ ih => rw [List.filterMap_cons, List.filterMap_cons, hfg _ _ hr, ih]

/-! ## Separators -/

theorem of_mem_splitOn [BEq α] [LawfulBEq α] {xs part : List α} {sep a : α}
    (h : part ∈ xs.splitOn sep) (ha : a ∈ part) : a ∈ xs ∧ a ≠ sep := by
  by_cases hsep : sep ∈ xs
  · obtain ⟨front, back, rfl, hfront⟩ := List.eq_append_cons_of_mem hsep
    rw [List.splitOn_append_cons_self_of_not_mem hfront] at h
    rcases List.mem_cons.mp h with rfl | h
    · exact ⟨List.mem_append_left _ ha, fun he => hfront (he ▸ ha)⟩
    · have hlength : back.length < (front ++ sep :: back).length := by
        rw [List.length_append, List.length_cons]
        omega
      obtain ⟨hback, hne⟩ := of_mem_splitOn h ha
      exact ⟨List.mem_append_right _ (List.mem_cons_of_mem _ hback), hne⟩
  · rw [List.splitOn_eq_singleton hsep, List.mem_singleton] at h
    subst h
    exact ⟨ha, fun he => hsep (he ▸ ha)⟩
termination_by xs.length

theorem not_mem_intercalate {parts : List (List α)} {sep : α} (ha : a ≠ sep)
    (h : ∀ part ∈ parts, a ∉ part) : a ∉ [sep].intercalate parts := by
  induction parts with
  | nil => exact List.not_mem_nil
  | cons part parts ih =>
      have hpart := h part List.mem_cons_self
      have hparts := ih fun part hp => h part (List.mem_cons_of_mem _ hp)
      cases parts with
      | nil => rwa [List.intercalate_singleton]
      | cons part' parts =>
          rw [List.intercalate_cons_cons, List.mem_append, List.mem_append, List.mem_singleton]
          exact fun hmem => hmem.elim (fun hmem => hmem.elim hpart ha) hparts

theorem intercalate_concat {parts : List (List α)} (hne : parts ≠ []) (sep : α) (last : List α) :
    [sep].intercalate (parts ++ [last]) = [sep].intercalate parts ++ sep :: last := by
  induction parts with
  | nil => exact absurd rfl hne
  | cons part parts ih =>
      cases parts with
      | nil => simp [List.intercalate_cons_cons]
      | cons part' parts =>
          have hrest := ih (List.cons_ne_nil part' parts)
          rw [List.cons_append] at hrest
          rw [List.cons_append, List.cons_append, List.intercalate_cons_cons, hrest,
            List.intercalate_cons_cons, List.append_assoc (part ++ [sep])]

theorem countP_intercalate {P : α → Bool} {sep : α} (hsep : P sep = false)
    (parts : List (List α)) :
    ([sep].intercalate parts).countP P = parts.flatten.countP P := by
  induction parts with
  | nil => rfl
  | cons part parts ih =>
      cases parts with
      | nil => simp
      | cons part' parts =>
          rw [List.intercalate_cons_cons, List.countP_append, List.countP_append, ih,
            List.countP_singleton, hsep, List.flatten_cons (l := part), List.countP_append]
          rfl

/-! ## Sorting -/

section Sorting

variable {ys : List α} {cmp : α → α → Ordering} [Std.TransCmp cmp] {key : α → β}

theorem isLE_total (cmp : α → α → Ordering) [Std.OrientedCmp cmp] (a b : α) :
    ((cmp a b).isLE || (cmp b a).isLE) = true := by
  have hswap : cmp b a = (cmp a b).swap := Std.OrientedCmp.eq_swap
  rw [hswap]
  cases cmp a b <;> rfl

theorem pairwise_mergeSort_cmp (cmp : α → α → Ordering) [Std.TransCmp cmp] (xs : List α) :
    (xs.mergeSort fun a b => (cmp a b).isLE).Pairwise fun a b => (cmp a b).isLE = true :=
  List.pairwise_mergeSort (fun _ _ _ => Std.TransCmp.isLE_trans) (isLE_total cmp) xs

/-- Keys in the order of the members of a list that have them. -/
def KeyLE (cmp : α → α → Ordering) (key : α → β) (xs : List α) (k k' : β) : Prop :=
  ∀ a ∈ xs, ∀ b ∈ xs, key a = k → key b = k' → (cmp a b).isLE = true

theorem pairwise_keyLE_mergeSort
    (hkey : ∀ a ∈ xs, ∀ b ∈ xs, cmp a b = .eq ↔ key a = key b) (h : ys.Perm xs) :
    ((ys.mergeSort fun a b => (cmp a b).isLE).map key).Pairwise (KeyLE cmp key xs) := by
  have hys : (ys.mergeSort fun a b => (cmp a b).isLE).Perm xs :=
    (List.mergeSort_perm ys _).trans h
  rw [List.pairwise_map]
  refine (pairwise_mergeSort_cmp cmp ys).imp_of_mem ?_
  intro a b ha hb hab a' ha' b' hb' hkeya hkeyb
  have haa := (hkey a' ha' a (hys.mem_iff.mp ha)).mpr hkeya
  have hbb := (hkey b (hys.mem_iff.mp hb) b' hb').mpr hkeyb.symm
  exact Std.TransCmp.isLE_trans (Ordering.isLE_of_eq_eq haa)
    (Std.TransCmp.isLE_trans hab (Ordering.isLE_of_eq_eq hbb))

/-- Arrangements of the same members have the same keys in the same places once they are
sorted. -/
theorem map_mergeSort_of_perm (cmp : α → α → Ordering) [Std.TransCmp cmp]
    (hkey : ∀ a ∈ xs, ∀ b ∈ xs, cmp a b = .eq ↔ key a = key b) (h : xs.Perm ys) :
    (xs.mergeSort fun a b => (cmp a b).isLE).map key =
      (ys.mergeSort fun a b => (cmp a b).isLE).map key := by
  have hxs : (xs.mergeSort fun a b => (cmp a b).isLE).Perm xs := List.mergeSort_perm xs _
  have hys : (ys.mergeSort fun a b => (cmp a b).isLE).Perm xs :=
    (List.mergeSort_perm ys _).trans h.symm
  refine List.Perm.eq_of_pairwise ?_ (pairwise_keyLE_mergeSort hkey .rfl)
    (pairwise_keyLE_mergeSort hkey h.symm) ((hxs.trans hys.symm).map key)
  intro k k' hk hk' hle hge
  obtain ⟨a, ha, rfl⟩ := List.mem_map.mp hk
  obtain ⟨b, hb, rfl⟩ := List.mem_map.mp hk'
  have ha' := hxs.mem_iff.mp ha
  have hb' := hys.mem_iff.mp hb
  exact (hkey a ha' b hb').mp
    (Std.OrientedCmp.isLE_antisymm (hle a ha' b hb' rfl rfl) (hge b hb' a ha' rfl rfl))

theorem mergeSort_eq_of_perm (cmp : α → α → Ordering) [Std.TransCmp cmp]
    (hanti : ∀ a ∈ xs, ∀ b ∈ xs, cmp a b = .eq → a = b) (h : xs.Perm ys) :
    (xs.mergeSort fun a b => (cmp a b).isLE) = ys.mergeSort fun a b => (cmp a b).isLE := by
  have hkey : ∀ a ∈ xs, ∀ b ∈ xs, cmp a b = .eq ↔ id a = id b := by
    intro a ha b hb
    refine ⟨hanti a ha b hb, ?_⟩
    rintro rfl
    exact Std.ReflCmp.compare_self
  simpa using map_mergeSort_of_perm cmp hkey h

end Sorting

end ResourceBundles.Lists
