import ResourceBundles.Path
import ResourceBundles.Proofs.Lists
import ResourceBundles.Proofs.Text.Lineage
import Mathlib.Data.List.Induction

/-!
# Pieces and components of paths

A path is told by its pieces and by whether it is absolute.  Joining a name puts it behind
the pieces, and changing an extension changes the last piece that means something; the
pieces in front stay as they are.
-/

namespace ResourceBundles.Path

variable {p q : Path} {n e t stem extension : Text} {absolute first : Bool} {ps : List Text}
  {cs : List Component} {c : Component}

/-- A text that can name a file or a directory. -/
structure IsName (n : Text) : Prop where
  ne_nil : n ≠ []
  ne_current : n ≠ ['.']
  ne_parent : n ≠ ['.', '.']
  slash_not_mem : '/' ∉ n

instance : Decidable (IsName n) :=
  decidable_of_iff (n ≠ [] ∧ n ≠ ['.'] ∧ n ≠ ['.', '.'] ∧ '/' ∉ n)
    ⟨fun ⟨h, h', h'', hslash⟩ => ⟨h, h', h'', hslash⟩,
      fun h => ⟨h.ne_nil, h.ne_current, h.ne_parent, h.slash_not_mem⟩⟩

theorem isName_of_length (hlength : 2 < n.length) (hslash : '/' ∉ n) : IsName n := by
  refine ⟨?_, ?_, ?_, hslash⟩ <;>
  · rintro rfl
    exact absurd hlength (by decide)

theorem IsName.ofPiece? (hn : IsName n) : Component.ofPiece? first n = some (.name n) := by
  rw [Component.ofPiece?, if_neg hn.ne_nil, if_neg hn.ne_current, if_neg hn.ne_parent]

theorem exists_ofPiece? (first : Bool) (hne : n ≠ []) (hdot : n ≠ ['.']) :
    ∃ c, Component.ofPiece? first n = some c ∧ c.text = n := by
  rw [Component.ofPiece?, if_neg hne, if_neg hdot]
  by_cases hparent : n = ['.', '.']
  · exact ⟨.parent, if_pos hparent, hparent.symm⟩
  · exact ⟨.name n, if_neg hparent, rfl⟩

/-- Pieces without dots stand for themselves, unless they are empty. -/
theorem filterMap_ofPiece? (h : ∀ n ∈ ps, '.' ∉ n) :
    ps.filterMap (Component.ofPiece? false) = (ps.filter (· ≠ [])).map .name := by
  rw [← List.filterMap_eq_map, List.filterMap_filter]
  apply List.filterMap_congr
  intro n hn
  have hcurrent : n ≠ ['.'] := fun he => h n hn (he ▸ List.mem_cons_self)
  have hparent : n ≠ ['.', '.'] := fun he => h n hn (he ▸ List.mem_cons_self)
  by_cases hne : n = []
  · simp [hne, Component.ofPiece?]
  · simp [Component.ofPiece?, hne, hcurrent, hparent]

/-! ## Pieces -/

theorem slash_not_mem_of_mem_pieces (h : n ∈ p.pieces) : '/' ∉ n :=
  fun hslash => (Lists.of_mem_splitOn h hslash).2 rfl

theorem ofPieces_pieces (p : Path) : ofPieces p.isAbsolute p.pieces = p := by
  obtain ⟨t⟩ := p
  simp only [ofPieces, pieces, List.intercalate_splitOn]
  cases t with
  | nil => rfl
  | cons x t => by_cases hx : x = '/' <;> simp [isAbsolute, hx]

theorem pieces_ne_of_isAbsolute (h : p.isAbsolute = false) : p.pieces ≠ [] :: n :: ps := by
  intro hp
  have hself := ofPieces_pieces p
  rw [h, hp] at hself
  rw [← hself] at h
  simp [ofPieces, isAbsolute, List.intercalate_cons_cons] at h

theorem isAbsolute_ofPieces (hslash : ∀ n ∈ ps, '/' ∉ n)
    (hfirst : absolute = false → ps.head? ≠ some []) :
    (ofPieces absolute ps).isAbsolute = absolute := by
  cases absolute with
  | true => rfl
  | false =>
      cases ps with
      | nil => rfl
      | cons n ps =>
          have hn : n ≠ [] := fun hn => hfirst rfl (congrArg some hn)
          obtain ⟨x, n, rfl⟩ := List.exists_cons_of_ne_nil hn
          have hx : x ≠ '/' := by
            rintro rfl
            exact hslash _ List.mem_cons_self List.mem_cons_self
          cases ps <;> simp [ofPieces, isAbsolute, List.intercalate_cons_cons, hx]

/-- The components of a path with given pieces. -/
def componentsOfPieces (absolute : Bool) (ps : List Text) : List Component :=
  (if absolute then [.root] else []) ++ componentsOf absolute ps

theorem components_eq_pieces (p : Path) :
    p.components = componentsOfPieces p.isAbsolute p.pieces := rfl

/-- The pieces of a path can be read back if no slash starts a relative path. -/
theorem pieces_ofPieces (hne : ps ≠ []) (hslash : ∀ n ∈ ps, '/' ∉ n)
    (hfirst : absolute = false → ps.head? ≠ some []) : (ofPieces absolute ps).pieces = ps := by
  rw [pieces, isAbsolute_ofPieces hslash hfirst]
  cases absolute <;> exact List.splitOn_intercalate '/' hslash hne

theorem components_ofPieces (hne : ps ≠ []) (hslash : ∀ n ∈ ps, '/' ∉ n)
    (hfirst : absolute = false → ps.head? ≠ some []) :
    (ofPieces absolute ps).components = componentsOfPieces absolute ps := by
  rw [components_eq_pieces, isAbsolute_ofPieces hslash hfirst, pieces_ofPieces hne hslash hfirst]

/-- Whether a joined path follows the text of this one without a slash in between. -/
def IsOpen (p : Path) : Prop := p.text = [] ∨ p.text.getLast? = some '/'

instance : Decidable p.IsOpen := inferInstanceAs (Decidable (_ ∨ _))

/-- The pieces that stay in front of a joined path. -/
def frontPieces (p : Path) : List Text := if p.IsOpen then p.pieces.dropLast else p.pieces

/-- The text behind the slash of the root, if there is one. -/
def body (p : Path) : Text := if p.isAbsolute then p.text.tail else p.text

theorem body_of_isOpen (h : p.IsOpen) : p.body = [] ∨ ∃ front, p.body = front ++ ['/'] := by
  obtain ⟨t⟩ := p
  rw [← List.getLast?_eq_some_iff]
  cases t with
  | nil => exact .inl rfl
  | cons x t =>
      by_cases hx : x = '/'
      · cases t <;> simp_all [IsOpen, body, isAbsolute]
      · simpa [IsOpen, body, isAbsolute, hx] using h

theorem splitOn_body_append (h : p.IsOpen) (t : Text) :
    (p.body ++ t).splitOn '/' = p.frontPieces ++ t.splitOn '/' := by
  have hfront : p.frontPieces = (p.body.splitOn '/').dropLast := if_pos h
  rcases body_of_isOpen h with hb | ⟨front, hb⟩
  · rw [hfront, hb]
    rfl
  · rw [hfront, hb, List.append_assoc, List.cons_append, List.nil_append,
      List.splitOn_append_cons_self, List.splitOn_append_cons_self, List.splitOn_nil,
      List.dropLast_concat]

theorem pieces_of_isOpen (h : p.IsOpen) : p.pieces = p.frontPieces ++ [[]] := by
  have hp := splitOn_body_append h []
  rwa [List.append_nil] at hp

theorem isAbsolute_eq_false (hn : '/' ∉ n) : (Path.mk n).isAbsolute = false := by
  cases n with
  | nil => rfl
  | cons x n =>
      have hx : x ≠ '/' := fun hx => hn (hx ▸ List.mem_cons_self)
      simp [isAbsolute, hx]

theorem join_of_relative (hq : q.isAbsolute = false) :
    p.join q = ⟨p.text ++ if p.IsOpen then q.text else '/' :: q.text⟩ := by
  rw [join, hq, if_neg Bool.false_ne_true]
  by_cases h : p.IsOpen
  · rw [if_pos h]
    exact if_pos h
  · rw [if_neg h]
    exact if_neg h

theorem join_eq (hn : '/' ∉ n) :
    p.join ⟨n⟩ = ⟨p.text ++ if p.IsOpen then n else '/' :: n⟩ :=
  join_of_relative (isAbsolute_eq_false hn)

theorem isAbsolute_join_of_relative (hq : q.isAbsolute = false) :
    (p.join q).isAbsolute = p.isAbsolute := by
  rw [join_of_relative hq]
  by_cases hp : p.text = []
  · rw [if_pos (.inl hp), isAbsolute, hp]
    exact hq.trans (by rw [isAbsolute, hp]; rfl)
  · rw [isAbsolute, isAbsolute, List.head?_append_of_ne_nil _ hp]

theorem isAbsolute_join (hn : '/' ∉ n) : (p.join ⟨n⟩).isAbsolute = p.isAbsolute :=
  isAbsolute_join_of_relative (isAbsolute_eq_false hn)

theorem isAbsolute_join_of_absolute (h : p.isAbsolute = true) : (p.join q).isAbsolute = true := by
  cases hq : q.isAbsolute with
  | true => rwa [join, if_pos hq]
  | false => rwa [isAbsolute_join_of_relative hq]

theorem body_join (hq : q.isAbsolute = false) :
    (p.join q).body = p.body ++ if p.IsOpen then q.text else '/' :: q.text := by
  rw [body, isAbsolute_join_of_relative hq, join_of_relative hq, body]
  by_cases ha : p.isAbsolute
  · have hp : p.text ≠ [] := by
      rintro hp
      simp [isAbsolute, hp] at ha
    rw [if_pos ha, if_pos ha, List.tail_append_of_ne_nil hp]
  · rw [if_neg ha, if_neg ha]

theorem pieces_of_relative (hq : q.isAbsolute = false) : q.pieces = q.text.splitOn '/' := by
  rw [pieces, hq]
  rfl

theorem pieces_join_of_relative (hq : q.isAbsolute = false) :
    (p.join q).pieces = p.frontPieces ++ q.pieces := by
  change (p.join q).body.splitOn '/' = _
  rw [body_join hq, pieces_of_relative hq]
  by_cases h : p.IsOpen
  · rw [if_pos h, splitOn_body_append h]
  · rw [if_neg h, frontPieces, if_neg h, List.splitOn_append_cons_self]
    rfl

theorem pieces_join (hn : '/' ∉ n) : (p.join ⟨n⟩).pieces = p.frontPieces ++ [n] := by
  have hq := isAbsolute_eq_false hn
  rw [pieces_join_of_relative hq, pieces_of_relative hq, List.splitOn_eq_singleton hn]

theorem join_eq_ofPieces (hn : '/' ∉ n) :
    p.join ⟨n⟩ = ofPieces p.isAbsolute (p.frontPieces ++ [n]) := by
  rw [← pieces_join hn, ← isAbsolute_join hn, ofPieces_pieces]

theorem text_join_append (hn : '/' ∉ n ++ t) :
    (p.join ⟨n ++ t⟩).text = (p.join ⟨n⟩).text ++ t := by
  rw [join_eq hn, join_eq fun h => hn (List.mem_append_left t h)]
  split_ifs <;> simp

theorem not_isOpen_join (hn : '/' ∉ n) (hne : n ≠ []) : ¬(p.join ⟨n⟩).IsOpen := by
  have htext : (p.join ⟨n⟩).text = (p.join ⟨[]⟩).text ++ n := text_join_append (n := []) hn
  rintro (h | h)
  · rw [htext] at h
    exact hne (List.append_eq_nil_iff.mp h).2
  · rw [htext, List.getLast?_append_of_ne_nil _ hne] at h
    exact hn (List.mem_of_getLast? h)

theorem frontPieces_join (hn : '/' ∉ n) (hne : n ≠ []) :
    (p.join ⟨n⟩).frontPieces = p.frontPieces ++ [n] := by
  rw [frontPieces, if_neg (not_isOpen_join hn hne), pieces_join hn]

theorem isOpen_append_iff (hne : t ≠ []) : IsOpen ⟨n ++ t⟩ ↔ t.getLast? = some '/' := by
  rw [IsOpen, List.getLast?_append_of_ne_nil _ hne]
  simp [hne]

theorem isOpen_join_iff (hq : q.isAbsolute = false) : (p.join q).IsOpen ↔ q.IsOpen := by
  rw [join_of_relative hq]
  by_cases ht : q.text = []
  · have hjoin : IsOpen ⟨p.text ++ if p.IsOpen then q.text else '/' :: q.text⟩ := by
      rw [ht]
      split_ifs with hp
      · rwa [List.append_nil]
      · exact .inr List.getLast?_concat
    exact iff_of_true hjoin (.inl ht)
  · have hlast : q.IsOpen ↔ q.text.getLast? = some '/' := isOpen_append_iff (n := []) ht
    rw [hlast]
    split_ifs
    · exact isOpen_append_iff ht
    · rw [isOpen_append_iff (List.cons_ne_nil _ _), ← List.singleton_append,
        List.getLast?_append_of_ne_nil _ ht]

/-- A name is joined to a joined path as to the path behind the first one. -/
theorem join_join (hq : q.isAbsolute = false) (hn : '/' ∉ n) :
    p.join (q.join ⟨n⟩) = (p.join q).join ⟨n⟩ := by
  rw [join_of_relative ((isAbsolute_join hn).trans hq), join_eq hn, join_eq hn]
  simp only [isOpen_join_iff hq]
  rw [join_of_relative hq]
  split_ifs <;> simp

/-! ## Components -/

theorem componentsOfPieces_concat (ps : List Text) :
    componentsOfPieces absolute (ps ++ [n]) = componentsOfPieces absolute ps ++
      (Component.ofPiece? (!absolute && ps.isEmpty) n).toList := by
  rw [componentsOfPieces, componentsOfPieces, List.append_assoc]
  congr 1
  cases ps with
  | nil => simp [componentsOf]
  | cons m ps => cases h : Component.ofPiece? false n <;> simp [componentsOf, h]

theorem ofPiece?_of_ne_current (first : Bool) (hdot : n ≠ ['.']) :
    Component.ofPiece? first n = Component.ofPiece? false n := by
  simp only [Component.ofPiece?, if_neg hdot]

theorem componentsOfPieces_append (ps : List Text) {qs : List Text}
    (hdot : qs.head? ≠ some ['.']) :
    componentsOfPieces absolute (ps ++ qs) =
      componentsOfPieces absolute ps ++ qs.filterMap (Component.ofPiece? false) := by
  rw [componentsOfPieces, componentsOfPieces, List.append_assoc]
  congr 1
  cases ps with
  | cons m ps => simp [componentsOf]
  | nil =>
      cases qs with
      | nil => rfl
      | cons n qs =>
          have hn : n ≠ ['.'] := fun hn => hdot (congrArg some hn)
          have hfirst := ofPiece?_of_ne_current (!absolute) hn
          cases h : Component.ofPiece? false n <;> simp [componentsOf, hfirst, h]

theorem components_eq_frontPieces (p : Path) :
    p.components = componentsOfPieces p.isAbsolute p.frontPieces := by
  rw [components_eq_pieces]
  by_cases h : p.IsOpen
  · rw [pieces_of_isOpen h, componentsOfPieces_concat]
    exact List.append_nil _
  · rw [frontPieces, if_neg h]

theorem components_of_relative (hq : q.isAbsolute = false) (hdot : q.pieces.head? ≠ some ['.']) :
    q.components = q.pieces.filterMap (Component.ofPiece? false) := by
  rw [components_eq_pieces, hq, ← List.nil_append q.pieces, componentsOfPieces_append [] hdot]
  rfl

theorem components_join_of_relative (hq : q.isAbsolute = false)
    (hdot : q.pieces.head? ≠ some ['.']) :
    (p.join q).components = p.components ++ q.components := by
  rw [components_eq_pieces, isAbsolute_join_of_relative hq, pieces_join_of_relative hq,
    componentsOfPieces_append _ hdot, ← components_eq_frontPieces, components_of_relative hq hdot]

theorem components_of_piece (hn : '/' ∉ n) (hdot : n ≠ ['.']) :
    (Path.mk n).pieces.head? ≠ some ['.'] ∧
      (Path.mk n).components = (Component.ofPiece? false n).toList := by
  have hq := isAbsolute_eq_false hn
  have hpieces : (Path.mk n).pieces = [n] := by
    rw [pieces_of_relative hq, List.splitOn_eq_singleton hn]
  have hhead : (Path.mk n).pieces.head? ≠ some ['.'] := by simpa [hpieces] using hdot
  refine ⟨hhead, ?_⟩
  rw [components_of_relative hq hhead, hpieces]
  cases hc : Component.ofPiece? false n <;> simp [hc]

theorem components_join (hn : '/' ∉ n) (hdot : n ≠ ['.']) :
    (p.join ⟨n⟩).components = p.components ++ (Component.ofPiece? false n).toList := by
  obtain ⟨hhead, hcomponents⟩ := components_of_piece hn hdot
  rw [components_join_of_relative (isAbsolute_eq_false hn) hhead, hcomponents]

theorem eq_of_map_name {ns ns' : List Text} (h : ns.map Component.name = ns'.map .name) :
    ns = ns' := by
  have hinjective : Function.Injective Component.name := fun _ _ => Component.name.inj
  exact List.map_injective_iff.mpr hinjective h

/-! ## Names of files -/

theorem lastPieces_join (hn : IsName n) : (p.join ⟨n⟩).lastPieces = n :: p.frontPieces.reverse := by
  rw [lastPieces, pieces_join hn.slash_not_mem, List.reverse_concat, dropVoid, hn.ofPiece?]
  rfl

theorem fileName?_join (hn : IsName n) : (p.join ⟨n⟩).fileName? = some n := by
  rw [fileName?, lastPieces_join hn]
  exact if_neg (not_or.mpr ⟨hn.ne_current, hn.ne_parent⟩)

theorem componentsOfPieces_dropVoid (ps : List Text) :
    componentsOfPieces absolute (dropVoid absolute ps).reverse =
      componentsOfPieces absolute ps.reverse := by
  induction ps with
  | nil => rfl
  | cons n ps ih =>
      rw [dropVoid]
      split_ifs with h
      · rw [Option.isNone_iff_eq_none] at h
        rw [ih, List.reverse_cons, componentsOfPieces_concat, List.isEmpty_reverse, h,
          Option.toList_none, List.append_nil]
      · rfl

theorem ofPiece?_of_dropVoid {rest : List Text} (h : dropVoid absolute ps = n :: rest) :
    ∃ c, Component.ofPiece? (!absolute && rest.isEmpty) n = some c := by
  induction ps with
  | nil => exact absurd h (List.cons_ne_nil n rest).symm
  | cons m ps ih =>
      rw [dropVoid] at h
      split_ifs at h with hm
      · exact ih h
      · obtain ⟨rfl, rfl⟩ := List.cons.inj h
        exact Option.ne_none_iff_exists'.mp (mt Option.isNone_iff_eq_none.mpr hm)

theorem dropVoid_suffix (ps : List Text) : dropVoid absolute ps <:+ ps := by
  induction ps with
  | nil => exact List.suffix_rfl
  | cons n ps ih =>
      rw [dropVoid]
      split_ifs
      · exact ih.trans (List.suffix_cons n ps)
      · exact List.suffix_rfl

theorem lastPieces_isPrefix (p : Path) : p.lastPieces.reverse <+: p.pieces := by
  rw [← List.reverse_reverse p.pieces]
  exact List.reverse_prefix.mpr (dropVoid_suffix _)

theorem components_eq_lastPieces (p : Path) :
    p.components = componentsOfPieces p.isAbsolute p.lastPieces.reverse := by
  rw [components_eq_pieces, lastPieces, componentsOfPieces_dropVoid, List.reverse_reverse]

/-- The last component stands for the first of the last pieces. -/
theorem components_of_lastPieces {rest : List Text} (h : p.lastPieces = n :: rest) :
    ∃ c, Component.ofPiece? (!p.isAbsolute && rest.isEmpty) n = some c ∧
      p.components = componentsOfPieces p.isAbsolute rest.reverse ++ [c] := by
  obtain ⟨c, hc⟩ := ofPiece?_of_dropVoid h
  refine ⟨c, hc, ?_⟩
  rw [components_eq_lastPieces, h, List.reverse_cons, componentsOfPieces_concat,
    List.isEmpty_reverse, hc, Option.toList_some]

theorem eq_name_iff (h : Component.ofPiece? first e = some c) :
    c = .name n ↔ (if e = ['.'] ∨ e = ['.', '.'] then none else some e) = some n := by
  unfold Component.ofPiece? at h
  split_ifs at h ⊢ <;> cases h <;> simp_all

theorem fileName?_eq_some_iff :
    p.fileName? = some n ↔ ∃ cs, p.components = cs ++ [.name n] := by
  rw [fileName?]
  cases h : p.lastPieces with
  | nil =>
      rw [components_eq_lastPieces, h]
      cases p.isAbsolute <;>
        simp [componentsOfPieces, componentsOf, List.singleton_eq_append_iff]
  | cons m rest =>
      obtain ⟨c, hc, hcomponents⟩ := components_of_lastPieces h
      rw [hcomponents, ← eq_name_iff hc]
      constructor
      · rintro rfl
        exact ⟨_, rfl⟩
      · rintro ⟨cs, hcs⟩
        exact List.singleton_inj.mp (List.append_inj_right' hcs rfl)

theorem exists_lastPieces (h : p.components = cs ++ [.name n]) :
    ∃ front, p.lastPieces = n :: front.reverse ∧ front ++ [n] <+: p.pieces ∧
      cs = componentsOfPieces p.isAbsolute front := by
  have hname := fileName?_eq_some_iff.mpr ⟨cs, h⟩
  have hfront := lastPieces_isPrefix p
  cases hlast : p.lastPieces with
  | nil => simp [fileName?, hlast] at hname
  | cons m rest =>
      obtain rfl : m = n := by
        rw [fileName?, hlast] at hname
        dsimp only at hname
        split_ifs at hname
        exact Option.some.inj hname
      obtain ⟨c, -, hcomponents⟩ := components_of_lastPieces hlast
      refine ⟨rest.reverse, ?_, ?_, ?_⟩
      · rw [List.reverse_reverse]
      · rwa [hlast, List.reverse_cons] at hfront
      · exact List.append_inj_left' (h.symm.trans hcomponents) rfl

theorem slash_not_mem_of_components (h : p.components = cs ++ [.name n]) : '/' ∉ n := by
  obtain ⟨front, -, hfront, -⟩ := exists_lastPieces h
  exact slash_not_mem_of_mem_pieces (hfront.subset (by simp))

/-! ## Extensions -/

theorem splitExtension_of_not_mem (h : '.' ∉ n) : splitExtension n = (n, none) := by
  rw [splitExtension, Dotted.cutLast_eq_none_iff.mpr h]

theorem splitExtension_append (hne : stem ≠ []) (he : '.' ∉ e) :
    splitExtension (stem ++ '.' :: e) = (stem, some e) := by
  rw [splitExtension, Dotted.cutLast_append stem he]
  exact if_neg hne

theorem eq_of_splitExtension (h : (splitExtension n).2 = some e) :
    ∃ stem, stem ≠ [] ∧ '.' ∉ e ∧ n = stem ++ '.' :: e := by
  rw [splitExtension] at h
  cases hcut : Dotted.cutLast n with
  | none => simp [hcut] at h
  | some cut =>
      obtain ⟨front, back⟩ := cut
      obtain ⟨hn, hback⟩ := Dotted.eq_of_cutLast hcut
      by_cases hfront : front = []
      · simp [hcut, hfront] at h
      · obtain rfl : back = e := by simpa [hcut, hfront] using h
        exact ⟨front, hfront, hback, hn⟩

/-- A name with another extension, or with none if `extension` is empty. -/
def rename (n extension : Text) : Text :=
  (splitExtension n).1 ++ if extension = [] then [] else '.' :: extension

theorem splitExtension_isPrefix (n : Text) : (splitExtension n).1 <+: n := by
  rw [splitExtension]
  cases hcut : Dotted.cutLast n with
  | none => exact List.prefix_rfl
  | some cut =>
      obtain ⟨front, back⟩ := cut
      dsimp only
      split_ifs
      · exact List.prefix_rfl
      · exact ⟨'.' :: back, (Dotted.eq_of_cutLast hcut).1.symm⟩

theorem splitExtension_ne_nil (hne : n ≠ []) : (splitExtension n).1 ≠ [] := by
  rw [splitExtension]
  cases Dotted.cutLast n with
  | none => exact hne
  | some cut =>
      dsimp only
      split_ifs with hfront
      · exact hne
      · exact hfront

theorem isName_rename (hn : '/' ∉ n) (he : '/' ∉ extension) (hlength : 1 < extension.length) :
    IsName (rename n extension) := by
  have hne : extension ≠ [] := by
    rintro rfl
    exact absurd hlength (by decide)
  have hstem : '/' ∉ (splitExtension n).1 := fun h => hn ((splitExtension_isPrefix n).subset h)
  rw [rename, if_neg hne]
  apply isName_of_length
  · rw [List.length_append, List.length_cons]
    omega
  · simp [hstem, he]

theorem setExtension_join (hn : IsName n) (hr : '/' ∉ rename n extension) :
    (p.join ⟨n⟩).setExtension extension = p.join ⟨rename n extension⟩ := by
  rw [setExtension, fileName?_join hn, isAbsolute_join hn.slash_not_mem, lastPieces_join hn,
    join_eq_ofPieces hr]
  simp [rename]

theorem components_setExtension (h : p.components = cs ++ [.name n])
    (hr : IsName (rename n extension)) :
    (p.setExtension extension).components = cs ++ [.name (rename n extension)] := by
  obtain ⟨front, hlast, hfront, rfl⟩ := exists_lastPieces h
  have hset : p.setExtension extension =
      ofPieces p.isAbsolute (front ++ [rename n extension]) := by
    rw [setExtension, fileName?_eq_some_iff.mpr ⟨_, h⟩, hlast]
    simp [rename]
  have hslash : ∀ m ∈ front ++ [rename n extension], '/' ∉ m := by
    intro m hm
    rcases List.mem_append.mp hm with hm | hm
    · exact slash_not_mem_of_mem_pieces (hfront.subset (List.mem_append_left _ hm))
    · exact List.mem_singleton.mp hm ▸ hr.slash_not_mem
  have hfirst : p.isAbsolute = false → (front ++ [rename n extension]).head? ≠ some [] := by
    intro ha hhead
    obtain ⟨back, hback⟩ := hfront
    -- An empty first piece of a relative path would be its only one, which means nothing.
    cases front with
    | nil => exact hr.ne_nil (Option.some.inj hhead)
    | cons m front =>
        obtain rfl : m = [] := Option.some.inj hhead
        cases front <;> exact pieces_ne_of_isAbsolute ha hback.symm
  rw [hset, components_ofPieces (by simp) hslash hfirst, componentsOfPieces_concat, hr.ofPiece?,
    Option.toList_some]

theorem setExtension_eq_self (h : p.fileName? = none) : p.setExtension extension = p := by
  rw [setExtension, h]

theorem isAbsolute_setExtension_of_absolute (h : p.isAbsolute = true) :
    (p.setExtension extension).isAbsolute = true := by
  rw [setExtension]
  cases p.fileName? with
  | none => exact h
  | some n =>
      rw [h]
      rfl

/-- Giving a path an extension takes no component away and adds none. -/
theorem length_components_setExtension (he : '/' ∉ extension) (hlength : 1 < extension.length) :
    (p.setExtension extension).components.length = p.components.length := by
  cases hname : p.fileName? with
  | none => rw [setExtension_eq_self hname]
  | some n =>
      obtain ⟨cs, hcs⟩ := fileName?_eq_some_iff.mp hname
      rw [components_setExtension hcs (isName_rename (slash_not_mem_of_components hcs) he hlength),
        hcs, List.length_append, List.length_append]
      rfl

/-- A path that ends in a name has the extension that it is given. -/
theorem extension?_setExtension (h : p.components = cs ++ [.name n]) (hne : n ≠ [])
    (hr : IsName (rename n extension)) (hnil : extension ≠ []) (hdot : '.' ∉ extension) :
    (p.setExtension extension).extension? = some extension := by
  have hstem : (splitExtension n).1 ≠ [] := splitExtension_ne_nil hne
  rw [extension?, fileName?_eq_some_iff.mpr ⟨_, components_setExtension h hr⟩, Option.bind_some,
    rename, if_neg hnil, splitExtension_append hstem hdot]

theorem extension?_join (hn : IsName n) : (p.join ⟨n⟩).extension? = (splitExtension n).2 := by
  rw [extension?, fileName?_join hn]
  rfl

/-- What is left of a name without its extension: the text in front of the dot, but two
dots where that would be a single one. -/
def bare (stem : Text) : Text := if stem = ['.'] then ['.', '.'] else stem

theorem bare_of_ne (h : stem ≠ ['.']) : bare stem = stem := if_neg h

theorem bare_ne_nil (h : stem ≠ []) : bare stem ≠ [] := by
  rw [bare]
  split_ifs <;> simp [h]

theorem bare_ne_current (stem : Text) : bare stem ≠ ['.'] := by
  rw [bare]
  split_ifs with h
  · simp
  · exact h

theorem slash_not_mem_bare (h : '/' ∉ stem) : '/' ∉ bare stem := by
  rw [bare]
  split_ifs <;> simp [h]

theorem withoutExtension_join (hn : IsName (stem ++ '.' :: e)) (hne : stem ≠ []) (he : '.' ∉ e) :
    (p.join ⟨stem ++ '.' :: e⟩).withoutExtension = p.join ⟨bare stem⟩ := by
  have hslash : '/' ∉ stem := fun h => hn.slash_not_mem (List.mem_append_left _ h)
  have htext := text_join_append (p := p) (n := stem ++ ['.']) (t := e)
    (by simpa using hn.slash_not_mem)
  rw [List.append_assoc, List.singleton_append] at htext
  have hfront : (p.join ⟨stem ++ '.' :: e⟩).withoutExtension =
      (p.join ⟨stem ++ ['.']⟩).setExtension [] := by
    rw [withoutExtension, extension?_join hn, splitExtension_append hne he, htext]
    simp
  rw [hfront]
  by_cases hdot : stem = ['.']
  · have hcomponents := components_join (p := p) (n := ['.', '.']) (by simp) (by simp)
    rw [hdot]
    apply setExtension_eq_self
    rw [Option.eq_none_iff_forall_ne_some]
    intro n hname
    obtain ⟨cs, hcs⟩ := fileName?_eq_some_iff.mp hname
    exact absurd (List.append_inj_right' (hcs.symm.trans hcomponents) rfl)
      (by simp [Component.ofPiece?])
  · have hname : IsName (stem ++ ['.']) := by
      refine ⟨by simp, ?_, ?_, by simp [hslash]⟩
      · exact fun h => hne (List.append_left_eq_self.mp h)
      · exact fun h => hdot (List.append_inj_left' h rfl)
    have hrename : rename (stem ++ ['.']) [] = stem := by
      rw [rename, splitExtension_append hne List.not_mem_nil]
      exact List.append_nil stem
    rw [setExtension_join hname (hrename.symm ▸ hslash), hrename, bare_of_ne hdot]

/-! ## Rests of paths -/

/-- Whether a path has the components of another one and at least one more. -/
structure IsBelow (p base : Path) : Prop where
  startsWith : p.startsWith base = true
  length_lt : base.components.length < p.components.length

theorem isBelow_iff {base : Path} :
    p.IsBelow base ↔ ∃ rest, rest ≠ [] ∧ p.components = base.components ++ rest := by
  constructor
  · rintro ⟨hstarts, hlength⟩
    obtain ⟨rest, hrest⟩ := List.isPrefixOf_iff_prefix.mp hstarts
    refine ⟨rest, ?_, hrest.symm⟩
    rintro rfl
    rw [List.append_nil] at hrest
    exact absurd hlength (hrest ▸ Nat.lt_irrefl _)
  · rintro ⟨rest, hne, hrest⟩
    refine ⟨List.isPrefixOf_iff_prefix.mpr ⟨rest, hrest.symm⟩, ?_⟩
    rw [hrest, List.length_append]
    exact Nat.lt_add_of_pos_right (List.length_pos_iff.mpr hne)

theorem relativeTo?_of_append {base : Path} (h : p.components = base.components ++ cs) :
    p.relativeTo? base = some (ofComponents cs) := by
  have hstarts : p.startsWith base = true := List.isPrefixOf_iff_prefix.mpr ⟨cs, h.symm⟩
  rw [relativeTo?, if_pos hstarts, h, List.drop_left]

/-- A path with one more piece is a path to which the piece is joined. -/
theorem exists_join_eq_ofPieces (absolute : Bool) (ps : List Text) (hn : '/' ∉ n) :
    ∃ q : Path, q.join ⟨n⟩ = ofPieces absolute (ps ++ [n]) := by
  have hjoin : ∀ front : Text, IsOpen ⟨front⟩ →
      (Path.mk front).join ⟨n⟩ = ⟨front ++ n⟩ := by
    intro front hopen
    rw [join_eq hn, if_pos hopen]
  by_cases hps : ps = []
  · subst hps
    refine ⟨⟨if absolute then ['/'] else []⟩, ?_⟩
    rw [hjoin _ (by cases absolute <;> decide), ofPieces, List.nil_append,
      List.intercalate_singleton]
  · refine ⟨⟨(ofPieces absolute ps).text ++ ['/']⟩, ?_⟩
    rw [hjoin _ (.inr List.getLast?_concat), ofPieces, ofPieces, Lists.intercalate_concat hps]
    simp

theorem exists_join_eq_ofComponents (cs : List Component) (hn : '/' ∉ n) :
    ∃ q : Path, q.join ⟨n⟩ = ofComponents (cs ++ [.name n]) := by
  cases cs with
  | nil => exact exists_join_eq_ofPieces false [] hn
  | cons c cs =>
      have hmap : (cs ++ [Component.name n]).map Component.text = cs.map Component.text ++ [n] := by
        rw [List.map_append]
        rfl
      cases c with
      | root =>
          rw [List.cons_append, ofComponents, hmap]
          exact exists_join_eq_ofPieces true _ hn
      | current | parent | name t =>
          rw [List.cons_append, ofComponents, List.map_cons, hmap]
          · exact exists_join_eq_ofPieces false (_ :: _) hn
          · exact nofun

/-! ## Order -/

instance : Std.TransOrd Component :=
  inferInstanceAs (Std.TransCmp (compareLex (compareOn Component.rank) (compareOn Component.text)))

theorem Component.eq_of_rank_text {c c' : Component} (hrank : c.rank = c'.rank)
    (htext : c.text = c'.text) : c = c' := by
  cases c <;> cases c' <;> simp_all [rank, text]

instance : Std.LawfulEqOrd Component where
  compare_self := Std.ReflCmp.compare_self
  eq_of_compare {c c'} h := by
    have hcompare : compare c c' = (compare c.rank c'.rank).then (compare c.text c'.text) := rfl
    rw [hcompare, Ordering.then_eq_eq, Std.compare_eq_iff_eq, Std.compare_eq_iff_eq] at h
    exact Component.eq_of_rank_text h.1 h.2

/-! ## Absolute paths of names -/

section Names

variable {names : List Text}

theorem dropVoid_of_isName (h : ∀ n ∈ ps, IsName n) : dropVoid absolute ps = ps := by
  cases ps with
  | nil => rfl
  | cons n ps =>
      rw [dropVoid, (h n List.mem_cons_self).ofPiece?]
      rfl

theorem pieces_of_names (h : ∀ n ∈ names, IsName n) (hne : names ≠ []) :
    (ofPieces true names).pieces = names := by
  apply pieces_ofPieces hne
  · exact fun n hn => (h n hn).slash_not_mem
  · exact fun habsolute => absurd habsolute.symm Bool.false_ne_true

theorem frontPieces_of_names (h : ∀ n ∈ names, IsName n) :
    (ofPieces true names).frontPieces = names := by
  by_cases hne : names = []
  · subst hne
    decide
  · have hpieces := pieces_of_names h hne
    by_cases hopen : (ofPieces true names).IsOpen
    · -- A path with a slash at its end has an empty piece, which is no name.
      rw [pieces_of_isOpen hopen] at hpieces
      exact absurd rfl (h [] (hpieces ▸ by simp)).ne_nil
    · rw [frontPieces, if_neg hopen, hpieces]

theorem join_of_names (h : ∀ m ∈ names, IsName m) (hn : '/' ∉ n) :
    (ofPieces true names).join ⟨n⟩ = ofPieces true (names ++ [n]) := by
  rw [join_eq_ofPieces hn, frontPieces_of_names h]
  rfl

theorem lastPieces_of_names (h : ∀ n ∈ names, IsName n) :
    (ofPieces true names).lastPieces = names.reverse := by
  by_cases hne : names = []
  · subst hne
    decide
  · rw [lastPieces, pieces_of_names h hne]
    apply dropVoid_of_isName
    exact fun n hn => h n (List.mem_reverse.mp hn)

/-- The ancestors of an absolute path of names are the paths of its first names. -/
theorem ancestors_concat (h : ∀ m ∈ names ++ [n], IsName m) :
    (ofPieces true (names ++ [n])).ancestors =
      ofPieces true (names ++ [n]) :: (ofPieces true names).ancestors := by
  have hnames : ∀ m ∈ names, IsName m := fun m hm => h m (List.mem_append_left _ hm)
  have hfront : dropVoid true names.reverse = names.reverse :=
    dropVoid_of_isName fun m hm => hnames m (List.mem_reverse.mp hm)
  have habsolute : ∀ ms, (ofPieces true ms).isAbsolute = true := fun ms => rfl
  rw [ancestors, ancestors, lastPieces_of_names h, lastPieces_of_names hnames, habsolute,
    habsolute, List.reverse_concat, ancestorPieces, hfront, List.map_cons, List.reverse_reverse]

end Names

/-! ## Characters -/

section Characters

variable {P : Char → Bool}

theorem countP_ofPiece? (hdot : P '.' = false) (first : Bool) (n : Text) :
    ((Component.ofPiece? first n).toList.flatMap Component.text).countP P = n.countP P := by
  rw [Component.ofPiece?]
  split_ifs with hnil hcurrent hfirst hparent
  · simp [hnil]
  · simp [hcurrent, Component.text]
  · simp [hcurrent, hdot]
  · simp [hparent, Component.text]
  · simp [Component.text]

theorem countP_componentsOfPieces (hslash : P '/' = false) (hdot : P '.' = false)
    (absolute : Bool) (ps : List Text) :
    ((componentsOfPieces absolute ps).flatMap Component.text).countP P =
      ps.flatten.countP P := by
  induction ps using List.reverseRecOn with
  | nil => cases absolute <;> simp [componentsOfPieces, componentsOf, Component.text, hslash]
  | append_singleton ps n ih =>
      rw [componentsOfPieces_concat, List.flatMap_append, List.countP_append, ih,
        countP_ofPiece? hdot, List.flatten_concat, List.countP_append]

/-- The components of a path hold all its characters but slashes and dots. -/
theorem countP_text (hslash : P '/' = false) (hdot : P '.' = false) (p : Path) :
    p.text.countP P = (p.components.flatMap Component.text).countP P := by
  have hp : p.text = (ofPieces p.isAbsolute p.pieces).text := by rw [ofPieces_pieces]
  rw [components_eq_pieces, countP_componentsOfPieces hslash hdot, hp, ofPieces,
    List.countP_append, Lists.countP_intercalate hslash]
  cases p.isAbsolute <;> simp [hslash]

theorem countP_le_of_startsWith (hslash : P '/' = false) (hdot : P '.' = false)
    (h : p.startsWith q = true) : q.text.countP P ≤ p.text.countP P := by
  obtain ⟨rest, hrest⟩ := List.isPrefixOf_iff_prefix.mp h
  rw [countP_text hslash hdot q, countP_text hslash hdot p, ← hrest, List.flatMap_append,
    List.countP_append]
  exact Nat.le_add_right _ _

theorem countP_join (hslash : P '/' = false) (hq : q.isAbsolute = false) :
    (p.join q).text.countP P = p.text.countP P + q.text.countP P := by
  rw [join_of_relative hq, List.countP_append]
  split_ifs <;> simp [hslash]

end Characters

end ResourceBundles.Path
