import ResourceBundles.Proofs.Properties.Joining

/-!
# Division into logical lines

The natural lines of a text fall into blocks.  A line without an entry is a block of its own.  Any
other line starts a block, which goes on up to the first line that ends in an even number of
backslashes or up to the end of the text.  There is one such division, and the logical lines are
its blocks of the second kind.
-/

namespace ResourceBundles.Properties

/-- Whether a natural line asks for the next one. -/
def GoesOn (natural : Text) : Prop := Odd (trailingBackslashes natural)

instance : DecidablePred GoesOn := fun natural =>
  inferInstanceAs (Decidable (Odd (trailingBackslashes natural)))

/-- What a natural line adds to its logical line. -/
def share (natural : Text) : Text :=
  if GoesOn natural then (dropBlanks natural).dropLast else dropBlanks natural

/-- Natural lines that belong together: one without an entry, or all lines of an entry. -/
inductive Block where
  | filler (line : Text)
  | entry (front : List Text) (last : Text)

namespace Block

def lines : Block → List Text
  | filler line => [line]
  | entry front last => front ++ [last]

@[simp] theorem lines_filler (line : Text) : (filler line).lines = [line] := rfl

@[simp] theorem lines_entry (front : List Text) (last : Text) :
    (entry front last).lines = front ++ [last] := rfl

/-- The logical lines of some blocks, given the number of the first natural line. -/
def logicalLines (number : Nat) : List Block → List LogicalLine
  | [] => []
  | filler _ :: bs => logicalLines (number + 1) bs
  | entry front last :: bs =>
    { number := number, text := (front ++ [last]).flatMap share } ::
      logicalLines (number + front.length + 1) bs

end Block

/-- The rules of the division, for the blocks up to the end of a text. -/
inductive Division : List Block → Prop
  | nil : Division []
  | filler {line : Text} {bs : List Block} (h : Filler line) (rest : Division bs) :
      Division (.filler line :: bs)
  | entry {front : List Text} {last : Text} {bs : List Block}
      (hstart : ¬Filler (front.headD last)) (hfront : ∀ l ∈ front, GoesOn l)
      (hlast : GoesOn last → bs = []) (rest : Division bs) : Division (.entry front last :: bs)

variable {line : LogicalLine} {natural last last' : Text}
  {front front' ls ls' : List Text} {blocks others : List Block}

theorem flatMap_lines_entry (front : List Text) (last : Text) (bs : List Block) :
    (Block.entry front last :: bs).flatMap Block.lines =
      front ++ last :: bs.flatMap Block.lines := by
  simp

/-! ## Lines of a block -/

theorem goesOn_iff : GoesOn natural ↔ isContinued natural = true := isContinued_iff.symm

theorem dropBlanks_ne_nil (h : GoesOn natural) : dropBlanks natural ≠ [] := by
  intro hnil
  have hcontinued := goesOn_iff.mp h
  rw [← isContinued_dropBlanks, hnil] at hcontinued
  exact Bool.noConfusion hcontinued

theorem filler_iff (h : OneLine natural) :
    Filler natural ↔ isSkipped (dropBlanks natural) = true := by
  refine ⟨Filler.isSkipped, fun hskip => ?_⟩
  have hblanks : AllBlank (natural.takeWhile isBlank) :=
    fun c hc => List.all_eq_true.mp List.all_takeWhile c hc
  have hsplit : natural.takeWhile isBlank ++ dropBlanks natural = natural :=
    List.takeWhile_append_dropWhile
  cases hrest : dropBlanks natural with
  | nil =>
      rw [hrest, List.append_nil] at hsplit
      exact hsplit ▸ .blank hblanks
  | cons c t =>
      rw [hrest] at hskip hsplit
      have ht : OneLine (c :: t) := (hsplit ▸ h).of_append.2
      have hmark : c = '#' ∨ c = '!' := by simpa [isSkipped] using hskip
      have htail : OneLine t := (OneLine.of_append (t := [c]) ht).2
      exact hsplit ▸ .comment hblanks hmark htail

theorem readLine_filler (h : Filler natural) (number : Nat) :
    readLine number none natural = ([], none) := by
  simp [readLine, LogicalLine.extend?, h.isSkipped]

/-- A line that holds an entry is read as if a line without text were open. -/
theorem logicalLinesFrom_start (hone : OneLine natural) (h : ¬Filler natural) (number : Nat)
    (ls : List Text) :
    logicalLinesFrom number none (natural :: ls) =
      logicalLinesFrom number (some ⟨number, []⟩) (natural :: ls) := by
  have hskip : isSkipped (dropBlanks natural) = false := by
    simpa [filler_iff hone] using h
  simp [logicalLinesFrom, LogicalLine.extend?, hskip]

theorem readLine_goesOn (heven : isContinued line.text = false) (h : GoesOn natural)
    (number : Nat) :
    readLine number (some line) natural =
        ([], some { line with text := line.text ++ share natural }) ∧
      isContinued (line.text ++ share natural) = false := by
  have hodd : isContinued (line.text ++ dropBlanks natural) = true :=
    (isContinued_append_dropBlanks heven natural).trans (goesOn_iff.mp h)
  have hshare : (line.text ++ dropBlanks natural).dropLast = line.text ++ share natural := by
    rw [List.dropLast_append_of_ne_nil (dropBlanks_ne_nil h), share, if_pos h]
  constructor
  · simp [readLine, LogicalLine.extend?, hodd, hshare]
  · rw [← hshare]
    exact isContinued_dropLast hodd

theorem readLine_last (heven : isContinued line.text = false) (h : ¬GoesOn natural)
    (number : Nat) :
    readLine number (some line) natural =
      ([{ line with text := line.text ++ share natural }], none) := by
  have hcontinued : isContinued (line.text ++ dropBlanks natural) = false := by
    rw [isContinued_append_dropBlanks heven]
    simpa [goesOn_iff] using h
  simp [readLine, LogicalLine.extend?, hcontinued, share, h]

/-- By induction over the lines of a block, whose text so far ends in an even number of
backslashes. -/
theorem logicalLinesFrom_block (heven : isContinued line.text = false)
    (hfront : ∀ l ∈ front, GoesOn l) (hlast : GoesOn last → ls = []) (number : Nat) :
    logicalLinesFrom number (some line) (front ++ last :: ls) =
      { line with text := line.text ++ (front ++ [last]).flatMap share } ::
        logicalLinesFrom (number + front.length + 1) none ls := by
  induction front generalizing number line with
  | nil =>
      by_cases h : GoesOn last
      · obtain rfl := hlast h
        rw [List.nil_append, logicalLinesFrom_cons, (readLine_goesOn heven h number).1]
        simp [logicalLinesFrom]
      · rw [List.nil_append, logicalLinesFrom_cons, readLine_last heven h]
        simp
  | cons l front ih =>
      obtain ⟨hread, heven'⟩ := readLine_goesOn heven (hfront l (by simp)) number
      have hrest : ∀ m ∈ front, GoesOn m := fun m hm => hfront m (by simp [hm])
      rw [List.cons_append, logicalLinesFrom_cons, hread, List.nil_append, ih heven' hrest]
      simp [List.append_assoc, Nat.add_right_comm, Nat.add_assoc, Nat.add_comm 1]

/-! ## One division -/

theorem exists_append_cons_eq (front : List Text) (last : Text) (ls : List Text) :
    ∃ rest, front ++ last :: ls = front.headD last :: rest := by
  cases front <;> exact ⟨_, rfl⟩

/-- Only a block at the end of the text may stop at a line that goes on. -/
theorem flatMap_lines_eq_nil (hlast : GoesOn last → blocks = []) (h : GoesOn last) :
    blocks.flatMap Block.lines = [] := by
  rw [hlast h]
  rfl

/-- The lines of an entry in front of others are told from all of them. -/
theorem append_cons_inj (hfront : ∀ l ∈ front, GoesOn l) (hlast : GoesOn last → ls = [])
    (hfront' : ∀ l ∈ front', GoesOn l) (hlast' : GoesOn last' → ls' = [])
    (h : front ++ last :: ls = front' ++ last' :: ls') :
    front = front' ∧ last = last' ∧ ls = ls' := by
  induction front generalizing front' with
  | nil =>
      cases front' with
      | nil => simpa using h
      | cons l front' =>
          obtain ⟨rfl, hls⟩ := List.cons.inj h
          rw [hlast (hfront' last (by simp))] at hls
          simp at hls
  | cons l front ih =>
      cases front' with
      | nil =>
          obtain ⟨rfl, hls⟩ := List.cons.inj h
          rw [hlast' (hfront l (by simp))] at hls
          simp at hls
      | cons l' front' =>
          obtain ⟨rfl, hls⟩ := List.cons.inj h
          obtain ⟨rfl, rest⟩ := ih (fun m hm => hfront m (by simp [hm]))
            (fun m hm => hfront' m (by simp [hm])) hls
          exact ⟨rfl, rest⟩

namespace Division

theorem unique (h : Division blocks) (h' : Division others)
    (hlines : others.flatMap Block.lines = blocks.flatMap Block.lines) : others = blocks := by
  induction h generalizing others with
  | nil => cases h' <;> simp_all
  | @filler line bs hfiller _ ih =>
      cases h' with
      | nil => simp at hlines
      | filler _ rest =>
          obtain ⟨rfl, hrest⟩ := List.cons.inj hlines
          rw [ih rest hrest]
      | @entry front last bs' hstart =>
          obtain ⟨rest, hcons⟩ := exists_append_cons_eq front last (bs'.flatMap Block.lines)
          have hhead : front.headD last = line := by simp_all
          exact absurd (hhead ▸ hfiller) hstart
  | @entry front last bs hstart hfront hlast _ ih =>
      cases h' with
      | nil => simp at hlines
      | @filler line _ hfiller =>
          obtain ⟨rest, hcons⟩ := exists_append_cons_eq front last (bs.flatMap Block.lines)
          have hhead : front.headD last = line := by simp_all
          exact absurd (hhead ▸ hfiller) hstart
      | entry _ hfront' hlast' rest =>
          rw [flatMap_lines_entry, flatMap_lines_entry] at hlines
          obtain ⟨rfl, rfl, hrest⟩ := append_cons_inj hfront' (flatMap_lines_eq_nil hlast') hfront
            (flatMap_lines_eq_nil hlast) hlines
          rw [ih rest hrest]

/-- By induction over the natural lines behind those of an entry that is still open. -/
theorem exists_of_front (front ls : List Text) (hstart : ∀ l ∈ front.head?, ¬Filler l)
    (hfront : ∀ l ∈ front, GoesOn l) :
    ∃ blocks, Division blocks ∧ blocks.flatMap Block.lines = front ++ ls := by
  induction ls generalizing front with
  | nil =>
      rcases List.eq_nil_or_concat front with rfl | ⟨front, last, rfl⟩
      · exact ⟨[], .nil, rfl⟩
      · refine ⟨[.entry front last], .entry ?_ ?_ (fun _ => rfl) .nil, by simp⟩
        · cases front <;> exact hstart _ rfl
        · exact fun l hl => hfront l (by simp [hl])
  | cons l ls ih =>
      obtain ⟨bs, hbs, hlines⟩ := ih [] (by simp) (by simp)
      by_cases hfiller : front = [] ∧ Filler l
      · obtain ⟨rfl, hfiller⟩ := hfiller
        exact ⟨.filler l :: bs, .filler hfiller hbs, by simp [hlines]⟩
      have hhead : ¬Filler (front.headD l) := by
        cases front with
        | nil => exact fun h => hfiller ⟨rfl, h⟩
        | cons m front => exact hstart m rfl
      by_cases hgoes : GoesOn l
      -- The line joins those that are open, else it closes their block.
      · have hstart' : ∀ m ∈ (front ++ [l]).head?, ¬Filler m := by
          cases front <;> simpa using hhead
        obtain ⟨blocks, hblocks, hall⟩ := ih (front ++ [l]) hstart' fun m hm => by
          rcases List.mem_append.mp hm with hm | hm
          · exact hfront m hm
          · exact List.mem_singleton.mp hm ▸ hgoes
        exact ⟨blocks, hblocks, by simpa using hall⟩
      · refine ⟨.entry front l :: bs, .entry hhead hfront (fun h => absurd h hgoes) hbs, ?_⟩
        simp [hlines]

/-! ## Logical lines of a division -/

theorem logicalLinesFrom_eq (h : Division blocks)
    (hone : ∀ l ∈ blocks.flatMap Block.lines, OneLine l) (number : Nat) :
    logicalLinesFrom number none (blocks.flatMap Block.lines) =
      Block.logicalLines number blocks := by
  induction h generalizing number with
  | nil => rfl
  | @filler line bs hfiller _ ih =>
      have hrest := ih (fun l hl => hone l (by simp [hl])) (number + 1)
      rw [List.flatMap_cons, Block.lines_filler, List.singleton_append, logicalLinesFrom_cons,
        readLine_filler hfiller, Block.logicalLines, hrest, List.nil_append]
  | @entry front last bs hstart hfront hlast _ ih =>
      have hrest := ih (fun l hl => hone l (by simp [hl])) (number + front.length + 1)
      obtain ⟨rest, hcons⟩ := exists_append_cons_eq front last (bs.flatMap Block.lines)
      have hhead : OneLine (front.headD last) := hone _ (by simp [hcons])
      have heven : isContinued (LogicalLine.mk number []).text = false := rfl
      rw [flatMap_lines_entry, hcons, logicalLinesFrom_start hhead hstart, ← hcons,
        logicalLinesFrom_block heven hfront (flatMap_lines_eq_nil hlast), hrest, List.nil_append,
        Block.logicalLines]

end Division

theorem Block.le_number (number : Nat) (blocks : List Block) :
    ∀ line ∈ Block.logicalLines number blocks, number ≤ line.number := by
  induction blocks generalizing number with
  | nil => simp [Block.logicalLines]
  | cons b bs ih =>
      intro line hline
      cases b with
      | filler l => exact Nat.le_of_succ_le (ih (number + 1) line hline)
      | entry front last =>
          rcases List.mem_cons.mp hline with rfl | hline
          · exact Nat.le_refl number
          · have hle := ih _ line hline
            omega

theorem Block.pairwise_number (number : Nat) (blocks : List Block) :
    (Block.logicalLines number blocks).Pairwise fun l m => l.number < m.number := by
  induction blocks generalizing number with
  | nil => exact .nil
  | cons b bs ih =>
      cases b with
      | filler l => exact ih (number + 1)
      | entry front last =>
          refine .cons (fun line hline => ?_) (ih _)
          have hle : number + front.length + 1 ≤ line.number := Block.le_number _ bs line hline
          change number < line.number
          omega

/-- Every natural line belongs to one block of the only division by the rules, and the blocks
with entries are the logical lines, numbered by their first natural lines. -/
theorem logicalLines_division (t : Text) :
    ∃ blocks, Division blocks ∧ blocks.flatMap Block.lines = naturalLines t ∧
      logicalLines t = Block.logicalLines 1 blocks ∧
      (logicalLines t).Pairwise (fun l m => l.number < m.number) ∧
      ∀ others, Division others → others.flatMap Block.lines = naturalLines t →
        others = blocks := by
  obtain ⟨blocks, hblocks, hlines⟩ :=
    Division.exists_of_front [] (naturalLines t) (by simp) (by simp)
  rw [List.nil_append] at hlines
  have heq : logicalLines t = Block.logicalLines 1 blocks := by
    rw [logicalLines, ← hlines]
    exact hblocks.logicalLinesFrom_eq (fun l hl => oneLine_of_mem_naturalLines (hlines ▸ hl)) 1
  refine ⟨blocks, hblocks, hlines, heq, heq ▸ Block.pairwise_number 1 blocks, ?_⟩
  intro others hothers hall
  exact hblocks.unique hothers (hall.trans hlines.symm)

end ResourceBundles.Properties
