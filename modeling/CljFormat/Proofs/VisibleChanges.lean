/-
CljFormat.Proofs.VisibleChanges — a change that formatting makes is shown.

The difference of two texts compares their lines, so it shows neither a carriage return that is
dropped in front of a line feed, nor lines that are empty at the end. Formatting may drop such a
carriage return, and then the difference can be empty (`unseen_return`). But it leaves the number of
line feeds at the end of a text as it is (`feeds_of_format`), and adds no carriage returns
(`returns_of_format`). So the difference is empty only if nothing but carriage returns in front of
line feeds has changed, and never if there are none of these in the source (`visible_of_format`).
-/
import CljFormat.Proofs.Independence
import CljFormat.Proofs.Layout.LineEnds
import CljFormat.Proofs.LineDiff
import Mathlib.Data.List.DropRight

namespace CljFormat

namespace Text

variable {cs ds : List Char} {rows : List (List Char)}

/-! ## 1. Rows -/

/-- What stands between the line feeds of a text. -/
def rowsOf (cs : List Char) : List (List Char) :=
  (pieces '\n' cs).1 :: (pieces '\n' cs).2

/-- Rows with a line feed behind each. -/
def ended (rows : List (List Char)) : List Char :=
  rows.flatMap (· ++ ['\n'])

theorem ended_cons (row : List Char) (rows : List (List Char)) :
    ended (row :: rows) = row ++ '\n' :: ended rows := by
  simp [ended]

theorem ended_empties (i : Nat) : ended (List.replicate i []) = List.replicate i '\n' := by
  induction i with
  | zero => rfl
  | succ i ih => rw [List.replicate_succ, ended_cons, ih]; rfl

theorem rowsOf_newline (cs : List Char) : rowsOf ('\n' :: cs) = [] :: rowsOf cs := by
  simp [rowsOf, pieces]

theorem rowsOf_cons {c : Char} (hc : c ≠ '\n') (cs : List Char) :
    rowsOf (c :: cs) = (c :: (pieces '\n' cs).1) :: (pieces '\n' cs).2 := by
  simp [rowsOf, pieces, hc]

/-- The rows of a text, with a line feed behind each, are the text and one more line feed. -/
theorem ended_rowsOf (cs : List Char) : ended (rowsOf cs) = cs ++ ['\n'] := by
  induction cs with
  | nil => rfl
  | cons c cs ih =>
    by_cases hc : c = '\n'
    · rw [hc, rowsOf_newline, ended_cons, ih]; rfl
    · rw [rowsOf_cons hc, ended_cons]
      rw [rowsOf, ended_cons] at ih
      rw [List.cons_append, ih]; rfl

/-- Apart from its empty rows at the end, a text has only line feeds. -/
theorem exists_ended (cs : List Char) :
    ∃ i, cs ++ ['\n'] = ended ((rowsOf cs).rdropWhile List.isEmpty) ++ List.replicate i '\n' := by
  have hempties : (rowsOf cs).rtakeWhile List.isEmpty
      = List.replicate ((rowsOf cs).rtakeWhile List.isEmpty).length [] :=
    List.eq_replicate_iff.mpr ⟨rfl, fun row hrow =>
      List.isEmpty_iff.mp (List.mem_rtakeWhile_imp hrow)⟩
  refine ⟨((rowsOf cs).rtakeWhile List.isEmpty).length, ?_⟩
  calc cs ++ ['\n']
      = ended ((rowsOf cs).rdropWhile List.isEmpty ++ (rowsOf cs).rtakeWhile List.isEmpty) := by
        rw [List.rdropWhile_append_rtakeWhile, ended_rowsOf]
    _ = ended ((rowsOf cs).rdropWhile List.isEmpty)
          ++ ended ((rowsOf cs).rtakeWhile List.isEmpty) := List.flatMap_append
    _ = _ := by rw [hempties, ended_empties, List.length_replicate]

/-- Texts that end in equally many line feeds are the same if they have the same rows up to the
empty ones at the end. -/
theorem eq_of_rdropWhile (hfeeds : feeds 0 cs = feeds 0 ds)
    (h : (rowsOf cs).rdropWhile List.isEmpty = (rowsOf ds).rdropWhile List.isEmpty) : cs = ds := by
  obtain ⟨i, hcs⟩ := exists_ended cs
  obtain ⟨j, hds⟩ := exists_ended ds
  rw [h] at hcs
  have hcount : ∀ {es : List Char} {k : Nat},
      es ++ ['\n'] = ended ((rowsOf ds).rdropWhile List.isEmpty) ++ List.replicate k '\n' →
      feeds 0 es + 1 = feeds 0 (ended ((rowsOf ds).rdropWhile List.isEmpty)) + k := by
    intro es k hes
    have hends := congrArg (feeds 0) hes
    rw [feeds_append, feeds_append, feeds_newlines] at hends
    exact hends
  have hi := hcount hcs
  have hj := hcount hds
  obtain rfl : i = j := by omega
  exact List.append_cancel_right (hcs.trans hds.symm)

/-! ## 2. Rows as lines -/

/-- A text without the carriage returns that stand directly in front of a line feed. -/
def dropReturns : List Char → List Char
  | [] => []
  | c :: cs => if c = '\r' ∧ cs.head? = some '\n' then dropReturns cs else c :: dropReturns cs

theorem feeds_dropReturns (n : Nat) (cs : List Char) : feeds n (dropReturns cs) = feeds n cs := by
  induction cs generalizing n with
  | nil => rfl
  | cons c cs ih =>
    rw [dropReturns]
    split
    · next hreturn => rw [ih, feeds_cons, hreturn.1, feed_blank (by decide) (by decide)]
    · rw [feeds_cons, feeds_cons, ih]

theorem dropReturns_eq_self (h : ¬ ['\r', '\n'] <:+: cs) : dropReturns cs = cs := by
  induction cs with
  | nil => rfl
  | cons c cs ih =>
    rw [dropReturns, ih fun hpart => h (hpart.trans (List.suffix_cons c cs).isInfix), if_neg]
    rintro ⟨rfl, hhead⟩
    obtain ⟨ds, rfl⟩ := List.head?_eq_some_iff.mp hhead
    exact h (List.prefix_append ['\r', '\n'] ds).isInfix

theorem dropReturns_sublist (cs : List Char) : (dropReturns cs).Sublist cs := by
  induction cs with
  | nil => exact .slnil
  | cons c cs ih =>
    rw [dropReturns]
    split
    · exact ih.cons c
    · exact ih.cons_cons c

/-- A text that keeps all its carriage returns is as it was. -/
theorem dropReturns_eq_self_of_le (h : cs.count '\r' ≤ (dropReturns cs).count '\r') :
    dropReturns cs = cs := by
  induction cs with
  | nil => rfl
  | cons c cs ih =>
    rw [dropReturns] at h ⊢
    split at h
    · next hreturn =>
      have hlater := (dropReturns_sublist cs).count_le '\r'
      rw [hreturn.1, List.count_cons_self] at h
      omega
    · next hreturn =>
      rw [List.count_cons, List.count_cons] at h
      rw [if_neg hreturn, ih (by omega)]

/-- Rows as lines show them: without the carriage return at the end of a row that a line feed
follows. -/
def shown : (rows : List (List Char)) → List (List Char)
  | [] => []
  | [last] => [last]
  | row :: rest => dropReturn row :: shown rest

theorem shown_cons (row : List Char) (h : rows ≠ []) :
    shown (row :: rows) = dropReturn row :: shown rows := by
  cases rows with
  | nil => exact absurd rfl h
  | cons next later => rfl

theorem shown_append_singleton (rows : List (List Char)) (last : List Char) :
    shown (rows ++ [last]) = rows.map dropReturn ++ [last] := by
  induction rows with
  | nil => rfl
  | cons row rows ih =>
    rw [List.cons_append, shown_cons row (List.concat_ne_nil last rows), ih]
    rfl

/-- Only a line feed leaves the first of several rows empty. -/
theorem head_of_pieces (hfirst : (pieces '\n' cs).1 = []) (hrest : (pieces '\n' cs).2 ≠ []) :
    cs.head? = some '\n' := by
  cases cs with
  | nil => exact absurd rfl hrest
  | cons c cs =>
    by_cases hc : c = '\n'
    · rw [hc]
      rfl
    · exact absurd hfirst (by simp [pieces, hc])

theorem rowsOf_ne_nil (cs : List Char) : rowsOf cs ≠ [] :=
  List.cons_ne_nil _ _

theorem dropReturn_cons {c : Char} {row : List Char} (h : c = '\r' → row ≠ []) :
    dropReturn (c :: row) = c :: dropReturn row := by
  cases row with
  | nil =>
    have hc : c ≠ '\r' := fun hc => h hc rfl
    simp [dropReturn, hc]
  | cons d row =>
    rw [dropReturn, dropReturn, List.getLast?_cons_cons]
    split <;> rfl

/-- Without the carriage returns in front of its line feeds, a text has the rows that are shown. -/
theorem rowsOf_dropReturns (cs : List Char) : rowsOf (dropReturns cs) = shown (rowsOf cs) := by
  induction cs with
  | nil => rfl
  | cons c cs ih =>
    rw [dropReturns]
    split
    · next hreturn =>
      obtain ⟨rfl, hhead⟩ := hreturn
      obtain ⟨ds, rfl⟩ := List.head?_eq_some_iff.mp hhead
      have hrow : rowsOf ('\r' :: '\n' :: ds) = ['\r'] :: rowsOf ds := by simp [rowsOf, pieces]
      have hds := rowsOf_ne_nil ds
      rw [ih, rowsOf_newline, hrow, shown_cons _ hds, shown_cons _ hds]
      rfl
    · next hreturn =>
      by_cases hc : c = '\n'
      · rw [hc, rowsOf_newline, rowsOf_newline, ih, shown_cons _ (rowsOf_ne_nil cs)]
        rfl
      · have hhead := @head_of_pieces cs
        rw [rowsOf_cons hc, rowsOf_cons hc]
        rw [rowsOf, rowsOf] at ih
        generalize (pieces '\n' cs).1 = first, (pieces '\n' cs).2 = rest at ih hhead ⊢
        cases rest with
        | nil =>
          obtain ⟨hfirst, hrest⟩ := List.cons.inj ih
          rw [hfirst, hrest]
          rfl
        | cons next later =>
          obtain ⟨hfirst, hrest⟩ := List.cons.inj ih
          have hkeep : dropReturn (c :: first) = c :: dropReturn first :=
            dropReturn_cons fun hc hempty => hreturn ⟨hc, hhead hempty (List.cons_ne_nil _ _)⟩
          rw [hfirst, hrest, shown_cons _ (List.cons_ne_nil _ _), hkeep]

theorem rdropWhile_map_ofList (rows : List (List Char)) :
    (rows.map String.ofList).rdropWhile String.isEmpty
      = (rows.rdropWhile List.isEmpty).map String.ofList := by
  have hempty : String.isEmpty ∘ String.ofList = List.isEmpty := by
    funext row
    rw [Bool.eq_iff_iff, Function.comp_apply, String.isEmpty_iff, List.isEmpty_iff]
    exact ⟨fun h => by simpa using congrArg String.toList h, fun h => by rw [h]⟩
  rw [List.rdropWhile, List.rdropWhile, ← List.map_reverse, List.dropWhile_map, hempty,
    List.map_reverse]

/-- The lines of a text are its rows without carriage returns in front of line feeds, but for an
empty row at the end. -/
theorem rdropWhile_lines (s : String) :
    (lines s).rdropWhile String.isEmpty
      = ((rowsOf (dropReturns s.toList)).rdropWhile List.isEmpty).map String.ofList := by
  obtain ⟨front, last, hrows⟩ : ∃ front last, rowsOf s.toList = front ++ [last] :=
    ⟨_, _, (List.dropLast_concat_getLast (rowsOf_ne_nil _)).symm⟩
  have hlines : lines s = (if last.isEmpty then front.map dropReturn
      else front.map dropReturn ++ [last]).map String.ofList := by
    rw [rowsOf] at hrows
    unfold lines
    simp only [hrows, List.dropLast_concat, List.getLast?_concat, Option.getD_some]
  rw [rowsOf_dropReturns, hrows, shown_append_singleton, hlines, rdropWhile_map_ofList]
  split
  · next hlast => rw [List.rdropWhile_concat_pos _ _ _ hlast]
  · rfl

/-- If two texts end in equally many line feeds, their lines are the same up to the empty ones at
the end exactly if the texts are the same up to carriage returns in front of line feeds. -/
theorem rdropWhile_lines_eq_iff {s t : String} (hfeeds : feeds 0 s.toList = feeds 0 t.toList) :
    (lines s).rdropWhile String.isEmpty = (lines t).rdropWhile String.isEmpty ↔
      dropReturns s.toList = dropReturns t.toList := by
  rw [rdropWhile_lines, rdropWhile_lines]
  constructor
  · intro h
    have hrows := List.map_injective_iff.mpr (fun _ _ => String.ofList_inj.mp) h
    exact eq_of_rdropWhile (by rw [feeds_dropReturns, feeds_dropReturns, hfeeds]) hrows
  · intro h
    rw [h]

end Text

/-! ## 3. Changes that are shown -/

variable {source text : String}

/-- Formatting leaves the number of line feeds at the end of a text as it is. -/
theorem feeds_of_format (h : format {} source = .ok text) :
    Text.feeds 0 text.toList = Text.feeds 0 source.toList := by
  obtain ⟨d, hread, rfl⟩ := exists_of_format h
  have hbare : (planned {} d.roots).map Form.bare = d.roots.map Form.bare :=
    Layout.bare_planAll {} d.roots
  calc Text.feeds 0 (Layout.toText ' ' (Layout.sourcePieces (planned {} d.roots))).toList
      = (planned {} d.roots).foldl Form.feeds 0 :=
        Layout.feeds_toText (readable_planned (Reader.readable_of_read hread))
    _ = d.roots.foldl Form.feeds 0 := Form.foldl_feeds_of_bare hbare 0
    _ = Text.feeds 0 source.toList := Reader.feeds_of_read hread

/-- Formatting adds no carriage returns. -/
theorem returns_of_format (h : format {} source = .ok text) :
    text.toList.count '\r' ≤ source.toList.count '\r' := by
  obtain ⟨d, hread, rfl⟩ := exists_of_format h
  have hbare : (planned {} d.roots).map Form.bare = d.roots.map Form.bare :=
    Layout.bare_planAll {} d.roots
  calc (Layout.toText ' ' (Layout.sourcePieces (planned {} d.roots))).toList.count '\r'
      ≤ Form.returnsAll (planned {} d.roots) := Layout.returns_toText (.inl rfl) _
    _ = Form.returnsAll d.roots := Form.returnsAll_of_bare hbare
    _ ≤ source.toList.count '\r' := Reader.returns_of_read hread

/-- A source without carriage returns in front of line feeds changes in more than these. -/
theorem dropReturns_ne_of_format (h : format {} source = .ok text) (hchanged : text ≠ source)
    (hreturns : ¬ ['\r', '\n'] <:+: source.toList) :
    Text.dropReturns source.toList ≠ Text.dropReturns text.toList := by
  intro hsame
  rw [Text.dropReturns_eq_self hreturns] at hsame
  have hkept : Text.dropReturns text.toList = text.toList := by
    refine Text.dropReturns_eq_self_of_le ?_
    rw [← hsame]
    exact returns_of_format h
  exact hchanged (String.toList_inj.mp (hsame.trans hkept).symm)

/-- What formatting changes is shown, unless only carriage returns in front of line feeds are
changed. If there are none of these in the source, every change is shown. -/
theorem visible_of_format (h : format {} source = .ok text) (hchanged : text ≠ source) :
    ∃ difference, formatDiff source = .ok (some difference) ∧
      (difference = "" ↔ Text.dropReturns source.toList = Text.dropReturns text.toList) ∧
      (¬ ['\r', '\n'] <:+: source.toList → difference ≠ "") := by
  obtain ⟨difference, hdifference, hempty⟩ := lineDiff_eq_some (Ne.symm hchanged)
  have hreturns := hempty.trans (Text.rdropWhile_lines_eq_iff (feeds_of_format h).symm)
  refine ⟨difference, ?_, hreturns, fun hnone hnothing => ?_⟩
  · rw [formatDiff, h]
    exact congrArg Except.ok hdifference
  · exact dropReturns_ne_of_format h hchanged hnone (hreturns.mp hnothing)

/-- A carriage return behind a comment becomes a line feed, since the bracket is still open. -/
theorem visible_of_format_comment :
    format {} "[;c\rx]\n" = .ok "[;c\n x]\n" ∧ "[;c\n x]\n" ≠ "[;c\rx]\n" ∧
      ¬ ['\r', '\n'] <:+: "[;c\rx]\n".toList ∧
      ∃ difference, formatDiff "[;c\rx]\n" = .ok (some difference) ∧ difference ≠ "" := by
  have hformat : format {} "[;c\rx]\n" = .ok "[;c\n x]\n" := rfl
  have hchanged : "[;c\n x]\n" ≠ "[;c\rx]\n" := by decide
  have hreturns : ¬ ['\r', '\n'] <:+: "[;c\rx]\n".toList := by decide
  obtain ⟨difference, hdifference, -, hvisible⟩ := visible_of_format hformat hchanged
  exact ⟨hformat, hchanged, hreturns, difference, hdifference, hvisible hreturns⟩

/-- The carriage return that ends a line together with a line feed is dropped, and is not shown. -/
theorem unseen_return :
    format {} "x\r\n" = .ok "x\n" ∧ "x\n" ≠ "x\r\n" ∧
      formatDiff "x\r\n" = .ok (some "") := by
  have hformat : format {} "x\r\n" = .ok "x\n" := rfl
  have hchanged : "x\r\n" ≠ "x\n" := by decide
  have hlines : Text.lines "x\r\n" = Text.lines "x\n" := rfl
  obtain ⟨difference, hdifference, hempty⟩ := lineDiff_eq_some hchanged
  obtain rfl : difference = "" := hempty.mpr (congrArg _ hlines)
  refine ⟨hformat, hchanged.symm, ?_⟩
  rw [formatDiff, hformat]
  exact congrArg Except.ok hdifference

end CljFormat
