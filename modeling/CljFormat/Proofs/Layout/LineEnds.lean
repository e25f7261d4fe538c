/-
CljFormat.Proofs.Layout.LineEnds — the line feeds at the end of what a layout writes.

Behind a form, a text ends in as many line feeds as the form tells, whatever stands in between: a
line break is written as a line feed, and any other form starts and ends with what is no blank, but
for the character of a literal (`feeds_form`). So the line feeds at the end of a text are those that
its forms tell of (`feeds_toText`), and since a source agrees with its forms too, formatting keeps
their number.

The layout writes no carriage returns of its own, and setting a docstring can only drop some
(`returns_toText`).
-/
import CljFormat.Proofs.Layout.Settle
import CljFormat.Proofs.Reader.LineEnds

namespace CljFormat

/-! ## 1. Line feeds -/

theorem Atom.feeds_string (n : Nat) (text : String) :
    Text.feeds n (Atom.string text).text.toList = 0 := by
  have hquoted := Text.feeds_concat_solid (c := '"') (by decide) n ('"' :: text.toList)
  simpa [Atom.text] using hquoted

/-- The text of a readable atom does what the atom tells. -/
theorem Atom.feeds_text {x : Atom} (h : x.Readable) (hbreak : x ≠ .newline) (n : Nat) :
    Text.feeds n x.text.toList = x.feeds n := by
  cases x with
  | newline => exact absurd rfl hbreak
  | bool value => cases value <;> rfl
  | nil => rfl
  | character value text => exact h.1.feeds rfl n
  | comment text | keyword text | number text => exact h.feeds rfl n
  | symbol text => exact h.1.feeds rfl n
  | string text => exact feeds_string n text
  | regex text =>
    have hquoted := Text.feeds_concat_solid (c := '"') (by decide) n ('#' :: '"' :: text.toList)
    simpa [Atom.text, Atom.feeds] using hquoted
  | tag text =>
    have htag : Text.feeds n ('#' :: text.toList) = 0 := h.feeds rfl _
    simpa [Atom.text, Atom.feeds] using htag
  | varQuote text =>
    have hname : Text.feeds n ('#' :: '\'' :: text.toList) = 0 := h.feeds rfl _
    simpa [Atom.text, Atom.feeds] using hname

/-- A closing delimiter is one character, and no blank. -/
theorem Bracket.closeText_eq (b : Bracket) :
    ∃ d, Text.isBlank d = false ∧ b.closeText.toList = [d] := by
  cases b with
  | map namespace? => exact ⟨'\x7d', by decide, show "\x7d".toList = ['\x7d'] from rfl⟩
  | _ => exact ⟨_, by decide, rfl⟩

namespace Layout

variable {c : Char} {cur : Cursor} {f : Form Hint} {fs : List (Form Hint)} {inside : Bool}

/-- Behind what a form is written with, a text ends in as many line feeds as the form tells. -/
theorem feeds_form (h : f.Readable inside) (hbreak : f.isNewline = false) (w n : Nat) :
    Text.feeds n (spellOut c (formPieces f w).1) = f.feeds n := by
  induction f using Form.induct generalizing inside w n with
  | atom hint x =>
    rw [spellOut_atom]
    unfold settleAtom
    split
    · exact Atom.feeds_string n _
    · exact Atom.feeds_text h (by rintro rfl; cases hbreak) n
  | prefixed hint s body ih =>
    have hmark : Text.feeds n s.text.toList = 0 := by cases s <;> rfl
    obtain ⟨hsem, hbody⟩ := Form.readable_prefixed.mp h
    rw [formPieces_prefixed, spellOut_cons, Text.feeds_append, Piece.chars, hmark,
      ih hbody (Form.isSemantic_iff.mp hsem).1]
    rfl
  | seq hint b items _ =>
    obtain ⟨d, hsolid, hclose⟩ := b.closeText_eq
    rw [formPieces_seq]
    simp only [spellOut_append, spellOut_cons, spellOut_nil, List.append_nil, Piece.chars, hclose]
    exact Text.feeds_concat_solid hsolid n _

theorem feeds_items (h : ∀ f ∈ fs, f.Readable inside) (layout : Layout)
    (cur : Cursor) (n : Nat) :
    Text.feeds n (spellOut c (itemPieces layout cur fs).1) = fs.foldl Form.feeds n := by
  induction fs generalizing cur n with
  | nil => rfl
  | cons f fs ih =>
    have hlater := ih fun g hg => h g (List.mem_cons_of_mem _ hg)
    rw [List.foldl_cons]
    cases hf : f.isNewline with
    | true =>
      obtain ⟨hint, rfl⟩ := Form.eq_newline hf
      rw [itemPieces_newline hf, spellOut_cons, Text.feeds_append, hlater]
      rfl
    | false =>
      rw [itemPieces_cons hf]
      simp only [spellOut_append, Text.feeds_append]
      rw [feeds_form (h f List.mem_cons_self) hf, Form.feeds_eq hf, ← Form.feeds_eq hf n, hlater]

/-- A text ends in as many line feeds as its forms tell. -/
theorem feeds_toText (h : ∀ f ∈ fs, f.Readable inside) :
    Text.feeds 0 (toText c (sourcePieces fs)).toList = fs.foldl Form.feeds 0 := by
  rw [toText, String.toList_ofList]
  exact feeds_items h .normal (.start 0) 0

/-! ## 2. Carriage returns -/

theorem Indents.returns (hc : Indents c) (n : Nat) : (List.replicate n c).count '\r' = 0 := by
  rw [List.count_replicate]
  rcases hc with rfl | rfl <;> exact if_neg (by decide)

theorem returns_gapPieces (hc : Indents c) (cur : Cursor) :
    (spellOut c cur.gapPieces).count '\r' = 0 := by
  unfold Cursor.gapPieces
  split
  · rfl
  · rfl
  · simpa [Piece.chars] using hc.returns cur.base

theorem returns_commentPieces (cur : Cursor) : (spellOut c cur.commentPieces).count '\r' = 0 := by
  unfold Cursor.commentPieces
  split <;> rfl

theorem returns_settled_line (hc : Indents c) (w : Nat) (line : List Char) :
    (DocLine.settled c w line).count '\r' ≤ line.count '\r' := by
  obtain ⟨before, after, hline, -, -⟩ := eq_trim line
  have htrim : (trim line).count '\r' ≤ line.count '\r' := by
    conv_rhs => rw [hline, List.count_append, List.count_append]
    omega
  rw [DocLine.settled, List.count_append, hc.returns, Nat.zero_add, DocLine.align]
  dsimp only
  split
  · exact Nat.zero_le _
  · have hspaces := Indents.returns (.inl rfl) ((line.takeWhile (· == ' ')).length - w)
    rwa [List.count_append, hspaces, Nat.zero_add]

/-- Setting a docstring adds no carriage returns. -/
theorem returns_settled (hc : Indents c) (w : Nat) (text : String) :
    (Docstring.settled c w text).toList.count '\r' ≤ text.toList.count '\r' := by
  have hrest : ∀ lines : List (List Char),
      ((lines.map (DocLine.settled c w)).flatMap ('\n' :: ·)).count '\r'
        ≤ (lines.flatMap ('\n' :: ·)).count '\r' := by
    intro lines
    induction lines with
    | nil => exact Nat.le_refl 0
    | cons line lines ih =>
      have hline := returns_settled_line hc w line
      simp only [List.map_cons, List.flatMap_cons, List.cons_append, List.count_cons,
        List.count_append]
      omega
  conv_rhs => rw [← join_pieces text.toList]
  rw [settled_toList, List.count_append, List.count_append]
  exact Nat.add_le_add_left (hrest _) _

theorem returns_settleAtom (hc : Indents c) (hint : Hint) (x : Atom) (w : Nat) :
    (settleAtom c hint x w).text.toList.count '\r' ≤ x.text.toList.count '\r' := by
  unfold settleAtom
  split
  · next text _ => simpa [Atom.text] using returns_settled hc w text
  · exact Nat.le_refl _

theorem returns_items (hc : Indents c) (layout : Layout)
    (hfs : ∀ f ∈ fs, ∀ w, (spellOut c (formPieces f w).1).count '\r' ≤ f.returns) (cur : Cursor) :
    (spellOut c (itemPieces layout cur fs).1).count '\r' ≤ Form.returnsAll fs := by
  induction fs generalizing cur with
  | nil => exact Nat.le_refl 0
  | cons f fs ih =>
    have hlater := ih fun g hg => hfs g (List.mem_cons_of_mem _ hg)
    rw [Form.returnsAll]
    cases h : f.isNewline with
    | true =>
      have hbreak : (Piece.chars c .newline).count '\r' = 0 := rfl
      rw [itemPieces_newline h, spellOut_cons, List.count_append, hbreak, Nat.zero_add]
      exact Nat.le_trans (hlater _) (Nat.le_add_left _ _)
    | false =>
      have hf := hfs f List.mem_cons_self (cur.enter layout f).itemCol
      have hrest := hlater (cur.past layout f)
      rw [itemPieces_cons h]
      simp only [spellOut_append, List.count_append, returns_commentPieces, returns_gapPieces hc]
      omega

theorem returns_form (hc : Indents c) (f : Form Hint) (w : Nat) :
    (spellOut c (formPieces f w).1).count '\r' ≤ f.returns := by
  induction f using Form.induct generalizing w with
  | atom hint x =>
    rw [spellOut_atom]
    exact returns_settleAtom hc hint x w
  | prefixed hint s body ih =>
    have hmark : s.text.toList.count '\r' = 0 := by cases s <;> rfl
    rw [formPieces_prefixed, spellOut_cons, List.count_append, Piece.chars, hmark, Nat.zero_add]
    exact ih _
  | seq hint b items ih =>
    have hclose : b.closeText.toList.count '\r' = 0 := by
      obtain ⟨d, hsolid, hd⟩ := b.closeText_eq
      rw [hd, List.count_eq_zero, List.mem_singleton]
      rintro rfl
      exact absurd hsolid (by decide)
    have hitems := returns_items hc hint.layout ih (.start (w + b.openText.length))
    have hindent : ∀ last : Cursor,
        (spellOut c (if last.gap = .indent then [.indent last.base] else [])).count '\r' = 0 := by
      intro last
      split
      · simpa [Piece.chars] using hc.returns last.base
      · rfl
    rw [formPieces_seq, Form.returns]
    simp only [List.cons_append, spellOut_cons, spellOut_append, List.count_append, spellOut_nil,
      Piece.chars, hindent, hclose, returns_commentPieces, List.count_nil]
    omega

/-- A text is written with no more carriage returns than its forms. -/
theorem returns_toText (hc : Indents c) (fs : List (Form Hint)) :
    (toText c (sourcePieces fs)).toList.count '\r' ≤ Form.returnsAll fs := by
  rw [toText, String.toList_ofList]
  exact returns_items hc .normal (fun f _ w => returns_form hc f w) (.start 0)

end Layout

end CljFormat
