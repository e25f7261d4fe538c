/-
CljFormat.Proofs.Layout.Margin — what stands on lines of its own is set on its own.

The lines of a source start at the margin, and nothing that the layout remembers of the forms before
a line break at the top is asked behind it: such a place is like the start of a source
(`sameSpot_passNewline`). So what is set on both sides of the line break is set there as it is set
alone (`toText_newline`).
-/
import CljFormat.Proofs.Layout.Settle

namespace CljFormat.Layout

variable {c : Char} {cur cur' : Cursor} {fs gs : List (Form Hint)}

/-! ## 1. Items one after the other -/

theorem itemPieces_append (layout : Layout) (cur : Cursor) (fs gs : List (Form Hint)) :
    itemPieces layout cur (fs ++ gs)
      = ((itemPieces layout cur fs).1 ++ (itemPieces layout (itemPieces layout cur fs).2 gs).1,
        (itemPieces layout (itemPieces layout cur fs).2 gs).2) := by
  induction fs generalizing cur with
  | nil => rfl
  | cons f fs ih =>
    rw [List.cons_append]
    cases hf : f.isNewline with
    | true => simp only [itemPieces_newline hf, ih, List.cons_append]
    | false => simp only [itemPieces_cons hf, ih, List.append_assoc]

/-! ## 2. Places at the top of a source -/

/-- A place whose next line starts at the margin. -/
structure Cursor.AtMargin (cur : Cursor) : Prop where
  base : cur.base = 0
  hanging : cur.hanging = false

/-- Two places at the top of a source at which the same is set. Whether nothing or no columns of
indentation stand before the next item makes no difference. -/
structure SameSpot (cur cur' : Cursor) : Prop where
  margin : cur.AtMargin
  margin' : cur'.AtMargin
  col : cur'.col = cur.col
  space : cur'.gap = .space ↔ cur.gap = .space
  afterComment : cur'.afterComment = cur.afterComment

theorem Cursor.AtMargin.start : (Cursor.start 0).AtMargin := ⟨rfl, rfl⟩

theorem Cursor.AtMargin.refl (h : cur.AtMargin) : SameSpot cur cur :=
  ⟨h, h, rfl, Iff.rfl, rfl⟩

theorem Cursor.AtMargin.breakLine (h : cur.AtMargin) : (cur.breakLine .normal).AtMargin :=
  ⟨h.base, by simp [Cursor.breakLine, Cursor.atSecond, h.hanging]⟩

theorem SameSpot.count (h : SameSpot cur cur') (f : Form Hint) :
    SameSpot (cur.count .normal f) (cur'.count .normal f) := by
  obtain ⟨counted, paired, hcount⟩ := cur.count_eq .normal f
  obtain ⟨counted', paired', hcount'⟩ := cur'.count_eq .normal f
  rw [hcount, hcount']
  exact ⟨⟨h.margin.base, h.margin.hanging⟩, ⟨h.margin'.base, h.margin'.hanging⟩, h.col, h.space,
    h.afterComment⟩

/-- Wherever a line is broken at the top of a source, the same is set behind it. -/
theorem sameSpot_breakLine (h : cur.AtMargin) (h' : cur'.AtMargin) :
    SameSpot (cur.breakLine .normal) (cur'.breakLine .normal) :=
  ⟨h.breakLine, h'.breakLine, h'.base.trans h.base.symm, Iff.rfl, rfl⟩

/-- The place past a line break at the top of a source is like the start of a source. -/
theorem sameSpot_passNewline (h : cur.AtMargin) :
    SameSpot (.start 0) (cur.passNewline .normal) :=
  ⟨.start, ⟨h.breakLine.base, h.breakLine.hanging⟩, h.base, by simp [Cursor.passNewline,
    Cursor.breakLine, Cursor.start], rfl⟩

theorem SameSpot.passNewline (h : SameSpot cur cur') :
    SameSpot (cur.passNewline .normal) (cur'.passNewline .normal) := by
  have hbreak := sameSpot_breakLine h.margin h.margin'
  exact ⟨⟨hbreak.margin.base, hbreak.margin.hanging⟩, ⟨hbreak.margin'.base, hbreak.margin'.hanging⟩,
    hbreak.col, hbreak.space, hbreak.afterComment⟩

theorem SameSpot.enter (h : SameSpot cur cur') (f : Form Hint) :
    SameSpot (cur.enter .normal f) (cur'.enter .normal f) := by
  have hreach : ∀ cur : Cursor, cur.reachSecond .normal = cur := by
    intro cur
    unfold Cursor.reachSecond
    split <;> rfl
  unfold Cursor.enter
  rw [h.afterComment, hreach, hreach]
  split
  · exact (sameSpot_breakLine h.margin h.margin').count f
  · exact h.count f

theorem SameSpot.itemCol (h : SameSpot cur cur') : cur'.itemCol = cur.itemCol := by
  unfold Cursor.itemCol
  simp only [h.space, h.col]

theorem SameSpot.leave (h : SameSpot cur cur') (f : Form Hint) (w : Nat) :
    SameSpot (cur.leave f w) (cur'.leave f w) := by
  have hbase : ∀ {cur : Cursor}, cur.AtMargin → (cur.leave f w).AtMargin := by
    intro cur hcur
    exact ⟨by simp [Cursor.leave, hcur.hanging, hcur.base], rfl⟩
  exact ⟨hbase h.margin, hbase h.margin', rfl, Iff.rfl, rfl⟩

theorem SameSpot.past (h : SameSpot cur cur') (f : Form Hint) :
    SameSpot (cur.past .normal f) (cur'.past .normal f) := by
  have henter := h.enter f
  unfold Cursor.past
  rw [henter.itemCol]
  exact henter.leave f _

/-! ## 3. The same text -/

theorem SameSpot.commentPieces (h : SameSpot cur cur') :
    cur'.commentPieces = cur.commentPieces := by
  rw [Cursor.commentPieces, Cursor.commentPieces, h.afterComment]

theorem SameSpot.gapPieces (h : SameSpot cur cur') :
    spellOut c cur'.gapPieces = spellOut c cur.gapPieces := by
  have hnothing : ∀ {cur : Cursor}, cur.AtMargin → cur.gap ≠ .space →
      spellOut c cur.gapPieces = [] := by
    intro cur hcur hgap
    cases hkind : cur.gap with
    | none => simp [Cursor.gapPieces, hkind]
    | space => exact absurd hkind hgap
    | indent => simp [Cursor.gapPieces, hkind, hcur.base, Piece.chars]
  by_cases hgap : cur.gap = .space
  · simp only [Cursor.gapPieces, hgap, h.space.mpr hgap]
  · rw [hnothing h.margin hgap, hnothing h.margin' (fun hgap' => hgap (h.space.mp hgap'))]

/-- At places that are alike, the same characters are set, and the places behind are alike. -/
theorem SameSpot.items (h : SameSpot cur cur') (fs : List (Form Hint)) :
    spellOut c (itemPieces .normal cur' fs).1 = spellOut c (itemPieces .normal cur fs).1 ∧
      SameSpot (itemPieces .normal cur fs).2 (itemPieces .normal cur' fs).2 := by
  induction fs generalizing cur cur' with
  | nil => exact ⟨rfl, h⟩
  | cons f fs ih =>
    cases hf : f.isNewline with
    | true =>
      obtain ⟨hlater, hend⟩ := ih h.passNewline
      rw [itemPieces_newline hf, itemPieces_newline hf]
      exact ⟨congrArg ('\n' :: ·) hlater, hend⟩
    | false =>
      obtain ⟨hlater, hend⟩ := ih (h.past f)
      rw [itemPieces_cons hf, itemPieces_cons hf]
      refine ⟨?_, hend⟩
      simp only [spellOut_append]
      rw [hlater, h.commentPieces, (h.enter f).gapPieces, (h.enter f).itemCol]

/-- Forms on both sides of a line break at the top of a source are set as they are set alone. -/
theorem toText_newline {f : Form Hint} (hf : f.isNewline = true) (fs gs : List (Form Hint)) :
    toText c (sourcePieces (fs ++ f :: gs))
      = toText c (sourcePieces fs) ++ "\n" ++ toText c (sourcePieces gs) := by
  have hmargin : (itemPieces .normal (.start 0) fs).2.AtMargin :=
    (Cursor.AtMargin.start.refl.items (c := c) fs).2.margin
  have hlater := ((sameSpot_passNewline hmargin).items (c := c) gs).1
  have hspelled : ∀ pieces, toText c pieces = String.ofList (spellOut c pieces) := fun _ => rfl
  have hbreak : Piece.chars c .newline = "\n".toList := rfl
  simp only [hspelled, sourcePieces]
  rw [itemPieces_append, itemPieces_newline hf, spellOut_append, spellOut_cons, hlater, hbreak,
    String.ofList_append, String.ofList_append, String.ofList_toList, String.append_assoc]

end CljFormat.Layout
